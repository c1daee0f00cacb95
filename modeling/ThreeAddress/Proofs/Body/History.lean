import Mathlib.Data.List.Induction
import ThreeAddress.Proofs.Body.Replacement

namespace ThreeAddress.Body

inductive Edit where
  | push (s : Stmt)
  | append (us : List CodeUnit)
  | setStmt (u : UnitId) (s : Stmt)
  | setStmtAt (p : Nat) (s : Stmt)
  | redirect (a z : UnitId)
  | pushTrap (t : Trap)
  | remove (u : UnitId)
  | replace (u : UnitId) (stmts : List Stmt)
  | dropEmptyTraps
  | declareLocal (l : Local)
deriving DecidableEq, Repr

/-- The identities that an edit hands out, and the body that it leaves, also when it fails. -/
def perform (b : Body) : Edit → List UnitId × Body
  | .push s => ([(b.push s).1], (b.push s).2)
  | .append us => ([], (b.append us).2)
  | .setStmt u s => ([], b.setStmt u s)
  | .setStmtAt p s => ([], b.setStmtAt p s)
  | .redirect a z => ([], b.redirect a z)
  | .pushTrap t => ([], b.pushTrap t)
  | .remove u =>
    match b.remove u with
    | .ok (_, c) => ([], c)
    | .error _ => ([], b)
  | .replace u stmts =>
    match b.replace u stmts with
    | .ok (fresh, c) => (fresh, c)
    | .error _ => ([], b)
  | .dropEmptyTraps => ([], b.dropEmptyTraps)
  | .declareLocal l => ([], b.declareLocal l)

/-- The body that starts empty and goes through a run of edits. -/
def built (run : List Edit) : Body := run.foldl (fun b e ↦ (b.perform e).2) {}

structure Numbered (b : Body) : Prop where
  nodup : b.ids.Nodup
  bounded : b.Bounded
  room : b.HasRoom 0

/-- No unit has the last of all identities, above which there is no bound. -/
def SparesLast (b : Body) : Prop := ∀ u ∈ b.ids, u.index + 1 < idCount

instance (b : Body) : Decidable b.SparesLast :=
  inferInstanceAs (Decidable (∀ u ∈ b.ids, u.index + 1 < idCount))

variable {b c : Body} {u : UnitId} {s : Stmt} {stmts : List Stmt} {e : Edit} {p : Nat}

theorem numbered_empty : Numbered {} := ⟨by simp [ids], bounded_empty, by decide⟩

theorem Numbered.shrink (h : b.Numbered) (hi : c.ids.Sublist b.ids)
    (hn : c.nextUnit = b.nextUnit) : c.Numbered where
  nodup := hi.nodup h.nodup
  bounded := h.bounded.mono hi.subset (Nat.le_of_eq hn.symm)
  room := by
    rw [HasRoom, hn]
    exact h.room

theorem exists_of_remove (h : b.remove u = .ok (s, c)) :
    ∃ p, b.position? u = some p ∧ b.isRemovable u = true ∧ c = b.removeAt p := by
  unfold remove at h
  split at h
  · next p _ hp _ =>
    split at h
    · next hr =>
      cases h
      exact ⟨p, hp, hr, rfl⟩
    · cases h
  · cases h

theorem Numbered.hasRoom_push (h : b.Numbered) (hlast : (b.push s).2.SparesLast) : b.HasRoom 1 := by
  refine h.room.of_fresh fun i hi ↦ hlast _ ?_
  obtain rfl := Nat.lt_one_iff.1 hi
  simp [ids_push]

theorem Numbered.hasRoom_replaced (h : b.Numbered) (hr : b.Replaced u p stmts c)
    (hlast : c.SparesLast) : b.HasRoom stmts.length := by
  refine h.room.of_fresh fun i hi ↦ hlast _ ?_
  rw [hr.ids, List.mem_append, List.mem_append]
  exact .inl (.inr (List.mem_map_of_mem (List.mem_range.2 hi)))

theorem Numbered.perform (h : b.Numbered) (e : Edit) (hlast : (b.perform e).2.SparesLast) :
    (b.perform e).2.Numbered := by
  cases e with
  | push s =>
    have hroom := h.hasRoom_push hlast
    exact ⟨nodup_push h.nodup h.bounded h.room s, h.bounded.push hroom s, wrapId_lt _⟩
  | append us =>
    exact ⟨nodup_append h.nodup us, h.bounded.append us hlast, nextUnit_append_lt h.room us⟩
  | setStmt u s => exact h.shrink (by simp [Body.perform]) rfl
  | setStmtAt p s => exact h.shrink (by simp [Body.perform, setStmtAt]) rfl
  | redirect a z => exact h.shrink (by simp [Body.perform]) rfl
  | pushTrap t => exact h.shrink (List.Sublist.refl _) rfl
  | remove u =>
    rw [Body.perform]
    split
    · next s c hc =>
      obtain ⟨p, -, -, rfl⟩ := exists_of_remove hc
      refine h.shrink ?_ (nextUnit_removeAt b p)
      rw [ids_removeAt]
      exact List.eraseIdx_sublist b.ids p
    · exact h
  | replace u stmts =>
    rw [Body.perform] at hlast ⊢
    split at hlast
    · next fresh c hc =>
      obtain ⟨-, p, hr⟩ := replace_ok hc
      have hroom := h.hasRoom_replaced hr hlast
      exact ⟨hr.nodup h.nodup h.bounded hroom, hr.bounded h.bounded hroom,
        Nat.lt_of_le_of_lt (Nat.le_of_eq hr.nextUnit) (wrapId_lt _)⟩
    · exact h
  | dropEmptyTraps => exact h.shrink (List.Sublist.refl _) rfl
  | declareLocal l =>
    exact h.shrink (by simp [Body.perform]) (by simp [Body.perform])

theorem nodup_locals_perform (h : (b.locals.map (·.id)).Nodup) (e : Edit) :
    ((b.perform e).2.locals.map (·.id)).Nodup := by
  cases e with
  | append us =>
    rw [perform, locals_append]
    exact h
  | remove u =>
    rw [perform]
    split
    · next s c hc =>
      obtain ⟨p, -, -, rfl⟩ := exists_of_remove hc
      rw [locals_removeAt]
      exact h
    · exact h
  | replace u stmts =>
    rw [perform]
    split
    · next fresh c hc =>
      obtain ⟨-, p, hr⟩ := replace_ok hc
      rw [hr.locals]
      exact h
    · exact h
  | declareLocal l => exact nodup_declareLocal h l
  | _ => exact h

theorem Numbered.nextUnit_le_perform (h : b.Numbered) (e : Edit)
    (hlast : (b.perform e).2.SparesLast) : b.nextUnit ≤ (b.perform e).2.nextUnit := by
  cases e with
  | push s =>
    rw [Body.perform, nextUnit_push (h.hasRoom_push hlast)]
    exact Nat.le_succ b.nextUnit
  | append us => exact nextUnit_le_append b us
  | remove u =>
    rw [Body.perform]
    split
    · next s c hc =>
      obtain ⟨p, -, -, rfl⟩ := exists_of_remove hc
      exact Nat.le_of_eq (nextUnit_removeAt b p).symm
    · exact Nat.le_refl _
  | replace u stmts =>
    rw [Body.perform] at hlast ⊢
    split at hlast
    · next fresh c hc =>
      obtain ⟨-, p, hr⟩ := replace_ok hc
      rw [hr.nextUnit_eq (h.hasRoom_replaced hr hlast)]
      exact Nat.le_add_right _ _
    · exact Nat.le_refl _
  | declareLocal l => exact Nat.le_of_eq (b.nextUnit_declareLocal l).symm
  | _ => exact Nat.le_refl _

theorem Numbered.le_of_mem_perform (h : b.Numbered) (hlast : (b.perform e).2.SparesLast)
    (hu : u ∈ (b.perform e).1) : b.nextUnit ≤ u.index := by
  cases e with
  | push s =>
    obtain rfl := List.mem_singleton.1 hu
    exact Nat.le_of_eq (wrapId_of_lt h.room).symm
  | replace v stmts =>
    rw [Body.perform] at hu hlast
    split at hu
    · next fresh c hc =>
      obtain ⟨rfl, p, hr⟩ := replace_ok hc
      simp only [hc] at hlast
      obtain ⟨i, hi, rfl⟩ := List.mem_map.1 hu
      have hi := Nat.le_of_lt (List.mem_range.1 hi)
      rw [fresh_eq ((h.hasRoom_replaced hr hlast).mono hi)]
      exact Nat.le_add_right _ i
    · cases hu
  | remove v =>
    rw [Body.perform] at hu
    split at hu <;> cases hu
  | _ => cases hu

theorem built_concat (run : List Edit) (e : Edit) :
    built (run ++ [e]) = ((built run).perform e).2 := by
  simp [built]

theorem nodup_locals_built (run : List Edit) : ((built run).locals.map (·.id)).Nodup := by
  induction run using List.reverseRecOn with
  | nil => exact List.nodup_nil
  | append_singleton run e ih =>
    rw [built_concat]
    exact nodup_locals_perform ih e

/-- At no point of the run has a unit the last of all identities. -/
def RunSparesLast (run : List Edit) : Prop := ∀ i, (built (run.take i)).SparesLast

theorem built_take_succ {run : List Edit} {j : Nat} (he : run[j]? = some e) :
    built (run.take (j + 1)) = ((built (run.take j)).perform e).2 := by
  rw [List.take_add_one, he, Option.toList_some, built_concat]

theorem built_take_cases (run : List Edit) (j : Nat) :
    built (run.take (j + 1)) = built (run.take j) ∨ ∃ e, run[j]? = some e ∧
      built (run.take (j + 1)) = ((built (run.take j)).perform e).2 := by
  cases he : run[j]? with
  | none =>
    have hend := List.getElem?_eq_none_iff.1 he
    rw [List.take_of_length_le hend, List.take_of_length_le (Nat.le_succ_of_le hend)]
    exact .inl rfl
  | some e => exact .inr ⟨e, rfl, built_take_succ he⟩

theorem RunSparesLast.perform {run : List Edit} (h : RunSparesLast run) {j : Nat}
    (he : run[j]? = some e) : ((built (run.take j)).perform e).2.SparesLast :=
  built_take_succ he ▸ h (j + 1)

theorem RunSparesLast.numbered {run : List Edit} (h : RunSparesLast run) (j : Nat) :
    (built (run.take j)).Numbered := by
  induction j with
  | zero => exact numbered_empty
  | succ j ih =>
    obtain hend | ⟨e, he, hstep⟩ := built_take_cases run j
    · rwa [hend]
    · rw [hstep]
      exact ih.perform e (h.perform he)

theorem RunSparesLast.nextUnit_mono {run : List Edit} (h : RunSparesLast run) {i j : Nat}
    (hij : i ≤ j) : (built (run.take i)).nextUnit ≤ (built (run.take j)).nextUnit := by
  induction hij with
  | refl => exact Nat.le_refl _
  | @step j _ ih =>
    obtain hend | ⟨e, he, hstep⟩ := built_take_cases run j
    · rwa [hend]
    · rw [hstep]
      exact Nat.le_trans ih ((h.numbered j).nextUnit_le_perform e (h.perform he))

def regrowth : List Edit :=
  [.push .nop, .push (.ret none), .replace ⟨0⟩ [.nop, .goto ⟨0⟩], .remove ⟨2⟩,
    .append [⟨⟨9⟩, .ret none⟩, ⟨⟨1⟩, .nop⟩], .push .nop]

end ThreeAddress.Body
