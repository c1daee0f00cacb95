import Mathlib.Data.List.Basic
import ThreeAddress.Proofs.Body.Coherence
import ThreeAddress.Proofs.Slots

namespace ThreeAddress

namespace Trap

@[simp] theorem mapRefs_id (t : Trap) : t.mapRefs (fun u ↦ u) = t := rfl

@[simp] theorem refs_mapRefs (f : UnitId → UnitId) (t : Trap) :
    (t.mapRefs f).refs = t.refs.map f := rfl

end Trap

namespace CodeUnit

@[simp] theorem stmt_mapStmt (f : Stmt → Stmt) (u : CodeUnit) : (u.mapStmt f).stmt = f u.stmt := rfl

end CodeUnit

namespace Body

variable {b c : Body} {u v w : UnitId} {p q : Nat} {s : Stmt}

theorem stmtAt?_mapStmts (b : Body) (f : Stmt → Stmt) (p : Nat) :
    (b.mapStmts f).stmtAt? p = (b.stmtAt? p).map f := by
  simp [stmtAt?, mapStmts, Function.comp_def]

theorem Coherent.restate (h : b.Coherent) (hi : c.ids = b.ids) (ht : c.traps = b.traps)
    (targets : ∀ w ∈ c.units, ∀ t ∈ w.stmt.targets, t ∈ b.ids)
    (declared : ∀ w ∈ c.units, ∀ x ∈ w.stmt.locals, x ∈ c.locals.map (·.id)) : c.Coherent where
  nodup := hi ▸ h.nodup
  targets := hi ▸ targets
  declared := declared
  handlers := by
    rw [hi, ht]
    exact h.handlers
  spans := by
    rw [hi, ht]
    exact h.spans

theorem Valid.restate (h : b.Valid) (hi : c.ids = b.ids) (ht : c.traps = b.traps)
    (targets : ∀ w ∈ c.units, ∀ t ∈ w.stmt.targets, t ∈ b.ids)
    (declared : ∀ w ∈ c.units, ∀ x ∈ w.stmt.locals, x ∈ c.locals.map (·.id)) : c.Valid := by
  refine (h.coherent.restate hi ht targets declared).valid ?_ ?_
  · intro hc
    have hl := congrArg List.length hi
    simp only [ids, List.length_map, hc, List.length_nil] at hl
    exact h.nonempty (List.length_eq_zero_iff.1 hl.symm)
  · rw [hi, ht]
    exact fun t ht ↦ h.spans ht

theorem Bounded.mono (h : b.Bounded) (hi : c.ids ⊆ b.ids) (hn : b.nextUnit ≤ c.nextUnit) :
    c.Bounded :=
  fun u hu ↦ Nat.lt_of_lt_of_le (h u (hi hu)) hn

/-- No identity of `c` is fresh to `b`. -/
structure NoFresh (b c : Body) : Prop where
  ids : c.ids ⊆ b.ids
  nextUnit : c.nextUnit = b.nextUnit

theorem NoFresh.of_units (hu : c.units = b.units) (hn : c.nextUnit = b.nextUnit) : NoFresh b c where
  ids := by
    rw [Body.ids, Body.ids, hu]
    exact List.Subset.refl _
  nextUnit := hn

theorem NoFresh.trans {d : Body} (h : NoFresh b c) (h' : NoFresh c d) : NoFresh b d :=
  ⟨List.Subset.trans h'.ids h.ids, h'.nextUnit.trans h.nextUnit⟩

theorem NoFresh.bounded (h : NoFresh b c) (hb : b.Bounded) : c.Bounded :=
  hb.mono h.ids (Nat.le_of_eq h.nextUnit.symm)

theorem noFresh_mapStmts (b : Body) (f : Stmt → Stmt) : b.NoFresh (b.mapStmts f) where
  ids := by
    rw [ids_mapStmts]
    exact List.Subset.refl _
  nextUnit := rfl

theorem bounded_empty : Bounded {} := by
  intro u hu
  simp [ids] at hu

theorem fresh_eq {i : Nat} (h : b.HasRoom i) : b.fresh i = ⟨b.nextUnit + i⟩ :=
  congrArg UnitId.mk (wrapId_of_lt h)

theorem HasRoom.of_fresh {k : Nat} (h : b.HasRoom 0)
    (hlast : ∀ i < k, (b.fresh i).index + 1 < idCount) : b.HasRoom k := by
  induction k with
  | zero => exact h
  | succ k ih =>
    have hroom := ih fun i hi ↦ hlast i (Nat.lt_succ_of_lt hi)
    have hlt := hlast k (Nat.lt_succ_self k)
    rwa [fresh_eq hroom] at hlt

theorem ids_push (b : Body) (s : Stmt) : (b.push s).2.ids = b.ids ++ [b.fresh 0] := by
  simp [Body.push, ids]

theorem nextUnit_push (h : b.HasRoom 1) (s : Stmt) : (b.push s).2.nextUnit = b.nextUnit + 1 :=
  wrapId_of_lt h

theorem Bounded.push (h : b.Bounded) (hroom : b.HasRoom 1) (s : Stmt) : (b.push s).2.Bounded := by
  intro u hu
  rw [nextUnit_push hroom]
  rw [ids_push, List.mem_append, List.mem_singleton, fresh_eq (hroom.mono (Nat.zero_le 1))] at hu
  obtain hu | rfl := hu
  · exact Nat.lt_succ_of_lt (h u hu)
  · exact Nat.lt_succ_self b.nextUnit

theorem Bounded.fresh_not_mem (h : b.Bounded) {i : Nat} (hroom : b.HasRoom i) :
    b.fresh i ∉ b.ids := by
  rw [fresh_eq hroom]
  exact fun hm ↦ Nat.not_lt_of_le (Nat.le_add_right _ i) (h _ hm)

theorem nodup_push (hn : b.ids.Nodup) (hb : b.Bounded) (hroom : b.HasRoom 0) (s : Stmt) :
    (b.push s).2.ids.Nodup := by
  rw [ids_push, ← List.concat_eq_append]
  exact hn.concat (hb.fresh_not_mem hroom)

theorem Coherent.push (h : b.Coherent) (hb : b.Bounded) (hroom : b.HasRoom 0)
    (ht : ∀ t ∈ s.targets, t ∈ b.ids) (hl : ∀ x ∈ s.locals, x ∈ b.locals.map (·.id)) :
    (b.push s).2.Coherent := by
  have grown {u : UnitId} (hu : u ∈ b.ids) : u ∈ (b.push s).2.ids := by
    rw [ids_push]
    exact List.mem_append_left _ hu
  have grown? {i : Nat} {u : UnitId} (hu : b.ids[i]? = some u) : (b.push s).2.ids[i]? = some u := by
    rw [ids_push, List.getElem?_append_left (List.getElem?_eq_some_iff.1 hu).1, hu]
  refine ⟨nodup_push h.nodup hb hroom s, ?_, ?_, fun t hm ↦ grown (h.handlers t hm), fun t hm ↦ ?_⟩
  · intro w hw t hm
    obtain hw | hw := List.mem_append.1 hw
    · exact grown (h.targets w hw t hm)
    · rw [List.mem_singleton.1 hw] at hm
      exact grown (ht t hm)
  · intro w hw x hx
    obtain hw | hw := List.mem_append.1 hw
    · exact h.declared w hw x hx
    · rw [List.mem_singleton.1 hw] at hx
      exact hl x hx
  · obtain ⟨i, j, hi, hj, hle⟩ := h.spans t hm
    exact ⟨i, j, grown? hi, grown? hj, hle⟩

@[simp] theorem units_declareLocal (b : Body) (l : Local) : (b.declareLocal l).units = b.units := by
  unfold declareLocal
  split <;> rfl

@[simp] theorem traps_declareLocal (b : Body) (l : Local) : (b.declareLocal l).traps = b.traps := by
  unfold declareLocal
  split <;> rfl

@[simp] theorem nextUnit_declareLocal (b : Body) (l : Local) :
    (b.declareLocal l).nextUnit = b.nextUnit := by
  unfold declareLocal
  split <;> rfl

@[simp] theorem ids_declareLocal (b : Body) (l : Local) : (b.declareLocal l).ids = b.ids := by
  simp [ids]

theorem declared_declareLocal (b : Body) (l : Local) {x : LocalId}
    (h : x ∈ b.locals.map (·.id) ∨ x = l.id) : x ∈ (b.declareLocal l).locals.map (·.id) := by
  unfold declareLocal
  split
  · next hl => exact h.elim id fun hx ↦ hx ▸ declares_iff.1 hl
  · simpa using h

theorem Coherent.declareLocal (h : b.Coherent) (l : Local) : (b.declareLocal l).Coherent := by
  apply h.restate (b.ids_declareLocal l) (b.traps_declareLocal l)
  · rw [units_declareLocal]
    exact h.targets
  · rw [units_declareLocal]
    exact fun w hw x hx ↦ b.declared_declareLocal l (.inl (h.declared w hw x hx))

theorem Bounded.declareLocal (h : b.Bounded) (l : Local) : (b.declareLocal l).Bounded :=
  h.mono (by simp) (Nat.le_of_eq (b.nextUnit_declareLocal l).symm)

/-- Identities of locals stay distinct, since one that is taken is not declared again. -/
theorem nodup_declareLocal (h : (b.locals.map (·.id)).Nodup) (l : Local) :
    ((b.declareLocal l).locals.map (·.id)).Nodup := by
  unfold declareLocal
  split
  · exact h
  · next hl =>
    have hnew : l.id ∉ b.locals.map (·.id) := fun hm ↦ hl (declares_iff.2 hm)
    simpa using h.concat hnew

theorem ids_subset_append (b : Body) (us : List CodeUnit) : b.ids ⊆ (b.append us).2.ids := by
  fun_induction append b us with
  | case1 | case2 => exact List.Subset.refl _
  | case3 b v us _ ih =>
    refine List.Subset.trans ?_ ih
    simp [ids]

theorem Bounded.append (h : b.Bounded) (us : List CodeUnit)
    (hlast : ∀ u ∈ (b.append us).2.ids, u.index + 1 < idCount) : (b.append us).2.Bounded := by
  fun_induction Body.append b us with
  | case1 | case2 => exact h
  | case3 b v us _ ih =>
    refine ih (fun u hu ↦ ?_) hlast
    have hv : v.id.index + 1 < idCount := hlast v.id (ids_subset_append _ us (by simp [ids]))
    rw [ids, List.map_append, List.mem_append, List.map_singleton, List.mem_singleton] at hu
    obtain hu | rfl := hu
    · exact Nat.lt_of_lt_of_le (h u hu) (Nat.le_max_left _ _)
    · rw [wrapId_of_lt hv]
      exact Nat.le_max_right b.nextUnit (v.id.index + 1)

/-- Whether or not all units could be appended, no two are left under one identity. -/
theorem nodup_append (hn : b.ids.Nodup) (us : List CodeUnit) : (b.append us).2.ids.Nodup := by
  induction us generalizing b with
  | nil => exact hn
  | cons v us ih =>
    rw [Body.append]
    split
    · exact hn
    · next hv =>
      have hv : v.id ∉ b.ids := fun h ↦ hv (hasUnit_iff.2 h)
      apply ih
      simpa [ids] using hn.concat hv

theorem locals_append (b : Body) (us : List CodeUnit) : (b.append us).2.locals = b.locals := by
  fun_induction append b us with
  | case1 | case2 => rfl
  | case3 _ _ _ _ ih => exact ih

theorem nextUnit_append_lt (h : b.nextUnit < idCount) (us : List CodeUnit) :
    (b.append us).2.nextUnit < idCount := by
  fun_induction Body.append b us with
  | case1 | case2 => exact h
  | case3 _ _ _ _ ih => exact ih (Nat.max_lt.2 ⟨h, wrapId_lt _⟩)

theorem nextUnit_le_append (b : Body) (us : List CodeUnit) :
    b.nextUnit ≤ (b.append us).2.nextUnit := by
  fun_induction append b us with
  | case1 | case2 => exact Nat.le_refl _
  | case3 _ _ _ _ ih => exact Nat.le_trans (Nat.le_max_left _ _) ih

theorem mem_setStmt {w : CodeUnit} (h : w ∈ (b.setStmt u s).units) :
    (w ∈ b.units ∧ w.id ≠ u) ∨ (w.id = u ∧ w.stmt = s ∧ u ∈ b.ids) := by
  obtain ⟨w', hw', rfl⟩ := List.mem_map.1 h
  by_cases he : w'.id = u
  · rw [if_pos he]
    exact .inr ⟨he, rfl, he ▸ id_mem_ids hw'⟩
  · rw [if_neg he]
    exact .inl ⟨hw', he⟩

theorem mem_setStmt_of_ne {w : CodeUnit} (h : w ∈ b.units) (hn : w.id ≠ u) :
    w ∈ (b.setStmt u s).units :=
  List.mem_map.2 ⟨w, h, if_neg hn⟩

theorem mem_setStmt_self {w : CodeUnit} (h : w ∈ b.units) :
    ⟨w.id, s⟩ ∈ (b.setStmt w.id s).units :=
  List.mem_map.2 ⟨w, h, if_pos rfl⟩

theorem forall_setStmt {P : Stmt → Prop} (hb : ∀ w ∈ b.units, P w.stmt) (hs : P s) :
    ∀ w ∈ (b.setStmt u s).units, P w.stmt := by
  intro w hw
  obtain ⟨hw, -⟩ | ⟨-, rfl, -⟩ := mem_setStmt hw
  · exact hb w hw
  · exact hs

theorem stmt?_setStmt (b : Body) (z : UnitId) (s : Stmt) : (b.setStmt z s).stmt? u =
    if u = z then (b.stmt? u).map fun _ ↦ s else b.stmt? u := by
  have hid : (fun v : CodeUnit ↦ v.id == u) ∘
      (fun v : CodeUnit ↦ if v.id = z then { v with stmt := s } else v) = (·.id == u) := by
    funext v
    by_cases h : v.id = z <;> simp [h]
  rw [stmt?, setStmt, List.find?_map, hid, stmt?]
  cases hv : b.units.find? (·.id == u) with
  | none => simp
  | some v =>
    have he : v.id = u := by simpa using List.find?_some hv
    by_cases h : u = z <;> simp [he, h]

theorem setStmt_eq_self (hn : b.ids.Nodup) (hs : b.stmt? u = some s) : b.setStmt u s = b := by
  have hunits : b.units.map (fun v ↦ if v.id = u then { v with stmt := s } else v) = b.units := by
    rw [map_eq_self_iff]
    intro v hv
    by_cases he : v.id = u
    · rw [if_pos he, eq_of_id_eq hn hv ((stmt?_eq_some hn).1 hs) he]
    · rw [if_neg he]
  rw [setStmt, hunits]

theorem Coherent.setStmt (h : b.Coherent) (ht : ∀ t ∈ s.targets, t ∈ b.ids)
    (hl : ∀ x ∈ s.locals, x ∈ b.locals.map (·.id)) : (b.setStmt u s).Coherent :=
  h.restate (ids_setStmt b u s) rfl
    (forall_setStmt (P := fun s ↦ ∀ t ∈ s.targets, t ∈ b.ids) h.targets ht)
    (forall_setStmt (P := fun s ↦ ∀ x ∈ s.locals, x ∈ b.locals.map (·.id)) h.declared hl)

theorem Valid.setStmt (h : b.Valid) (ht : ∀ t ∈ s.targets, t ∈ b.ids)
    (hl : ∀ x ∈ s.locals, x ∈ b.locals.map (·.id)) : (b.setStmt u s).Valid :=
  h.restate (ids_setStmt b u s) rfl
    (forall_setStmt (P := fun s ↦ ∀ t ∈ s.targets, t ∈ b.ids) h.targets ht)
    (forall_setStmt (P := fun s ↦ ∀ x ∈ s.locals, x ∈ b.locals.map (·.id)) h.declared hl)

@[simp] theorem ids_modifyAt (b : Body) (p : Nat) (f : Stmt → Stmt) :
    (b.modifyAt p f).ids = b.ids := by
  refine List.ext_getElem? fun q ↦ ?_
  rw [getElem?_ids, getElem?_ids, modifyAt, List.getElem?_modify]
  cases b.units[q]? with
  | none => rfl
  | some v => by_cases hpq : p = q <;> simp [hpq]

@[simp] theorem ids_modifyStmt (b : Body) (u : UnitId) (f : Stmt → Stmt) :
    (b.modifyStmt u f).ids = b.ids := by
  unfold modifyStmt
  split <;> simp

theorem modifyStmt_eq_setStmt (hn : b.ids.Nodup) (hs : b.stmt? u = some s) (f : Stmt → Stmt) :
    b.modifyStmt u f = b.setStmt u (f s) := by
  obtain ⟨p, hp⟩ := List.getElem?_of_mem (mem_ids_of_stmt? hs)
  have hunits : b.units.modify p (·.mapStmt f) =
      b.units.map fun v ↦ if v.id = u then { v with stmt := f s } else v := by
    refine List.ext_getElem? fun q ↦ ?_
    rw [List.getElem?_modify, List.getElem?_map]
    cases hv : b.units[q]? with
    | none => rfl
    | some v =>
      have hq := id_of_unit hv
      by_cases hvu : v.id = u
      · obtain rfl := index_unique hn hp (hvu ▸ hq)
        have hstmt : v.stmt = s := by
          rw [stmt?_of_id hn hp, stmtAt?_of_unit hv] at hs
          exact Option.some.inj hs
        simp [hvu, CodeUnit.mapStmt, hstmt]
      · have hpq : p ≠ q := by
          rintro rfl
          exact hvu (Option.some.inj (hq.symm.trans hp))
        simp [hvu, hpq]
  rw [modifyStmt, (position?_eq_some hn).2 hp]
  exact congrArg (fun us ↦ { b with units := us }) hunits

/-- Where a reference goes when the unit at a position is removed: what named that unit names the
one after it. -/
def heir (b : Body) (p : Nat) : UnitId → UnitId :=
  match b.units[p]?, b.units[p + 1]? with
  | some u, some next => rename u.id next.id
  | _, _ => fun t ↦ t

/-- The position, after the removal of position `p`, of what was at `q` or took its place. -/
def slide (p q : Nat) : Nat := if q ≤ p then q else q - 1

theorem slide_mono {a z : Nat} (h : a ≤ z) : slide p a ≤ slide p z := by
  unfold slide
  split <;> split <;> omega

theorem slide_strict {a z : Nat} (h : a < z) (ha : a ≠ p) : slide p a < slide p z := by
  unfold slide
  split <;> split <;> omega

theorem removeAt_eq (b : Body) (p : Nat) : b.removeAt p = { b with
    units := (b.units.eraseIdx p).map (·.mapStmt (·.mapTargets (b.heir p)))
    traps := b.traps.map (·.mapRefs (b.heir p)) } := by
  cases hu : b.units[p]? with
  | none => simp [removeAt, heir, hu, eraseAt, CodeUnit.mapStmt]
  | some u =>
    cases hn : b.units[p + 1]? with
    | none => simp [removeAt, heir, hu, hn, eraseAt, CodeUnit.mapStmt]
    | some next =>
      simp [removeAt, heir, hu, hn, redirect, eraseAt, List.eraseIdx_eq_take_drop_succ,
        List.map_take, List.map_drop]

theorem removeAt_last (h : ¬ p + 1 < b.size) : b.removeAt p = b.eraseAt p := by
  have hnone : b.units[p + 1]? = none := List.getElem?_eq_none (Nat.le_of_not_lt h)
  rw [removeAt, hnone]
  cases b.units[p]? <;> rfl

@[simp] theorem locals_removeAt (b : Body) (p : Nat) : (b.removeAt p).locals = b.locals := by
  rw [removeAt_eq]

@[simp] theorem nextUnit_removeAt (b : Body) (p : Nat) : (b.removeAt p).nextUnit = b.nextUnit := by
  rw [removeAt_eq]

@[simp] theorem length_traps_removeAt (b : Body) (p : Nat) :
    (b.removeAt p).traps.length = b.traps.length := by
  simp [removeAt_eq]

theorem mem_removeAt {w : CodeUnit} : w ∈ (b.removeAt p).units ↔
    ∃ q v, q ≠ p ∧ b.units[q]? = some v ∧ w = v.mapStmt (·.mapTargets (b.heir p)) := by
  simp only [removeAt_eq, List.mem_map, List.mem_eraseIdx_iff_getElem?]
  constructor
  · rintro ⟨v, ⟨q, hq, hv⟩, rfl⟩
    exact ⟨q, v, hq, hv, rfl⟩
  · rintro ⟨q, v, hq, hv, rfl⟩
    exact ⟨v, ⟨q, hq, hv⟩, rfl⟩

theorem getElem?_removeAt_of_lt (h : q < p) : (b.removeAt p).units[q]? =
    b.units[q]?.map (·.mapStmt (·.mapTargets (b.heir p))) := by
  rw [removeAt_eq, List.getElem?_map, List.getElem?_eraseIdx_of_lt h]

theorem heir_of_ne (hp : b.ids[p]? = some u) (h : v ≠ u) : b.heir p v = v := by
  obtain ⟨w, hw, rfl⟩ := unit_of_id hp
  cases hn : b.units[p + 1]? with
  | none => simp [heir, hw, hn]
  | some next => simp [heir, hw, hn, rename, h]

theorem heir_self (hp : b.ids[p]? = some u) (hq : b.ids[p + 1]? = some v) : b.heir p u = v := by
  obtain ⟨w, hw, rfl⟩ := unit_of_id hp
  obtain ⟨z, hz, rfl⟩ := unit_of_id hq
  simp [heir, hw, hz, rename]

theorem heir_ne (hn : b.ids.Nodup) (hp : b.ids[p]? = some u) (hlt : p + 1 < b.size) (t : UnitId) :
    b.heir p t ≠ u := by
  obtain ⟨y, hy⟩ := exists_id_of_lt hlt
  by_cases ht : t = u
  · rw [ht, heir_self hp hy]
    exact next_ne hn hp hy
  · rwa [heir_of_ne hp ht]

/-- A reference that can move finds its place after the removal of position `p`. -/
theorem getElem?_heir (hn : b.ids.Nodup) {a z : UnitId} (hp : b.ids[p]? = some a)
    (hz : b.ids[q]? = some z) (hs : z = a → p + 1 < b.size) :
    (b.removeAt p).ids[slide p q]? = some (b.heir p z) := by
  rw [ids_removeAt]
  by_cases he : z = a
  · obtain rfl : q = p := index_unique hn (he ▸ hz) hp
    have hlt : q + 1 < b.ids.length := by simpa using hs he
    rw [slide, if_pos (Nat.le_refl q), List.getElem?_eraseIdx_of_ge (Nat.le_refl q),
      List.getElem?_eq_getElem hlt, he, heir_self hp (List.getElem?_eq_getElem hlt)]
  · have hqp : q ≠ p := fun hqp ↦ he (Option.some.inj ((hqp ▸ hz).symm.trans hp))
    rw [heir_of_ne hp he, slide]
    split
    · rw [List.getElem?_eraseIdx_of_lt (by omega), hz]
    · rw [List.getElem?_eraseIdx_of_ge (by omega), show q - 1 + 1 = q by omega, hz]

theorem nodup_removeAt (hn : b.ids.Nodup) (p : Nat) : (b.removeAt p).ids.Nodup := by
  rw [ids_removeAt]
  exact hn.eraseIdx p

theorem exists_position_of_ne (hp : b.ids[p]? = some u) (hw : w ∈ b.ids) (hne : w ≠ u) :
    ∃ k, b.ids[k]? = some w ∧ k ≠ p := by
  obtain ⟨k, hk⟩ := List.getElem?_of_mem hw
  refine ⟨k, hk, ?_⟩
  rintro rfl
  exact hne (Option.some.inj (hk.symm.trans hp))

theorem mem_ids_removeAt (hn : b.ids.Nodup) (hp : b.ids[p]? = some u) :
    w ∈ (b.removeAt p).ids ↔ w ∈ b.ids ∧ w ≠ u := by
  rw [ids_removeAt, List.mem_eraseIdx_iff_getElem?]
  constructor
  · rintro ⟨k, hkp, hk⟩
    refine ⟨List.mem_of_getElem? hk, ?_⟩
    rintro rfl
    exact hkp (index_unique hn hk hp)
  · rintro ⟨hw, hne⟩
    obtain ⟨k, hk, hkp⟩ := exists_position_of_ne hp hw hne
    exact ⟨k, hkp, hk⟩

/-- The references of a unit that can go are free to move: it has a successor or none names it. -/
theorem successor_of_referenced (hn : b.ids.Nodup) (hp : b.ids[p]? = some u)
    (hr : b.isRemovable u = true) :
    (∀ w ∈ b.units, u ∈ w.stmt.targets → p + 1 < b.size) ∧
      ∀ t ∈ b.traps, u ∈ t.refs → p + 1 < b.size := by
  obtain hs | hf := (isRemovable_iff hn hp).1 hr
  · exact ⟨fun _ _ _ ↦ hs, fun _ _ _ ↦ hs⟩
  · obtain ⟨hj, ht⟩ := isReferenced_eq_false.1 hf
    exact ⟨fun w hw hm ↦ absurd hm (hj w hw), fun t hm ht' ↦ absurd ht' (ht t hm)⟩

theorem Coherent.removeAt (h : b.Coherent) (hp : b.ids[p]? = some u)
    (hr : b.isRemovable u = true) : (b.removeAt p).Coherent := by
  obtain ⟨hj, ht⟩ := successor_of_referenced h.nodup hp hr
  have carry {z : UnitId} (hz : z ∈ b.ids) (hs : z = u → p + 1 < b.size) :
      b.heir p z ∈ (b.removeAt p).ids := by
    obtain ⟨q, hq⟩ := List.getElem?_of_mem hz
    exact List.mem_of_getElem? (getElem?_heir h.nodup hp hq hs)
  refine ⟨?_, ?_, ?_, ?_, ?_⟩
  · exact nodup_removeAt h.nodup p
  · intro w hw t hm
    obtain ⟨q, v, -, hv, rfl⟩ := mem_removeAt.1 hw
    obtain ⟨z, hz, rfl⟩ : ∃ z ∈ v.stmt.targets, b.heir p z = t := by simpa using hm
    have hv := List.mem_of_getElem? hv
    exact carry (h.targets v hv z hz) fun he ↦ hj v hv (he ▸ hz)
  · intro w hw x hx
    obtain ⟨q, v, -, hv, rfl⟩ := mem_removeAt.1 hw
    rw [locals_removeAt]
    exact h.declared v (List.mem_of_getElem? hv) x (by simpa using hx)
  · intro t' ht'
    obtain ⟨t, hm, rfl⟩ : ∃ t ∈ b.traps, t.mapRefs (b.heir p) = t' := by
      simpa [removeAt_eq] using ht'
    exact carry (h.handlers t hm) fun he ↦ ht t hm (by simp [Trap.refs, he])
  · intro t' ht'
    obtain ⟨t, hm, rfl⟩ : ∃ t ∈ b.traps, t.mapRefs (b.heir p) = t' := by
      simpa [removeAt_eq] using ht'
    obtain ⟨i, j, hi, hj, hle⟩ := h.spans t hm
    refine ⟨slide p i, slide p j, ?_, ?_, slide_mono hle⟩
    · exact getElem?_heir h.nodup hp hi fun he ↦ ht t hm (by simp [Trap.refs, he])
    · exact getElem?_heir h.nodup hp hj fun he ↦ ht t hm (by simp [Trap.refs, he])

theorem noFresh_removeAt (b : Body) (p : Nat) : b.NoFresh (b.removeAt p) where
  ids := by
    rw [ids_removeAt]
    exact List.eraseIdx_subset
  nextUnit := nextUnit_removeAt b p

theorem Valid.removeAt (h : b.Valid) (hp : b.ids[p]? = some u) (hr : b.isReferenced u = false)
    (hs : 2 ≤ b.size) : (b.removeAt p).Valid := by
  obtain ⟨-, ht⟩ := isReferenced_eq_false.1 hr
  refine (h.coherent.removeAt hp ((isRemovable_iff h.nodup hp).2 (.inr hr))).valid ?_ ?_
  · intro hnil
    have hsize := size_removeAt (lt_size_of_getElem? hp)
    have hz : (b.removeAt p).size = 0 := by simp [size, hnil]
    omega
  · intro t' ht'
    obtain ⟨t, hm, rfl⟩ : ∃ t ∈ b.traps, t.mapRefs (b.heir p) = t' := by
      simpa [removeAt_eq] using ht'
    obtain ⟨i, j, hi, hj, hlt⟩ := h.spans hm
    have hne : ∀ z ∈ t.refs, z ≠ u := by
      intro z hz he
      exact ht t hm (he ▸ hz)
    have hip : i ≠ p := by
      rintro rfl
      exact hne t.first (by simp [Trap.refs]) (Option.some.inj (hi.symm.trans hp))
    refine ⟨slide p i, slide p j, ?_, ?_, slide_strict hlt hip⟩
    · exact getElem?_heir h.nodup hp hi fun he ↦ absurd he (hne _ (by simp [Trap.refs]))
    · exact getElem?_heir h.nodup hp hj fun he ↦ absurd he (hne _ (by simp [Trap.refs]))

end Body

end ThreeAddress
