import ThreeAddress.Proofs.Flow.Resolution
import ThreeAddress.Proofs.Pass.Chains

namespace ThreeAddress

/-- A unit of the skeleton. Its statement stands without its targets, which are resolved beside it,
as are the next unit and the handlers around it. -/
structure Joint where
  id : UnitId
  stmt : Stmt
  targets : List Outcome
  next : Outcome
  catches : List (Outcome × Ty)
deriving DecidableEq, Repr

structure Skeleton where
  entry : Outcome
  joints : List Joint
deriving DecidableEq, Repr

namespace Body

variable {b c : Body} {u v z : UnitId} {x : CodeUnit} {p : Nat} {f : UnitId → UnitId}

def catches (b : Body) (u : UnitId) : List (Outcome × Ty) :=
  (b.clauses u).map fun h ↦ (b.resolution h.1, h.2)

def joint (b : Body) (x : CodeUnit) : Joint where
  id := x.id
  stmt := x.stmt.mapTargets fun _ ↦ default
  targets := x.stmt.targets.map b.resolution
  next := b.outcome (b.successor? x.id)
  catches := b.catches x.id

def active (b : Body) : List CodeUnit := b.units.filter fun x ↦ !x.stmt.isInert

def skeleton (b : Body) : Skeleton where
  entry := b.outcome b.first?
  joints := b.active.map b.joint

theorem mem_active : x ∈ b.active ↔ x ∈ b.units ∧ x.stmt.isInert = false := by
  simp [active]

/-- The skeleton stays where the active units stay but for their targets, and control comes to the
same from each of their exits. -/
theorem skeleton_eq (hu : c.active = b.active.map (·.mapStmt (·.mapTargets f)))
    (hfirst : c.outcome c.first? = b.outcome b.first?)
    (htargets : ∀ t, c.resolution (f t) = b.resolution t)
    (hnext : ∀ x ∈ b.active, c.outcome (c.successor? x.id) = b.outcome (b.successor? x.id))
    (hcatches : ∀ x ∈ b.active, c.catches x.id = b.catches x.id) : c.skeleton = b.skeleton := by
  have hjoints : c.active.map c.joint = b.active.map b.joint := by
    rw [hu, List.map_map]
    refine List.map_congr_left fun x hx ↦ ?_
    have hresolve : c.resolution ∘ f = b.resolution := funext htargets
    rw [Function.comp_apply, joint, joint, CodeUnit.stmt_mapStmt, Stmt.mapTargets_mapTargets,
      Stmt.targets_mapTargets, List.map_map, hresolve]
    exact congrArg₂ (Joint.mk x.id _ _) (hnext x hx) (hcatches x hx)
  rw [skeleton, skeleton, hfirst, hjoints]

theorem resolution_dropEmptyTraps (b : Body) (u : UnitId) :
    b.dropEmptyTraps.resolution u = b.resolution u :=
  resolution_congr (b := b) (c := b.dropEmptyTraps) (fun _ ↦ rfl) (fun _ ↦ rfl) u

theorem outcome_dropEmptyTraps (b : Body) (o : Option UnitId) :
    b.dropEmptyTraps.outcome o = b.outcome o := by
  cases o with
  | none => rfl
  | some u => exact b.resolution_dropEmptyTraps u

theorem skeleton_dropEmptyTraps (b : Body) : b.dropEmptyTraps.skeleton = b.skeleton := by
  apply skeleton_eq (f := fun u ↦ u)
  · simp [active, dropEmptyTraps, CodeUnit.mapStmt]
  · exact b.outcome_dropEmptyTraps b.first?
  · exact b.resolution_dropEmptyTraps
  · exact fun x _ ↦ b.outcome_dropEmptyTraps (b.successor? x.id)
  · intro x _
    simp only [catches, clauses_dropEmptyTraps, resolution_dropEmptyTraps]

theorem Idle.isInert (h : Idle (· = .nop) b p x) : x.stmt.isInert = true := by
  cases h with
  | skipped _ hs => rw [hs, Stmt.isInert]
  | goto _ _ hs => rw [hs, Stmt.isInert]

theorem active_removeAt (hi : Idle (· = .nop) b p x) :
    (b.removeAt p).active = b.active.map (·.mapStmt (·.mapTargets (b.heir p))) := by
  have hunits : b.units = b.units.take p ++ x :: b.units.drop (p + 1) := by
    obtain ⟨hp, he⟩ := List.getElem?_eq_some_iff.1 hi.unit
    rw [← he, List.getElem_cons_drop, List.take_append_drop]
  have hrest : (b.units.eraseIdx p).filter (fun v ↦ !v.stmt.isInert) = b.active := by
    rw [active, hunits, List.filter_append, List.filter_cons_of_neg (by simp [hi.isInert]),
      ← List.filter_append, ← hunits, List.eraseIdx_eq_take_drop_succ]
  rw [← hrest, active, removeAt_eq, List.filter_map]
  refine congrArg _ (List.filter_congr fun v _ ↦ ?_)
  simp

section Removal

variable (hn : b.ids.Nodup) (hi : Idle (· = .nop) b p x)

include hn hi

theorem resolution_heir (t : UnitId) : (b.removeAt p).resolution (b.heir p t) = b.resolution t := by
  rw [resolution_removeAt hn hi fun hlt ↦ heir_ne hn (id_of_unit hi.unit) hlt t,
    resolution_eq_of_path (hi.path_heir hn t)]

theorem outcome_removeAt {o o' : Option UnitId} (h : o' = o.map (b.heir p) ∨
    (¬ p + 1 < b.size ∧ o = some x.id ∧ o' = none)) : (b.removeAt p).outcome o' = b.outcome o := by
  obtain rfl | ⟨hlast, rfl, rfl⟩ := h
  · cases o with
    | none => rfl
    | some t => exact resolution_heir hn hi t
  · exact (hi.resolution_last hn hlast).symm

theorem first?_removeAt_cases : (b.removeAt p).first? = b.first?.map (b.heir p) ∨
    (¬ p + 1 < b.size ∧ b.first? = some x.id ∧ (b.removeAt p).first? = none) := by
  have hid : b.ids[p]? = some x.id := id_of_unit hi.unit
  by_cases hlt : p + 1 < b.size
  · exact .inl (first?_removeAt hn hi.unit hlt)
  · rw [first?_eq, first?_eq, ids_removeAt]
    cases p with
    | zero =>
      refine .inr ⟨hlt, hid, ?_⟩
      rw [List.getElem?_eraseIdx_of_ge (Nat.le_refl 0), List.getElem?_eq_none_iff, length_ids]
      exact Nat.le_of_not_lt hlt
    | succ p =>
      left
      obtain ⟨y, hy⟩ := exists_id_of_lt (b := b) (Nat.lt_of_le_of_lt (Nat.zero_le _)
        (lt_size_of_getElem? hid))
      have hne : y ≠ x.id := by
        rintro rfl
        exact absurd (index_unique hn hy hid) (by omega)
      rw [List.getElem?_eraseIdx_of_lt (Nat.succ_pos p), hy, Option.map_some, heir_of_ne hid hne]

end Removal

theorem skeleton_removeAt (hb : b.Coherent) (hi : Idle (· = .nop) b p x)
    (hr : b.isRemovable x.id = true) : (b.removeAt p).skeleton = b.skeleton := by
  have hid : b.ids[p]? = some x.id := id_of_unit hi.unit
  have hne {v : CodeUnit} (hv : v ∈ b.active) : v.id ≠ x.id := by
    intro he
    have hactive := (mem_active.1 hv).2
    rw [eq_of_id_eq hb.nodup (mem_active.1 hv).1 (List.mem_of_getElem? hi.unit) he, hi.isInert]
      at hactive
    cases hactive
  apply skeleton_eq (active_removeAt hi)
  · exact outcome_removeAt hb.nodup hi (first?_removeAt_cases hb.nodup hi)
  · exact resolution_heir hb.nodup hi
  · intro v hv
    exact outcome_removeAt hb.nodup hi (successor?_removeAt_cases hb.nodup hi.unit (hne hv))
  · intro v hv
    rw [catches, clauses, around_removeAt hb hid hr (hne hv), catches, clauses, List.map_map,
      List.map_map, List.map_map]
    refine List.map_congr_left fun t _ ↦ ?_
    exact congrArg (·, t.exception) (resolution_heir hb.nodup hi t.handler)

theorem path_followGotos (hn : b.ids.Nodup) (fresh : List UnitId) (u : UnitId) :
    Relation.ReflTransGen b.Glides u (b.followGotos fresh u) := by
  fun_induction followGotos b fresh u with
  | case1 fresh u target hs _ ih => exact .head (((gotoStep_iff hn).2 hs).glides hn) ih
  | case2 => exact .refl
  | case3 => exact .refl

theorem resolution_destination (hn : b.ids.Nodup) (u : UnitId) :
    b.resolution (b.destination u) = b.resolution u :=
  (resolution_eq_of_path (path_followGotos hn b.ids u)).symm

end Body

namespace JumpThreading

variable {b : Body} {u : UnitId}

theorem stmt?_thread (b : Body) (u : UnitId) :
    (thread b).body.stmt? u = (b.stmt? u).map (·.mapTargets b.destination) := by
  have hid : ((·.id == u) ∘ fun v : CodeUnit ↦ v.mapStmt (·.mapTargets b.destination)) =
      fun v ↦ v.id == u := rfl
  rw [thread, Revision.withNotes, Body.mapStmts, Body.stmt?, List.find?_map, hid, Body.stmt?,
    Option.map_map, Option.map_map]
  rfl

theorem ids_thread (b : Body) : (thread b).body.ids = b.ids := Body.ids_mapStmts b _

theorem halt_thread (b : Body) (u : UnitId) : (thread b).body.halt u = b.halt u := by
  rw [Body.halt, Body.halt, stmt?_thread]
  cases b.stmt? u with
  | none => rfl
  | some s => cases s <;> rfl

/-- A goto that was threaded goes where control came to over the goto of before. -/
theorem glide?_thread (hn : b.ids.Nodup) (u : UnitId) : (thread b).body.glide? u = b.glide? u ∨
    ∃ t, b.Glides u t ∧ (thread b).body.glide? u = some (b.destination t) := by
  have hnext := Body.successor?_congr hn (ids_thread b) (u := u)
  simp only [Body.Glides, Body.glide?, stmt?_thread, hnext]
  cases b.stmt? u with
  | none => exact .inl rfl
  | some s =>
    cases s with
    | goto t => exact .inr ⟨t, rfl, rfl⟩
    | _ => exact .inl rfl

theorem resolution_thread (hn : b.ids.Nodup) (u : UnitId) :
    (thread b).body.resolution u = b.resolution u := by
  apply Body.resolution_eq_of_steps fun _ ↦ True
  · intro u z _ hstep
    refine ⟨trivial, ?_⟩
    obtain he | ⟨t, ht, he⟩ := glide?_thread hn u
    · exact .single (he.symm.trans hstep)
    · obtain rfl : b.destination t = z := Option.some.inj (he.symm.trans hstep)
      exact .head' ht (Body.path_followGotos hn b.ids t)
  · intro u _ hstop
    obtain he | ⟨t, -, he⟩ := glide?_thread hn u
    · rw [Body.resolution_of_glide? (he.symm.trans hstop), halt_thread]
    · cases he.symm.trans hstop
  · trivial

theorem outcome_thread (hn : b.ids.Nodup) (o : Option UnitId) :
    (thread b).body.outcome o = b.outcome o := by
  cases o with
  | none => rfl
  | some u => exact resolution_thread hn u

theorem skeleton_thread (hn : b.ids.Nodup) : (thread b).body.skeleton = b.skeleton := by
  apply Body.skeleton_eq (f := b.destination)
  · rw [Body.active, thread, Revision.withNotes, Body.mapStmts, List.filter_map, Body.active]
    refine congrArg _ (List.filter_congr fun v _ ↦ ?_)
    simp
  · rw [Body.first?_eq, Body.first?_eq, ids_thread, outcome_thread hn]
  · intro t
    rw [resolution_thread hn, Body.resolution_destination hn]
  · intro v _
    rw [Body.successor?_congr hn (ids_thread b), outcome_thread hn]
  · intro v _
    rw [Body.catches, Body.clauses, Body.around_congr (ids_thread b) rfl, Body.catches]
    exact List.map_congr_left fun h _ ↦ congrArg (·, h.2) (resolution_thread hn h.1)

theorem skeleton_revise (hb : b.Valid) : (revise b).body.skeleton = b.skeleton := by
  have hswept : (swept b).body.Coherent ∧ (swept b).body.skeleton = b.skeleton := by
    apply swept_keeps (P := fun c ↦ c.Coherent ∧ c.skeleton = b.skeleton)
    · exact ⟨coherent_thread hb, skeleton_thread hb.nodup⟩
    · intro c p hc hg
      obtain ⟨x, hx⟩ : ∃ x, Body.Idle (· = .nop) c p x := Body.idle_of_isGotoNext hg
      have hr := Body.isRemovable_of_lt hc.1.nodup hx.unit (Body.lt_size_of_isGotoNext hg)
      refine ⟨hc.1.removeAt (Body.id_of_unit hx.unit) hr, ?_⟩
      exact (Body.skeleton_removeAt hc.1 hx hr).trans hc.2
  rw [revise_eq]
  exact (swept b).body.skeleton_dropEmptyTraps.trans hswept.2

end JumpThreading

namespace Nops

variable {b : Body}

theorem skeleton_revise (hb : b.Valid) : (revise b).body.skeleton = b.skeleton := by
  have hswept : (swept b).body.Coherent ∧ (swept b).body.skeleton = b.skeleton := by
    refine Revision.removeFirst_keeps (P := fun c ↦ c.Coherent ∧ c.skeleton = b.skeleton) ?_ _
      ⟨hb.coherent, rfl⟩
    intro c p hc hidle _
    obtain ⟨x, hx⟩ := idle_of_isIdle hidle
    obtain ⟨y, hy, -, hr⟩ := isInert_of_isIdle hidle
    obtain rfl : y = x := Option.some.inj (hy.symm.trans hx.unit)
    exact ⟨hc.1.removeAt (Body.id_of_unit hy) hr, (Body.skeleton_removeAt hc.1 hx hr).trans hc.2⟩
  rw [revise_eq]
  exact (swept b).body.skeleton_dropEmptyTraps.trans hswept.2

end Nops

namespace Pass

/-- Jump threading and the removal of statements without effect leave a valid body with the units
that are neither gotos nor empty, in order. From each exit of such a unit, and from the entry,
control comes to what it came to before. -/
theorem skeleton_kept (m : Signature) {b : Body} (hb : b.validate = .ok ()) :
    ∀ pass ∈ [jumpThreading, nops], ∃ c notes changed,
      pass.run m b = ⟨c, notes, .ok changed⟩ ∧ c.validate = .ok () ∧ c.skeleton = b.skeleton := by
  have hv := Body.validate_eq_ok.1 hb
  have hthreading := Body.validate_eq_ok.2 (JumpThreading.valid_revise hv)
  have hnops := Body.validate_eq_ok.2 (Nops.valid_revise hv)
  intro pass hpass
  obtain rfl | rfl : pass = jumpThreading ∨ pass = nops := by simpa using hpass
  · exact ⟨_, _, _, rfl, hthreading, JumpThreading.skeleton_revise hv⟩
  · exact ⟨_, _, _, rfl, hnops, Nops.skeleton_revise hv⟩

/-- A call whose handler is an empty unit, a branch into a cycle of two gotos, and gotos and empty
units on the way from the entry. -/
def detours : Body where
  locals := [⟨⟨0⟩, "n", .int⟩]
  units :=
    [⟨⟨0⟩, .goto ⟨2⟩⟩,
      ⟨⟨1⟩, .ret none⟩,
      ⟨⟨2⟩, .nop⟩,
      ⟨⟨3⟩, .branch ⟨.eq, .var ⟨0⟩, .const (.int 0)⟩ ⟨5⟩⟩,
      ⟨⟨4⟩, .invoke ⟨.static, ⟨"Demo", "work", [], .void⟩, none, []⟩⟩,
      ⟨⟨5⟩, .goto ⟨6⟩⟩,
      ⟨⟨6⟩, .goto ⟨5⟩⟩,
      ⟨⟨7⟩, .nop⟩,
      ⟨⟨8⟩, .goto ⟨1⟩⟩]
  traps := [⟨⟨4⟩, ⟨6⟩, ⟨7⟩, .object "E"⟩]
  nextUnit := 9

/-- Both passes remove units of the cycle or on the way, and the branch still ends up in the cycle,
the exception at the return. -/
theorem skeleton_kept_detours : detours.validate = .ok () ∧
    (jumpThreading.run waiting detours).body.ids = [⟨0⟩, ⟨1⟩, ⟨2⟩, ⟨3⟩, ⟨4⟩, ⟨6⟩, ⟨7⟩, ⟨8⟩] ∧
    (nops.run waiting detours).body.ids = [⟨0⟩, ⟨1⟩, ⟨3⟩, ⟨4⟩, ⟨6⟩, ⟨8⟩] ∧
    ∀ pass ∈ [jumpThreading, nops],
      (pass.run waiting detours).body.skeleton.entry = .unit ⟨3⟩ ∧
      (pass.run waiting detours).body.skeleton.joints.map (fun j ↦ (j.id, j.targets, j.next)) =
        [(⟨1⟩, [], .unit ⟨3⟩), (⟨3⟩, [.loop], .unit ⟨4⟩), (⟨4⟩, [], .loop)] ∧
      (pass.run waiting detours).body.skeleton.joints.map (·.catches) =
        [[], [], [(.unit ⟨1⟩, .object "E")]] := by
  have hb : detours.validate = .ok () := by decide +kernel
  refine ⟨hb, by cbv, by cbv, fun pass hpass ↦ ?_⟩
  obtain ⟨c, notes, changed, hrun, -, hskeleton⟩ := skeleton_kept waiting hb pass hpass
  rw [hrun, hskeleton]
  exact ⟨by decide +kernel, by decide +kernel, by decide +kernel⟩

end Pass

end ThreeAddress
