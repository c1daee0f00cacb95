import ThreeAddress.Pass.DeadAllocations
import ThreeAddress.Pass.DeadAssignments
import ThreeAddress.Proofs.Candor
import ThreeAddress.Proofs.Readiness

namespace ThreeAddress

def Stmt.IsSelfCopy (s : Stmt) : Prop := ∃ x, s = .assign (.var x) (.value (.var x))

namespace DeadAllocations

variable {b : Body}

def Allocates (v : CodeUnit) : Prop := ∃ x ty, v.stmt = .assign (.var x) (.new ty)

theorem stable_allocates : Stable Allocates := by
  intro u f
  simp [Allocates]

theorem mem_dead {a : UnitId × Nat × Ty} (h : a ∈ dead b) :
    ∃ u ∈ b.units, a.1 = u.id ∧ Allocates u := by
  obtain ⟨⟨u, p⟩, hu, h⟩ := List.mem_filterMap.1 h
  dsimp only at h
  split at h
  · obtain ⟨ty, hty, rfl⟩ := Option.map_eq_some_iff.1 h
    refine ⟨u, List.fst_mem_of_mem_zipIdx hu, rfl, ?_⟩
    unfold allocated? at hty
    split at hty
    · next x ty' hs => exact ⟨x, ty', hs⟩
    · simp at hty
  · simp at h

def dropped (b : Body) : Revision := (dead b).foldl (fun r (u, p, ty) ↦ drop r u p ty) ⟨b, [], false⟩

theorem dropped_steps (hn : b.ids.Nodup) :
    Revision.Steps Allocates (fun _ ↦ False) ⟨b, [], false⟩ (dropped b) := by
  refine Revision.foldl_removeUnit_steps (fun a : UnitId × Nat × Ty ↦ a.1) _ (fun _ _ ↦ rfl)
    stable_allocates (dead b) _ ?_
  intro a ha v hv he
  obtain ⟨u, hu, hau, hs⟩ := mem_dead ha
  rwa [Body.eq_of_id_eq hn hv hu (he.trans hau)]

theorem revise_steps (hn : b.ids.Nodup) :
    Revision.Steps Allocates (fun _ ↦ False) ⟨b, [], false⟩ (revise b) :=
  .tail (dropped_steps hn) (Revision.dropEmptyTraps_step _)

theorem ready_revise (hb : b.Ready) : (revise b).body.Ready := by
  refine Body.Steady.ready_dropEmptyTraps ((dropped_steps hb.valid.nodup).steady ?_ hb.steady)
  intro v hv
  obtain ⟨x, ty, hs⟩ := hv
  simp [hs, Stmt.fallsThrough]

end DeadAllocations

namespace DeadAssignments

variable {b : Body} {r : Revision} {p : Nat}

def Assigns (v : CodeUnit) : Prop := ∃ x e, v.stmt = .assign (.var x) e

theorem stable_assigns : Stable Assigns := by
  intro u f
  simp [Assigns]

theorem mem_dead {a : UnitId × Nat × LocalId} (h : a ∈ dead b) :
    ∃ u ∈ b.units, a.1 = u.id ∧ b.isRemovable u.id = true ∧ Assigns u := by
  obtain ⟨⟨u, p⟩, hu, h⟩ := List.mem_filterMap.1 h
  dsimp only at h
  split at h
  · next hr =>
    obtain ⟨x, hx, rfl⟩ := Option.map_eq_some_iff.1 h
    refine ⟨u, List.fst_mem_of_mem_zipIdx hu, rfl, hr, ?_⟩
    unfold dead? at hx
    split at hx
    · next y e hs => exact ⟨y, e, hs⟩
    · simp at hx
  · simp at h

theorem foldl_drop_steps (l : List (UnitId × Nat × LocalId))
    (hl : ∀ a ∈ l, ∀ v ∈ r.body.units, v.id = a.1 → Assigns v) :
    Revision.Steps Assigns (fun _ ↦ False) r (l.foldl (fun r (u, p, x) ↦ drop r u p x) r) :=
  Revision.foldl_removeUnit_steps (fun a : UnitId × Nat × LocalId ↦ a.1) _ (fun _ _ ↦ rfl)
    stable_assigns l r hl

theorem assigns_of_mem_dead (hn : b.ids.Nodup) {a : UnitId × Nat × LocalId} (ha : a ∈ dead b)
    {v : CodeUnit} (hv : v ∈ b.units) (he : v.id = a.1) : Assigns v := by
  obtain ⟨u, hu, hau, -, hs⟩ := mem_dead ha
  rwa [Body.eq_of_id_eq hn hv hu (he.trans hau)]

theorem round_steps (hn : r.body.ids.Nodup) :
    Revision.Steps Assigns (fun _ ↦ False) r (round r) :=
  foldl_drop_steps (dead r.body) fun _ ha _ hv he ↦ assigns_of_mem_dead hn ha hv he

theorem rounds_steps (r : Revision) (hn : r.body.ids.Nodup) :
    Revision.Steps Assigns (fun _ ↦ False) r (rounds r) := by
  fun_induction rounds r with
  | case1 r next hlt ih =>
    have hround := round_steps hn
    exact hround.trans (ih ((hround.thinned stable_assigns hn).nodup hn))
  | case2 r next hge => exact round_steps hn

theorem size_round (hn : r.body.ids.Nodup) (hd : dead r.body ≠ []) :
    (round r).body.size < r.body.size := by
  obtain ⟨a, l, hal⟩ := List.exists_cons_of_ne_nil hd
  have ha : a ∈ dead r.body := by simp [hal]
  obtain ⟨u, hu, hau, hremovable, -⟩ := mem_dead ha
  have hround : round r = l.foldl (fun r (u, p, x) ↦ drop r u p x) (drop r a.1 a.2.1 a.2.2) := by
    rw [round, hal, List.foldl_cons]
  have hfirst : (drop r a.1 a.2.1 a.2.2).body.size < r.body.size :=
    Revision.size_removeUnit (hau ▸ Body.id_mem_ids hu) (hau ▸ hremovable)
  have hdrop : Revision.Steps Assigns (fun _ ↦ False) r (drop r a.1 a.2.1 a.2.2) :=
    Revision.removeUnit_steps (fun v hv he ↦ assigns_of_mem_dead hn ha hv he) fun _ ↦ rfl
  have hrest : Revision.Steps Assigns (fun _ ↦ False) (drop r a.1 a.2.1 a.2.2) (round r) := by
    rw [hround]
    refine foldl_drop_steps l fun a' ha' w hw he ↦ ?_
    obtain ⟨v, hv, f, rfl⟩ := Revision.origin_removeUnit hw
    have ha' : a' ∈ dead r.body := by simp [hal, ha']
    exact (stable_assigns v f).2 (assigns_of_mem_dead hn ha' hv he)
  have hle := (hrest.thinned stable_assigns ((hdrop.thinned stable_assigns hn).nodup hn)).size_le
  omega

theorem dead_rounds (r : Revision) (hn : r.body.ids.Nodup) : dead (rounds r).body = [] := by
  fun_induction rounds r with
  | case1 r next hlt ih => exact ih (((round_steps hn).thinned stable_assigns hn).nodup hn)
  | case2 r next hge =>
    have hnone : dead r.body = [] := by
      by_contra hd
      exact hge (size_round hn hd)
    have hround : round r = r := by
      rw [round, hnone, List.foldl_nil]
    show dead (round r).body = []
    rw [hround, hnone]

def revise (b : Body) : Revision := (rounds ⟨b, [], false⟩).dropEmptyTraps

theorem revise_steps (hn : b.ids.Nodup) :
    Revision.Steps Assigns (fun _ ↦ False) ⟨b, [], false⟩ (revise b) :=
  .tail (rounds_steps _ hn) (Revision.dropEmptyTraps_step _)

theorem ready_revise (hb : b.Ready) : (revise b).body.Ready := by
  refine Body.Steady.ready_dropEmptyTraps ((rounds_steps _ hb.valid.nodup).steady ?_ hb.steady)
  intro v hv
  obtain ⟨x, e, hs⟩ := hv
  simp [hs, Stmt.fallsThrough]

theorem selfCopies_revise (hn : b.ids.Nodup) :
    (revise b).body.OnlyLast Stmt.IsSelfCopy := by
  have hids : (rounds ⟨b, [], false⟩).body.ids.Nodup :=
    ((rounds_steps _ hn).thinned stable_assigns hn).nodup hn
  refine .of_lt fun p u hu hp hs ↦ ?_
  obtain ⟨x, hx⟩ := hs
  have hu : (rounds ⟨b, [], false⟩).body.units[p]? = some u := hu
  have hremovable := Body.isRemovable_of_lt hids hu hp
  have hdead : (u.id, p, x) ∈ dead (rounds ⟨b, [], false⟩).body := by
    refine List.mem_filterMap.2 ⟨(u, p), List.mem_zipIdx_iff_getElem?.2 hu, ?_⟩
    simp [hremovable, hx, dead?]
  rw [dead_rounds _ hn] at hdead
  exact List.not_mem_nil hdead

end DeadAssignments

namespace Pass

theorem deadAllocations_carries : deadAllocations.Carries Body.Ready Body.Ready :=
  fun _ _ hb ↦ ⟨⟨_, rfl⟩, DeadAllocations.ready_revise hb⟩

theorem deadAllocations_cleans : deadAllocations.Cleans fun _ ↦ DeadAllocations.Allocates where
  stable _ := DeadAllocations.stable_allocates
  steps _ _ hn := ⟨_, _, DeadAllocations.revise_steps hn, rfl⟩

theorem deadAssignments_carries : deadAssignments.Carries Body.Ready Body.Ready :=
  fun _ _ hb ↦ ⟨⟨_, rfl⟩, DeadAssignments.ready_revise hb⟩

theorem deadAssignments_cleans : deadAssignments.Cleans fun _ ↦ DeadAssignments.Assigns where
  stable _ := DeadAssignments.stable_assigns
  steps _ _ hn := ⟨_, _, DeadAssignments.revise_steps hn, rfl⟩

end Pass

end ThreeAddress
