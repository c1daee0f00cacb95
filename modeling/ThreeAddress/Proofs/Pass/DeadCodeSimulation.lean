import ThreeAddress.Proofs.Flow.Abridgement
import ThreeAddress.Proofs.Pass.DeadCode
import ThreeAddress.Proofs.WellFormedness

namespace ThreeAddress

namespace Body

variable {b c d : Body} {f g : UnitId → UnitId} {u : UnitId} {s : Stmt} {e : Expr} {z : LocalId}
  {p : Nat}

structure Abridged (f : UnitId → UnitId) (b c : Body) : Prop where
  skips : Skips f b c
  retraces : ∀ {V H E : Type} (M : Semantics V H E) (alike : H → H → Prop), M.Discreet alike →
    M.Retraces alike f b c

namespace Abridged

theorem of_dispensable (hb : b.Coherent) (h : Skips f b c)
    (hspare : ∀ u ∈ b.ids, u ∉ c.ids → b.Dispensable u) : Abridged f b c :=
  ⟨h, fun _ _ hM ↦ hM.retraces hb h hspare⟩

theorem trans (h : Abridged f b c) (h' : Abridged g c d) : Abridged (g ∘ f) b d where
  skips := h.skips.trans h'.skips
  retraces M alike hM :=
    (h.retraces M alike hM).trans hM.respects (h'.retraces M alike hM) h.skips h'.skips

theorem dropEmptyTraps (hb : b.Coherent) : Abridged (fun u ↦ u) b b.dropEmptyTraps :=
  .of_dispensable hb (.dropEmptyTraps hb.nodup) fun _ hu hgone ↦ absurd hu hgone

end Abridged

/-- A definition that is unused is dispensable, if its value can be had for nothing. -/
theorem dispensable_of_isUnused (hn : b.ids.Nodup) (hp : b.units[p]? = some ⟨u, .assign (.var z) e⟩)
    (he : e.isPure = true ∨ e.isAllocation = true) (hunused : b.reaching.isUnused p = true) :
    b.Dispensable u :=
  ⟨z, e, (stmt?_eq_some hn).2 (List.mem_of_getElem? hp), .inr ⟨he, fun _ hw ↦
    not_needs_of_isUnused hn hp rfl hunused rfl hw⟩⟩

end Body

namespace DeadAllocations

variable {b : Body}

theorem dispensable_of_mem_dead (hn : b.ids.Nodup) {a : UnitId × Nat × Ty} (ha : a ∈ dead b) :
    b.Dispensable a.1 := by
  obtain ⟨⟨u, p⟩, hu, h⟩ := List.mem_filterMap.1 ha
  have hp : b.units[p]? = some u := List.mem_zipIdx_iff_getElem?.1 hu
  dsimp only at h
  split at h
  · next hunused =>
    obtain ⟨ty, hty, rfl⟩ := Option.map_eq_some_iff.1 h
    obtain ⟨id, s⟩ := u
    unfold allocated? at hty
    split at hty
    · next x ty' hs =>
      obtain rfl : s = _ := hs
      exact Body.dispensable_of_isUnused hn hp (.inr rfl) hunused
    · simp at hty
  · simp at h

theorem skips_dropped (hb : b.Sound) : (dropped b).body.Sound ∧
    ∃ f, Body.Skips f b (dropped b).body ∧
      ∀ u ∈ b.ids, u ∉ (dropped b).body.ids ↔ ∃ a ∈ dead b, a.1 = u := by
  refine Revision.skips_foldl (fun a : UnitId × Nat × Ty ↦ a.1)
    (fun a _ ↦
      ⟨.allocationRemoved, some a.2.1, "unused allocation of " ++ a.2.2.text ++ " removed"⟩)
    (dead b) ⟨b, [], false⟩ hb fun a ha v hv he ↦ ?_
  obtain ⟨u, hu, hau, x, ty, hs⟩ := mem_dead ha
  rw [Body.eq_of_id_eq hb.coherent.nodup hv hu (he.trans hau), hs]
  exact ⟨rfl, nofun⟩

theorem abridged_revise (hb : b.Sound) : (dropped b).body.Sound ∧
    ∃ f, Body.Abridged f b (revise b).body := by
  obtain ⟨hsound, f, hf, hgone⟩ := skips_dropped hb
  refine ⟨hsound, _, .trans (.of_dispensable hb.coherent hf fun u hu hout ↦ ?_)
    (.dropEmptyTraps hsound.coherent)⟩
  obtain ⟨a, ha, rfl⟩ := (hgone u hu).1 hout
  exact dispensable_of_mem_dead hb.coherent.nodup ha

end DeadAllocations

namespace DeadAssignments

variable {b : Body} {r : Revision}

theorem dispensable_of_mem_dead (hn : b.ids.Nodup) {a : UnitId × Nat × LocalId} (ha : a ∈ dead b) :
    b.Dispensable a.1 := by
  obtain ⟨⟨u, p⟩, hu, h⟩ := List.mem_filterMap.1 ha
  have hp : b.units[p]? = some u := List.mem_zipIdx_iff_getElem?.1 hu
  dsimp only at h
  split at h
  · obtain ⟨x, hx, rfl⟩ := Option.map_eq_some_iff.1 h
    obtain ⟨id, s⟩ := u
    unfold dead? at hx
    split at hx
    · next y e hs =>
      obtain rfl : s = _ := hs
      split at hx
      · next hcause =>
        rw [Bool.or_eq_true, Bool.and_eq_true, decide_eq_true_eq] at hcause
        obtain rfl | ⟨hpure, hunused⟩ := hcause
        · exact ⟨y, _, (Body.stmt?_eq_some hn).2 (List.mem_of_getElem? hp), .inl rfl⟩
        · exact Body.dispensable_of_isUnused hn hp (.inl hpure) hunused
      · simp at hx
    · simp at hx
  · simp at h

theorem abridged_round (hr : r.body.Sound) :
    (round r).body.Sound ∧ ∃ f, Body.Abridged f r.body (round r).body := by
  have hn := hr.coherent.nodup
  obtain ⟨hsound, f, hf, hgone⟩ := Revision.skips_foldl (fun a : UnitId × Nat × LocalId ↦ a.1)
    (fun a _ ↦
      ⟨.assignmentRemoved, some a.2.1, "dead assignment to " ++ a.2.2.text ++ " removed"⟩)
    (dead r.body) r hr fun a ha v hv he ↦ by
      obtain ⟨x, e, hs⟩ := assigns_of_mem_dead hn ha hv he
      rw [hs]
      exact ⟨rfl, nofun⟩
  refine ⟨hsound, f, .of_dispensable hr.coherent hf fun u hu hout ↦ ?_⟩
  obtain ⟨a, ha, rfl⟩ := (hgone u hu).1 hout
  exact dispensable_of_mem_dead hn ha

theorem abridged_rounds (r : Revision) (hr : r.body.Sound) :
    (rounds r).body.Sound ∧ ∃ f, Body.Abridged f r.body (rounds r).body := by
  fun_induction rounds r with
  | case1 r next hlt ih =>
    obtain ⟨hsound, f, hf⟩ := abridged_round hr
    obtain ⟨hsound', g, hg⟩ := ih hsound
    exact ⟨hsound', g ∘ f, hf.trans hg⟩
  | case2 r next hge => exact abridged_round hr

end DeadAssignments

namespace Pass

/-- Removing dead allocations, and removing dead assignments, succeeds on a valid body that control
does not run off. What it leaves is valid, and every unit in it has the statement that it had, but
for jumps that now lead past the removed units. Where pure expressions and allocations do nothing
that could be noticed, the runs from the first unit are those of the old body without the visits to
the removed units. -/
theorem dead_code_retraced (m : Signature) {b : Body} {pass : Pass}
    (hpass : pass = deadAllocations ∨ pass = deadAssignments) (hb : b.validate = .ok ())
    (hlast : ∀ u, b.units.getLast? = some u → u.stmt.fallsThrough = false) :
    (∃ changed, (pass.run m b).result = .ok changed) ∧
    (pass.run m b).body.validate = .ok () ∧
    ∃ image, Body.Skips image b (pass.run m b).body ∧
      ∀ {V H E : Type} (M : Semantics V H E) (alike : H → H → Prop), M.Discreet alike →
        M.Retraces alike image b (pass.run m b).body := by
  have hv := Body.validate_eq_ok.1 hb
  have hsound : b.Sound := hv.sound fun u hu ↦ .inl (hlast u hu)
  obtain rfl | rfl := hpass
  · obtain ⟨hdropped, f, hf⟩ := DeadAllocations.abridged_revise hsound
    have hvalid : (DeadAllocations.revise b).body.Valid :=
      hdropped.coherent.valid_dropEmptyTraps hdropped.nonempty
    exact ⟨⟨_, rfl⟩, Body.validate_eq_ok.2 hvalid, f, hf.skips, hf.retraces⟩
  · obtain ⟨hrounds, f, hf⟩ := DeadAssignments.abridged_rounds ⟨b, [], false⟩ hsound
    have hvalid : (DeadAssignments.revise b).body.Valid :=
      hrounds.coherent.valid_dropEmptyTraps hrounds.nonempty
    have hdrop := hf.trans (.dropEmptyTraps hrounds.coherent)
    exact ⟨⟨_, rfl⟩, Body.validate_eq_ok.2 hvalid, _, hdrop.skips, hdrop.retraces⟩

/-- An interpretation over the integers. An allocation yields any reference, and is counted. -/
def counting : Semantics Int Nat Unit where
  literal c := (c.integer?.map (·.toInt)).getD 0
  holds op a z := op.holds (compare a z)
  compute e vs h r :=
    match e with
    | .new _ => ∃ v, r = (.ok v, h + 1)
    | .binary .div _ _ =>
      r = (if vs.getD 1 0 = 0 then .error () else .ok (vs.getD 0 0 / vs.getD 1 0), h)
    | _ => r = (.ok (vs.foldl (· + ·) 0), h)
  input _ _ := 7
  putField _ _ _ h := .ok h
  putElement _ _ _ h := .ok h
  index? v := if 0 ≤ v then some v.toNat else none
  thrown _ _ := ()
  catches _ _ := true
  caught _ h := h

theorem counting_discreet : counting.Discreet fun _ _ ↦ True where
  respects := {
    equivalence := ⟨fun _ ↦ trivial, fun _ ↦ trivial, fun _ _ ↦ trivial⟩
    compute := by
      intro e vs h h' r g _ hr
      cases e with
      | new ty =>
        obtain ⟨v, hv⟩ := hr
        cases hv
        exact ⟨h' + 1, ⟨v, rfl⟩, trivial⟩
      | binary op a z => cases op <;> cases hr <;> exact ⟨h', rfl, trivial⟩
      | _ =>
        cases hr
        exact ⟨h', rfl, trivial⟩
    input := fun _ ↦ rfl
    putField := fun _ ↦ trivial
    putElement := fun _ ↦ trivial
    thrown := fun _ ↦ rfl
    caught := fun _ ↦ trivial }
  pure := by
    intro e he vs h
    cases e with
    | new ty => cases he
    | binary op a z =>
      cases op with
      | div => cases he
      | _ => exact ⟨_, fun _ ↦ .rfl⟩
    | _ => exact ⟨_, fun _ ↦ .rfl⟩
  allocates _ h := ⟨0, h + 1, 0, rfl⟩
  allocated := by
    rintro ty h r ⟨v, rfl⟩
    exact ⟨v, h + 1, rfl, trivial⟩
  raises := by
    intro e vs h x h' hr
    cases e with
    | new ty =>
      obtain ⟨v, hv⟩ := hr
      cases hv
    | binary op a z =>
      cases op with
      | div => rfl
      | _ => cases hr
    | _ => cases hr
  static _ _ _ _ := nofun

/-- A loop that halves its input, with a sum in it that nothing reads and an allocation at the
beginning of a trap. -/
def halving : Body where
  locals := [⟨⟨0⟩, "n", .int⟩, ⟨⟨1⟩, "s", .int⟩, ⟨⟨2⟩, "t", .int⟩, ⟨⟨3⟩, "o", .object "T"⟩]
  units :=
    [⟨⟨0⟩, .identity ⟨0⟩ (.parameter 0)⟩,
      ⟨⟨1⟩, .assign (.var ⟨1⟩) (.binary .add (.var ⟨0⟩) (.const (.int 1)))⟩,
      ⟨⟨2⟩, .assign (.var ⟨2⟩) (.binary .mul (.var ⟨1⟩) (.var ⟨1⟩))⟩,
      ⟨⟨3⟩, .branch ⟨.le, .var ⟨0⟩, .const (.int 1)⟩ ⟨7⟩⟩,
      ⟨⟨4⟩, .assign (.var ⟨3⟩) (.new (.object "T"))⟩,
      ⟨⟨5⟩, .assign (.var ⟨0⟩) (.binary .div (.var ⟨0⟩) (.const (.int 2)))⟩,
      ⟨⟨6⟩, .goto ⟨1⟩⟩,
      ⟨⟨7⟩, .ret (some (.var ⟨0⟩))⟩]
  traps := [⟨⟨4⟩, ⟨6⟩, ⟨7⟩, .object "E"⟩]
  nextUnit := 8

/-- The sum goes in two rounds, and the loop then goes on at the test. The allocation goes with the
other pass, and the trap then begins at the division. -/
theorem dead_code_retraced_halving :
    (halving.validate = .ok () ∧
      (∀ u, halving.units.getLast? = some u → u.stmt.fallsThrough = false) ∧
      counting.Discreet fun _ _ ↦ True) ∧
    ((deadAssignments.run countdown halving).body.ids = [⟨0⟩, ⟨3⟩, ⟨4⟩, ⟨5⟩, ⟨6⟩, ⟨7⟩] ∧
      ∃ image, Body.Skips image halving (deadAssignments.run countdown halving).body ∧
        counting.Retraces (fun _ _ ↦ True) image halving
          (deadAssignments.run countdown halving).body) ∧
    (deadAllocations.run countdown halving).body.ids =
        [⟨0⟩, ⟨1⟩, ⟨2⟩, ⟨3⟩, ⟨5⟩, ⟨6⟩, ⟨7⟩] ∧
      ∃ image, Body.Skips image halving (deadAllocations.run countdown halving).body ∧
        counting.Retraces (fun _ _ ↦ True) image halving
          (deadAllocations.run countdown halving).body := by
  have hb : halving.validate = .ok () := by decide +kernel
  have hlast : ∀ u, halving.units.getLast? = some u → u.stmt.fallsThrough = false := by
    intro u hu
    obtain rfl := Option.some.inj hu
    rfl
  have hids : (deadAssignments.run countdown halving).body.ids =
      [⟨0⟩, ⟨3⟩, ⟨4⟩, ⟨5⟩, ⟨6⟩, ⟨7⟩] := by decide_cbv
  have hids' : (deadAllocations.run countdown halving).body.ids =
      [⟨0⟩, ⟨1⟩, ⟨2⟩, ⟨3⟩, ⟨5⟩, ⟨6⟩, ⟨7⟩] := by decide_cbv
  obtain ⟨-, -, image, hskips, hruns⟩ := dead_code_retraced countdown (.inr rfl) hb hlast
  obtain ⟨-, -, image', hskips', hruns'⟩ := dead_code_retraced countdown (.inl rfl) hb hlast
  exact ⟨⟨hb, hlast, counting_discreet⟩,
    ⟨hids, image, hskips, hruns counting _ counting_discreet⟩,
    hids', image', hskips', hruns' counting _ counting_discreet⟩

end Pass

end ThreeAddress
