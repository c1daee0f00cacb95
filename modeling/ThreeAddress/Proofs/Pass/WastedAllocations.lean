import ThreeAddress.Proofs.Flow.Handover
import ThreeAddress.Proofs.Pass.DeadCodeSimulation

namespace ThreeAddress

namespace Body

variable {b c : Body} {f : UnitId → UnitId} {x : LocalId} {u : UnitId} {p : Nat} {ty : Ty}

/-- The unit allocates, and no unit reads the value. -/
def Wasted (b : Body) (u : UnitId) : Prop :=
  ∃ p x ty, b.units[p]? = some ⟨u, .assign (.var x) (.new ty)⟩ ∧ b.reaching.isUnused p = true

def Thrifty (b : Body) : Prop := ∀ u, ¬ b.Wasted u

/-- The value of every other allocation comes to a read on a path that no wasted one leaves by an
exception. -/
def Lasting (b : Body) : Prop :=
  ∀ u x ty, b.stmt? u = some (.assign (.var x) (.new ty)) → ¬ b.Wasted u →
    ∃ w, b.Steps u w ∧ b.Awaits b.Wasted w x

theorem wasted_iff (hn : b.ids.Nodup) (hs : b.stmt? u = some (.assign (.var x) (.new ty))) :
    b.Wasted u ↔ ∀ w, b.Steps u w → ¬ b.Needs w x := by
  obtain ⟨p, hp, hunit⟩ := exists_position_of_stmt? hn hs
  have hdef : (b.stmtAt? p).bind Stmt.def? = some x := by
    rw [stmtAt?_of_unit hunit]
    rfl
  have hunused : b.Wasted u ↔ b.reaching.isUnused p = true := by
    constructor
    · intro h
      obtain ⟨q, y, ty', hq, h⟩ := h
      rwa [index_unique hn hp (id_of_unit hq)]
    · exact fun h ↦ ⟨p, x, ty, hunit, h⟩
  rw [hunused, isUnused_iff_not_live hdef]
  constructor
  · intro h w hw hneeds
    obtain ⟨q, hq, hlive⟩ := hneeds
    exact h q ((steps_iff hn hp hq).1 hw) hlive
  · intro h q hq hlive
    obtain ⟨w, hw⟩ := exists_id_of_lt hq.lt.2
    exact h w ((steps_iff hn hp hw).2 hq) ⟨q, hw, hlive⟩

theorem Wasted.stmt (hn : b.ids.Nodup) (h : b.Wasted u) :
    ∃ x ty, b.stmt? u = some (.assign (.var x) (.new ty)) := by
  obtain ⟨p, x, ty, hp, -⟩ := h
  exact ⟨x, ty, (stmt?_eq_some hn).2 (List.mem_of_getElem? hp)⟩

theorem Sheds.of_wasted (hb : b.Coherent) (h : Skips f b c)
    (hgone : ∀ u ∈ b.ids, u ∉ c.ids ↔ b.Wasted u) : Sheds f b c := by
  refine ⟨h, fun u hu hout ↦ ?_⟩
  have hwasted := (hgone u hu).1 hout
  obtain ⟨x, ty, hs⟩ := hwasted.stmt hb.nodup
  refine ⟨x, ty, hs, fun w hw ↦ (wasted_iff hb.nodup hs).1 hwasted w (.inl ?_)⟩
  exact (flowsTo_iff hb).2 ⟨_, hs, .inl ⟨rfl, hw⟩⟩

section Removal

variable (hb : b.Coherent) (hc : c.Coherent) (h : Skips f b c)
  (hgone : ∀ u ∈ b.ids, u ∉ c.ids ↔ b.Wasted u)

include hb hc h hgone

/-- Without the wasted units an allocation is used if its value came to a read without their
exceptions. -/
theorem wasted_iff_of_skips (hs : b.stmt? u = some (.assign (.var x) (.new ty))) (hu : u ∈ c.ids) :
    c.Wasted u ↔ ¬ ∃ w, b.Steps u w ∧ b.Awaits b.Wasted w x := by
  have hsheds := Sheds.of_wasted hb h hgone
  have hawaits (w : UnitId) : b.Awaits (· ∉ c.ids) w x ↔ b.Awaits b.Wasted w x :=
    awaits_congr hgone
  have hs' : c.stmt? u = some (.assign (.var x) (.new ty)) := by
    rw [h.moved.stmt u hu, hs]
    rfl
  rw [wasted_iff hc.nodup hs']
  push Not
  constructor
  · intro hnot w hw
    rw [← hawaits, ← hsheds.needs_iff hb hc hw.mem_ids]
    exact hnot (f w) ((h.moved.steps_iff hb hc hu).2 ⟨w, hw, rfl⟩)
  · intro hnot z hz
    obtain ⟨w, hw, rfl⟩ := (h.moved.steps_iff hb hc hu).1 hz
    rw [hsheds.needs_iff hb hc hw.mem_ids, hawaits]
    exact hnot w hw

theorem thrifty_iff_lasting : c.Thrifty ↔ b.Lasting := by
  constructor
  · intro hthrifty u x ty hs hused
    have hu : u ∈ c.ids := by
      by_contra hout
      exact hused ((hgone u (mem_ids_of_stmt? hs)).1 hout)
    by_contra hnot
    exact hthrifty u ((wasted_iff_of_skips hb hc h hgone hs hu).2 hnot)
  · intro hlasting u hwasted
    obtain ⟨x, ty, hs⟩ := hwasted.stmt hc.nodup
    have hu := mem_ids_of_stmt? hs
    rw [h.moved.stmt u hu] at hs
    obtain ⟨s, hold, he⟩ := Option.map_eq_some_iff.1 hs
    rw [Stmt.mapTargets_eq_assign] at he
    subst he
    refine (wasted_iff_of_skips hb hc h hgone hold hu).1 hwasted (hlasting u x ty hold ?_)
    exact fun hw ↦ (hgone u (h.units.subset hu)).2 hw hu

end Removal

end Body

namespace DeadAllocations

variable {b : Body} {u : UnitId}

theorem allocated?_eq_some {s : Stmt} {ty : Ty} :
    allocated? s = some ty ↔ ∃ x, s = .assign (.var x) (.new ty) := by
  unfold allocated?
  split <;> simp_all

theorem mem_dead_iff : (∃ a ∈ dead b, a.1 = u) ↔ b.Wasted u := by
  constructor
  · intro h
    obtain ⟨a, ha, rfl⟩ := h
    obtain ⟨⟨⟨id, s⟩, p⟩, hp, h⟩ := List.mem_filterMap.1 ha
    dsimp only at h
    split at h
    · next hunused =>
      obtain ⟨ty, hty, rfl⟩ := Option.map_eq_some_iff.1 h
      obtain ⟨x, rfl⟩ := allocated?_eq_some.1 hty
      exact ⟨p, x, ty, List.mem_zipIdx_iff_getElem?.1 hp, hunused⟩
    · cases h
  · intro h
    obtain ⟨p, x, ty, hp, hunused⟩ := h
    refine ⟨(u, p, ty), List.mem_filterMap.2 ⟨(_, p), List.mem_zipIdx_iff_getElem?.2 hp, ?_⟩, rfl⟩
    simp [hunused, allocated?]

theorem dead_eq_nil_iff : dead b = [] ↔ b.Thrifty := by
  rw [List.eq_nil_iff_forall_not_mem]
  constructor
  · intro h u hwasted
    obtain ⟨a, ha, -⟩ := mem_dead_iff.2 hwasted
    exact h a ha
  · exact fun h a ha ↦ h a.1 (mem_dead_iff.1 ⟨a, ha, rfl⟩)

theorem skips_revise (hb : b.Sound) : (revise b).body.Sound ∧
    ∃ f, Body.Skips f b (revise b).body ∧
      ∀ u ∈ b.ids, u ∉ (revise b).body.ids ↔ b.Wasted u := by
  obtain ⟨hsound, f, hf, hgone⟩ := skips_dropped hb
  have hdrop := Body.Skips.dropEmptyTraps hsound.coherent.nodup
  refine ⟨⟨hsound.coherent.subTraps (List.filter_subset_self _), hsound.end_sealed,
    hsound.nonempty⟩, _, hf.trans hdrop, fun u hu ↦ ?_⟩
  rw [← mem_dead_iff]
  exact hgone u hu

theorem mem_ids_revise (hb : b.Sound) :
    u ∈ (revise b).body.ids ↔ u ∈ b.ids ∧ ¬ b.Wasted u := by
  obtain ⟨-, f, hf, hgone⟩ := skips_revise hb
  constructor
  · intro hu
    exact ⟨hf.units.subset hu, fun hw ↦ (hgone u (hf.units.subset hu)).2 hw hu⟩
  · intro h
    by_contra hout
    exact h.2 ((hgone u h.1).1 hout)

theorem thrifty_revise_iff (hb : b.Sound) : (revise b).body.Thrifty ↔ b.Lasting := by
  obtain ⟨hsound, f, hf, hgone⟩ := skips_revise hb
  exact Body.thrifty_iff_lasting hb.coherent hsound.coherent hf hgone

theorem revise_eq_self (hb : b.Valid) (h : b.Thrifty) : revise b = ⟨b, [], false⟩ := by
  rw [revise, dead_eq_nil_iff.2 h, List.foldl_nil]
  exact Revision.dropEmptyTraps_eq_self hb

theorem body_revise_eq_self_iff (hb : b.Sound) (hv : b.Valid) :
    (revise b).body = b ↔ b.Thrifty := by
  refine ⟨fun he u hwasted ↦ ?_, fun h ↦ by rw [revise_eq_self hv h]⟩
  obtain ⟨x, ty, hs⟩ := hwasted.stmt hb.coherent.nodup
  have hu := Body.mem_ids_of_stmt? hs
  rw [← he] at hu
  exact ((mem_ids_revise hb).1 hu).2 hwasted

end DeadAllocations

namespace Pass

/-- The removal of unused allocations leaves a valid body without the allocations that were wasted,
and with all other units. None is wasted in it, and another run changes nothing and says so, exactly
if the value of every other allocation came to a read without the exceptions of those that went. -/
theorem wasted_allocations_gone_iff (m : Signature) {b : Body} (hb : b.validate = .ok ())
    (hlast : ∀ u, b.units.getLast? = some u → u.stmt.fallsThrough = false) :
    ∃ c notes changed, deadAllocations.run m b = ⟨c, notes, .ok changed⟩ ∧ c.validate = .ok () ∧
      (∀ u, u ∈ c.ids ↔ u ∈ b.ids ∧ ¬ b.Wasted u) ∧
      (c.Thrifty ↔ b.Lasting) ∧
      ((deadAllocations.run m c).result = .ok false ↔ b.Lasting) ∧
      ((deadAllocations.run m c).body = c ↔ b.Lasting) := by
  have hv := Body.validate_eq_ok.1 hb
  have hsound : b.Sound := hv.sound fun u hu ↦ .inl (hlast u hu)
  have hdropped := (DeadAllocations.skips_dropped hsound).1
  have hc : (DeadAllocations.revise b).body.Valid :=
    hdropped.coherent.valid_dropEmptyTraps hdropped.nonempty
  have hthrifty := DeadAllocations.thrifty_revise_iff hsound
  have hsame := DeadAllocations.body_revise_eq_self_iff (DeadAllocations.skips_revise hsound).1 hc
  have hmoved := (Revision.Steps.candid DeadAllocations.stable_allocates hc.nodup
    (DeadAllocations.revise_steps hc.nodup)).moved
  refine ⟨_, _, _, rfl, Body.validate_eq_ok.2 hc, fun u ↦ DeadAllocations.mem_ids_revise hsound,
    hthrifty, ?_, hsame.trans hthrifty⟩
  rw [← hthrifty, ← hsame]
  simpa [deadAllocations, Revision.finish] using not_congr hmoved

/-- Two allocations. A handler reads the first one. The second one stands before a division, in a
trap around both. -/
def twoAllocations : Body where
  locals := [⟨⟨0⟩, "x", .object "A"⟩, ⟨⟨1⟩, "y", .object "B"⟩, ⟨⟨2⟩, "q", .int⟩]
  units :=
    [⟨⟨0⟩, .assign (.var ⟨0⟩) (.new (.object "A"))⟩,
      ⟨⟨1⟩, .assign (.var ⟨1⟩) (.new (.object "B"))⟩,
      ⟨⟨2⟩, .assign (.var ⟨2⟩) (.binary .div (.const (.int 1)) (.const (.int 2)))⟩,
      ⟨⟨3⟩, .ret none⟩,
      ⟨⟨4⟩, .throw (.var ⟨0⟩)⟩]
  traps := [⟨⟨1⟩, ⟨3⟩, ⟨4⟩, .object "E"⟩]
  nextUnit := 5

theorem wasted_allocations_gone_twoAllocations :
    (twoAllocations.validate = .ok () ∧
      ∀ u, twoAllocations.units.getLast? = some u → u.stmt.fallsThrough = false) ∧
    (deadAllocations.run countdown twoAllocations).body.ids = [⟨0⟩, ⟨2⟩, ⟨3⟩, ⟨4⟩] ∧
    (deadAllocations.run countdown twoAllocations).body.Thrifty ∧
    (deadAllocations.run countdown
      (deadAllocations.run countdown twoAllocations).body).result = .ok false := by
  have hb : twoAllocations.validate = .ok () := by decide +kernel
  have hlast : ∀ u, twoAllocations.units.getLast? = some u → u.stmt.fallsThrough = false := by
    intro u hu
    obtain rfl := Option.some.inj hu
    rfl
  have hids : (deadAllocations.run countdown twoAllocations).body.ids = [⟨0⟩, ⟨2⟩, ⟨3⟩, ⟨4⟩] := by
    cbv
  have hlasting : twoAllocations.Lasting := by
    have hn : twoAllocations.ids.Nodup := by decide
    have hwasted : twoAllocations.Wasted ⟨1⟩ := ⟨1, ⟨1⟩, .object "B", rfl, by cbv⟩
    have hdivision : ¬ twoAllocations.Wasted ⟨2⟩ := fun h ↦ by
      obtain ⟨x, ty, hs⟩ := h.stmt hn
      cases hs
    have hfirst : twoAllocations.Steps ⟨0⟩ ⟨1⟩ := .inl ⟨0, 1, rfl, rfl, by decide⟩
    have hsecond : twoAllocations.Hands twoAllocations.Wasted ⟨0⟩ ⟨1⟩ ⟨2⟩ :=
      .inl ⟨⟨1, 2, rfl, rfl, by decide⟩, by decide⟩
    have hthird : twoAllocations.Hands twoAllocations.Wasted ⟨0⟩ ⟨2⟩ ⟨4⟩ :=
      .inr ⟨⟨2, 4, rfl, rfl, by decide⟩, hdivision⟩
    have hread : twoAllocations.Awaits twoAllocations.Wasted ⟨4⟩ ⟨0⟩ := .of_uses rfl (by decide)
    intro u x ty hs hused
    have hm := (Body.stmt?_eq_some hn).1 hs
    simp only [twoAllocations, List.mem_cons, List.not_mem_nil, CodeUnit.mk.injEq,
      Stmt.assign.injEq, Place.var.injEq, reduceCtorEq, or_false, and_false] at hm
    obtain ⟨rfl, rfl, -⟩ | ⟨rfl, -⟩ := hm
    · exact ⟨⟨1⟩, hfirst, (hread.of_hands hthird).of_hands hsecond⟩
    · exact absurd hwasted hused
  obtain ⟨c, notes, changed, hrun, -, -, hthrifty, hresult, -⟩ :=
    wasted_allocations_gone_iff countdown hb hlast
  rw [hrun] at hids ⊢
  exact ⟨⟨hb, hlast⟩, hids, hthrifty.2 hlasting, hresult.2 hlasting⟩

/-- The same without the division, so that only the second allocation leads to the handler. -/
def onlyAllocations : Body where
  locals := [⟨⟨0⟩, "x", .object "A"⟩, ⟨⟨1⟩, "y", .object "B"⟩]
  units :=
    [⟨⟨0⟩, .assign (.var ⟨0⟩) (.new (.object "A"))⟩,
      ⟨⟨1⟩, .assign (.var ⟨1⟩) (.new (.object "B"))⟩,
      ⟨⟨2⟩, .ret none⟩,
      ⟨⟨3⟩, .throw (.var ⟨0⟩)⟩]
  traps := [⟨⟨1⟩, ⟨2⟩, ⟨3⟩, .object "E"⟩]
  nextUnit := 4

def onlyFirstAllocation : Body where
  locals := [⟨⟨0⟩, "x", .object "A"⟩, ⟨⟨1⟩, "y", .object "B"⟩]
  units :=
    [⟨⟨0⟩, .assign (.var ⟨0⟩) (.new (.object "A"))⟩,
      ⟨⟨2⟩, .ret none⟩,
      ⟨⟨3⟩, .throw (.var ⟨0⟩)⟩]
  nextUnit := 4

/-- With the second allocation the handler loses its only edge, so the first one is left with no
unit that reads it. It goes in another run. -/
theorem wasted_allocation_left_onlyAllocations :
    (onlyAllocations.validate = .ok () ∧
      ∀ u, onlyAllocations.units.getLast? = some u → u.stmt.fallsThrough = false) ∧
    (deadAllocations.run countdown onlyAllocations).body = onlyFirstAllocation ∧
    onlyFirstAllocation.Wasted ⟨0⟩ ∧
    (deadAllocations.run countdown onlyFirstAllocation).result = .ok true ∧
    (deadAllocations.run countdown onlyFirstAllocation).body.ids = [⟨2⟩, ⟨3⟩] := by
  refine ⟨⟨by decide +kernel, fun u hu ↦ ?_⟩, by cbv, ⟨0, ⟨0⟩, .object "A", rfl, by cbv⟩, by cbv,
    by cbv⟩
  obtain rfl := Option.some.inj hu
  rfl

end Pass

end ThreeAddress
