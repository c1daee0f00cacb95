import ThreeAddress.Proofs.Flow.Abridgement

namespace ThreeAddress

namespace Body

variable {b c : Body} {f : UnitId → UnitId} {gone gone' keep : UnitId → Prop} {x : LocalId} {u w z : UnitId}
  {p q : Nat}

/-- A step that completes no definition of the local, and is no exception of a unit that is gone. -/
def Hands (b : Body) (gone : UnitId → Prop) (x : LocalId) (u w : UnitId) : Prop :=
  b.FlowsTo u w ∧ (b.stmt? u).bind Stmt.def? ≠ some x ∨ b.RaisesTo u w ∧ ¬ gone u

def Awaits (b : Body) (gone : UnitId → Prop) (u : UnitId) (x : LocalId) : Prop :=
  ∃ r s, b.stmt? r = some s ∧ x ∈ s.uses ∧ Relation.ReflTransGen (b.Hands gone x) u r

theorem Awaits.of_uses {s : Stmt} (hs : b.stmt? u = some s) (hx : x ∈ s.uses) :
    b.Awaits gone u x := ⟨u, s, hs, hx, .refl⟩

theorem Awaits.of_hands (h : b.Awaits gone w x) (hstep : b.Hands gone x u w) :
    b.Awaits gone u x := by
  obtain ⟨r, s, hs, hx, hpath⟩ := h
  exact ⟨r, s, hs, hx, .head hstep hpath⟩

theorem Needs.of_hands (hn : b.ids.Nodup) (h : b.Needs w x) (hstep : b.Hands gone x u w) :
    b.Needs u x := by
  obtain ⟨⟨p, q, hp, hq, hedge⟩, hdef⟩ | ⟨⟨p, q, hp, hq, hedge⟩, -⟩ := hstep
  · rw [stmt?_of_id hn hp] at hdef
    exact h.of_keeps hn hp hq (.inl ⟨hedge, hdef⟩)
  · exact h.of_keeps hn hp hq (.inr hedge)

theorem Awaits.needs (hn : b.ids.Nodup) (h : b.Awaits gone u x) : b.Needs u x := by
  obtain ⟨r, s, hs, hx, hpath⟩ := h
  induction hpath using Relation.ReflTransGen.head_induction_on with
  | refl => exact needs_of_uses hn hs hx
  | head hstep _ ih => exact ih.of_hands hn hstep

theorem awaits_of_needs (hn : b.ids.Nodup) (h : b.Needs u x) : b.Awaits (fun _ ↦ False) u x := by
  obtain ⟨p, hp, hlive⟩ := h
  obtain ⟨q, ⟨s, hs, hx⟩, hpath⟩ := mem_liveIn.1 hlive
  clear hlive
  induction hpath using Relation.ReflTransGen.head_induction_on generalizing u with
  | refl => exact .of_uses ((stmt?_of_id hn hp).trans hs) hx
  | @head p r hstep _ ih =>
    obtain ⟨w, hw⟩ := exists_id_of_lt hstep.leads.lt.2
    refine (ih hw).of_hands ?_
    obtain ⟨hedge, hdef⟩ | hedge := hstep
    · rw [← stmt?_of_id hn hp] at hdef
      exact .inl ⟨⟨p, r, hp, hw, hedge⟩, hdef⟩
    · exact .inr ⟨⟨p, r, hp, hw, hedge⟩, not_false⟩

namespace Moved

variable (h : Moved keep f b c) (hb : b.Coherent) (hc : c.Coherent) (hu : keep u)

include h hb hc hu

theorem flowsTo_iff : c.FlowsTo u z ↔ ∃ w, b.FlowsTo u w ∧ f w = z := by
  rw [Body.flowsTo_iff hc, h.stmt u hu, h.successor u hu]
  simp only [Body.flowsTo_iff hb, Option.map_eq_some_iff]
  constructor
  · intro hflows
    obtain ⟨_, ⟨s, hs, rfl⟩, ⟨hf, w, hw, rfl⟩ | hz⟩ := hflows
    · exact ⟨w, ⟨s, hs, .inl ⟨by simpa using hf, hw⟩⟩, rfl⟩
    · obtain ⟨w, hw, rfl⟩ : ∃ w ∈ s.targets, f w = z := by simpa using hz
      exact ⟨w, ⟨s, hs, .inr hw⟩, rfl⟩
  · intro hflows
    obtain ⟨w, ⟨s, hs, ⟨hf, hw⟩ | hw⟩, rfl⟩ := hflows
    · exact ⟨_, ⟨s, hs, rfl⟩, .inl ⟨by simpa using hf, w, hw, rfl⟩⟩
    · exact ⟨_, ⟨s, hs, rfl⟩, .inr (by simpa using ⟨w, hw, rfl⟩)⟩

theorem raisesTo_iff : c.RaisesTo u z ↔ ∃ w, b.RaisesTo u w ∧ f w = z := by
  have hthrows : c.Throws u ↔ b.Throws u := by
    simp [throws_iff hb.nodup, throws_iff hc.nodup, h.stmt u hu]
  rw [Body.raisesTo_iff hc, hthrows, clauses, h.around u hu]
  simp only [Body.raisesTo_iff hb, clauses, List.map_map, List.mem_map, Function.comp_apply,
    Trap.clause]
  constructor
  · intro hraises
    obtain ⟨ht, t, hm, rfl⟩ := hraises
    exact ⟨t.handler, ⟨ht, t, hm, rfl⟩, rfl⟩
  · intro hraises
    obtain ⟨_, ⟨ht, t, hm, rfl⟩, rfl⟩ := hraises
    exact ⟨ht, t, hm, rfl⟩

theorem steps_iff : c.Steps u z ↔ ∃ w, b.Steps u w ∧ f w = z := by
  rw [Steps, h.flowsTo_iff hb hc hu, h.raisesTo_iff hb hc hu, ← exists_or]
  exact exists_congr fun w ↦ or_and_right.symm

end Moved

structure Sheds (f : UnitId → UnitId) (b c : Body) : Prop where
  skips : Skips f b c
  spare : ∀ u ∈ b.ids, u ∉ c.ids → ∃ z ty, b.stmt? u = some (.assign (.var z) (.new ty)) ∧
    ∀ w, b.successor? u = some w → ¬ b.Needs w z

theorem FlowsTo.source_mem (h : b.FlowsTo u w) : u ∈ b.ids := by
  obtain ⟨p, -, hp, -⟩ := h
  exact List.mem_of_getElem? hp

theorem RaisesTo.source_mem (h : b.RaisesTo u w) : u ∈ b.ids := by
  obtain ⟨p, -, hp, -⟩ := h
  exact List.mem_of_getElem? hp

theorem Hands.mem_ids (h : b.Hands gone x u w) : u ∈ b.ids ∧ w ∈ b.ids := by
  obtain ⟨h, -⟩ | ⟨h, -⟩ := h
  · exact ⟨h.source_mem, Steps.mem_ids (.inl h)⟩
  · exact ⟨h.source_mem, Steps.mem_ids (.inr h)⟩

theorem Awaits.of_imp (hg : ∀ v w, b.RaisesTo v w → gone' v → gone v) (h : b.Awaits gone u x) :
    b.Awaits gone' u x := by
  obtain ⟨r, s, hs, hx, hpath⟩ := h
  refine ⟨r, s, hs, hx, Relation.ReflTransGen.mono (fun v w hstep ↦ ?_) _ _ hpath⟩
  exact hstep.imp_right fun hr ↦ ⟨hr.1, mt (hg v w hr.1) hr.2⟩

theorem awaits_congr (hg : ∀ u ∈ b.ids, gone u ↔ gone' u) :
    b.Awaits gone u x ↔ b.Awaits gone' u x :=
  ⟨.of_imp fun v _ hv ↦ (hg v hv.source_mem).2, .of_imp fun v _ hv ↦ (hg v hv.source_mem).1⟩

namespace Sheds

variable (h : Sheds f b c) (hb : b.Coherent)

include h hb

theorem successor?_of_flowsTo (hu : u ∉ c.ids) (hflow : b.FlowsTo u w) :
    b.successor? u = some w ∧ f u = f w := by
  obtain ⟨z, ty, hs, -⟩ := h.spare u hflow.source_mem hu
  obtain ⟨w', hw', he⟩ := h.skips.skipped u hflow.source_mem hu
  obtain ⟨s, hs', ⟨-, hw⟩ | ht⟩ := (flowsTo_iff hb).1 hflow
  · obtain rfl := Option.some.inj (hw.symm.trans hw')
    exact ⟨hw, he⟩
  · rw [← Option.some.inj (hs.symm.trans hs')] at ht
    cases ht

theorem awaits_of_next (hin : u ∈ b.ids) (hu : u ∉ c.ids) (hw : b.successor? u = some w)
    (hx : b.Awaits (· ∉ c.ids) w x) : b.Awaits (· ∉ c.ids) u x := by
  obtain ⟨z, ty, hs, hnot⟩ := h.spare u hin hu
  refine hx.of_hands (.inl ⟨(flowsTo_iff hb).2 ⟨_, hs, .inl ⟨rfl, hw⟩⟩, fun hdef ↦ ?_⟩)
  rw [hs] at hdef
  obtain rfl : z = x := Option.some.inj hdef
  exact hnot w hw (hx.needs hb.nodup)

theorem awaits_of_heir (hz : z ∈ c.ids) (hx : b.Awaits (· ∉ c.ids) z x) (hu : u ∈ b.ids)
    (he : f u = z) : b.Awaits (· ∉ c.ids) u x := by
  obtain ⟨p, hp⟩ := List.getElem?_of_mem hu
  -- on the number of units from there to the end
  induction hd : b.size - p using Nat.strong_induction_on generalizing u p with
  | _ d ih =>
    by_cases hkept : u ∈ c.ids
    · obtain rfl : u = z := (h.skips.fixed u hkept).symm.trans he
      exact hx
    · obtain ⟨w, hw, hfw⟩ := h.skips.skipped u hu hkept
      have hnext := hw
      rw [successor?_of_getElem? hb.nodup hp] at hnext
      have hlt := lt_size_of_getElem? hnext
      refine h.awaits_of_next hb hu hkept hw ?_
      exact ih (b.size - (p + 1)) (by omega) (List.mem_of_getElem? hnext) (hfw.symm.trans he)
        (p + 1) hnext rfl

variable (hc : c.Coherent)

include hc

theorem needs_of_awaits (hx : b.Awaits (· ∉ c.ids) u x) : c.Needs (f u) x := by
  obtain ⟨r, s, hs, hread, hpath⟩ := hx
  -- a unit that is gone hands on to the place that it now leads to, so the path is not lost there
  induction hpath using Relation.ReflTransGen.head_induction_on with
  | refl =>
    by_cases hr : r ∈ c.ids
    · rw [h.skips.fixed r hr]
      refine needs_of_uses hc.nodup (s := s.mapTargets f) ?_ (by simpa using hread)
      rw [h.skips.moved.stmt r hr, hs, Option.map_some]
    · obtain ⟨z, ty, hs', -⟩ := h.spare r (mem_ids_of_stmt? hs) hr
      rw [Option.some.inj (hs.symm.trans hs')] at hread
      simp [Stmt.uses, Stmt.values, Place.values, Expr.values] at hread
  | @head u w hstep _ ih =>
    by_cases hu : u ∈ c.ids
    · have hstep' : c.Hands (· ∉ c.ids) x u (f w) := by
        obtain ⟨hflow, hdef⟩ | ⟨hraise, hkept⟩ := hstep
        · refine .inl ⟨(h.skips.moved.flowsTo_iff hb hc hu).2 ⟨w, hflow, rfl⟩, ?_⟩
          rw [h.skips.moved.stmt u hu]
          simpa [Option.bind_map, Function.comp_def] using hdef
        · exact .inr ⟨(h.skips.moved.raisesTo_iff hb hc hu).2 ⟨w, hraise, rfl⟩, hkept⟩
      rw [h.skips.fixed u hu]
      exact ih.of_hands hc.nodup hstep'
    · obtain ⟨hflow, -⟩ | ⟨-, hkept⟩ := hstep
      · rwa [(h.successor?_of_flowsTo hb hu hflow).2]
      · exact absurd hu hkept

theorem awaits_of_needs (hu : u ∈ b.ids) (hx : c.Needs (f u) x) : b.Awaits (· ∉ c.ids) u x := by
  obtain ⟨r, s, hs, hread, hpath⟩ := Body.awaits_of_needs hc.nodup hx
  clear hx
  -- each unit of the path stands for all those that lead to it now
  generalize hz : f u = z at hpath
  induction hpath using Relation.ReflTransGen.head_induction_on generalizing u with
  | refl =>
    have hr := mem_ids_of_stmt? hs
    refine h.awaits_of_heir hb hr ?_ hu hz
    rw [h.skips.moved.stmt r hr] at hs
    obtain ⟨s', hold, rfl⟩ := Option.map_eq_some_iff.1 hs
    exact .of_uses hold (by simpa using hread)
  | @head z z' hstep _ ih =>
    have hzc := hstep.mem_ids.1
    refine h.awaits_of_heir hb hzc ?_ hu hz
    obtain ⟨hflow, hdef⟩ | ⟨hraise, -⟩ := hstep
    · obtain ⟨w, hw, he⟩ := (h.skips.moved.flowsTo_iff hb hc hzc).1 hflow
      refine (ih (Steps.mem_ids (.inl hw)) he).of_hands (.inl ⟨hw, ?_⟩)
      rw [h.skips.moved.stmt z hzc] at hdef
      simpa [Option.bind_map, Function.comp_def] using hdef
    · obtain ⟨w, hw, he⟩ := (h.skips.moved.raisesTo_iff hb hc hzc).1 hraise
      exact (ih (Steps.mem_ids (.inr hw)) he).of_hands (.inr ⟨hw, not_not_intro hzc⟩)

/-- A local is live after the removal where steps lead on to a read of it that do not leave a unit
that is gone by an exception. -/
theorem needs_iff (hu : u ∈ b.ids) : c.Needs (f u) x ↔ b.Awaits (· ∉ c.ids) u x :=
  ⟨h.awaits_of_needs hb hc hu, h.needs_of_awaits hb hc⟩

end Sheds

end Body

end ThreeAddress
