import ThreeAddress.Proofs.Body.Motion
import ThreeAddress.Proofs.Flow.Paths

namespace ThreeAddress

namespace Body

variable {b c d : Body} {u w z : UnitId} {s : Stmt} {t : Trap} {p q : Nat}
  {keep : UnitId → Prop}

theorem exists_position_of_stmt? (hn : b.ids.Nodup) (hs : b.stmt? u = some s) :
    ∃ p : Nat, b.ids[p]? = some u ∧ b.units[p]? = some ⟨u, s⟩ := by
  obtain ⟨p, hp⟩ := List.getElem?_of_mem ((stmt?_eq_some hn).1 hs)
  exact ⟨p, id_of_unit hp, hp⟩

theorem mem_succs_of_successor? (hp : b.units[p]? = some ⟨u, s⟩) (hf : s.fallsThrough = true)
    (hw : b.ids[p + 1]? = some w) : p + 1 ∈ b.flowGraph.succs p := by
  rw [succs_flowGraph hp, normalSuccessors, List.mem_eraseDups]
  simp [hf, lt_size_of_getElem? hw]

theorem mem_succs_of_targets (hn : b.ids.Nodup) (hp : b.units[p]? = some ⟨u, s⟩)
    (hw : w ∈ s.targets) (hq : b.ids[q]? = some w) : q ∈ b.flowGraph.succs p := by
  rw [succs_flowGraph hp, normalSuccessors, List.mem_eraseDups, List.mem_append]
  exact .inr (List.mem_filterMap.2 ⟨w, hw, (position?_eq_some hn).2 hq⟩)

theorem mem_catches_of_around (hn : b.ids.Nodup) (hp : b.units[p]? = some ⟨u, s⟩)
    (hthrow : s.mayThrow = true) (ht : t ∈ b.around u) (hq : b.ids[q]? = some t.handler) :
    q ∈ b.flowGraph.catches p := by
  obtain ⟨ht, hcovers⟩ := List.mem_filter.1 ht
  rw [(position?_eq_some hn).2 (id_of_unit hp), Option.any_some] at hcovers
  rw [catches_flowGraph hp, exceptionalSuccessors, if_pos hthrow, List.mem_eraseDups]
  exact List.mem_filterMap.2 ⟨t, List.mem_filter.2 ⟨ht, hcovers⟩, (position?_eq_some hn).2 hq⟩

/-- A normal edge of the flow graph, by the identities of its ends. -/
def FlowsTo (b : Body) (u w : UnitId) : Prop :=
  ∃ p q : Nat, b.ids[p]? = some u ∧ b.ids[q]? = some w ∧ q ∈ b.flowGraph.succs p

def RaisesTo (b : Body) (u w : UnitId) : Prop :=
  ∃ p q : Nat, b.ids[p]? = some u ∧ b.ids[q]? = some w ∧ q ∈ b.flowGraph.catches p

theorem flowsTo_iff (hb : b.Coherent) : b.FlowsTo u w ↔ ∃ s, b.stmt? u = some s ∧
    (s.fallsThrough = true ∧ b.successor? u = some w ∨ w ∈ s.targets) := by
  constructor
  · intro h
    obtain ⟨p, q, hp, hq, hedge⟩ := h
    obtain ⟨v, hv, rfl⟩ := unit_of_id hp
    refine ⟨v.stmt, (stmt?_eq_some hb.nodup).2 (List.mem_of_getElem? hv), ?_⟩
    rw [succs_flowGraph hv, normalSuccessors, List.mem_eraseDups, List.mem_append] at hedge
    obtain hnext | htarget := hedge
    · split at hnext
      · next hf =>
        obtain rfl := List.mem_singleton.1 hnext
        rw [Bool.and_eq_true] at hf
        exact .inl ⟨hf.1, (successor?_eq_some hb.nodup).2 ⟨p, hp, hq⟩⟩
      · cases hnext
    · obtain ⟨t, ht, hpos⟩ := List.mem_filterMap.1 htarget
      obtain rfl := Option.some.inj (hq.symm.trans (getElem?_of_position? hpos))
      exact .inr ht
  · intro h
    obtain ⟨s, hs, hway⟩ := h
    obtain ⟨p, hp, hunit⟩ := exists_position_of_stmt? hb.nodup hs
    obtain ⟨hf, hnext⟩ | ht := hway
    · rw [successor?_of_getElem? hb.nodup hp] at hnext
      exact ⟨p, p + 1, hp, hnext, mem_succs_of_successor? hunit hf hnext⟩
    · obtain ⟨q, hq⟩ :=
        List.getElem?_of_mem (hb.targets _ (List.mem_of_getElem? hunit) w ht)
      exact ⟨p, q, hp, hq, mem_succs_of_targets hb.nodup hunit ht hq⟩

theorem raisesTo_iff (hb : b.Coherent) :
    b.RaisesTo u w ↔ b.Throws u ∧ w ∈ (b.clauses u).map Prod.fst := by
  have hclauses : w ∈ (b.clauses u).map Prod.fst ↔ ∃ t ∈ b.around u, t.handler = w := by
    simp [clauses, Trap.clause]
  rw [hclauses]
  constructor
  · intro h
    obtain ⟨p, q, hp, hq, hedge⟩ := h
    obtain ⟨v, hv, rfl⟩ := unit_of_id hp
    rw [catches_flowGraph hv, exceptionalSuccessors] at hedge
    split at hedge
    · next hthrow =>
      obtain ⟨t, ht, hpos⟩ := List.mem_filterMap.1 (List.mem_eraseDups.1 hedge)
      obtain rfl := Option.some.inj (hq.symm.trans (getElem?_of_position? hpos))
      obtain ⟨ht, hcovers⟩ := List.mem_filter.1 ht
      refine ⟨⟨v, List.mem_of_getElem? hv, rfl, hthrow⟩, t, List.mem_filter.2 ⟨ht, ?_⟩, rfl⟩
      rwa [(position?_eq_some hb.nodup).2 hp, Option.any_some]
    · cases hedge
  · intro h
    obtain ⟨⟨v, hv, rfl, hthrow⟩, t, ht, rfl⟩ := h
    obtain ⟨p, hp⟩ := List.getElem?_of_mem hv
    obtain ⟨q, hq⟩ := List.getElem?_of_mem (hb.handlers t (List.mem_filter.1 ht).1)
    exact ⟨p, q, id_of_unit hp, hq, mem_catches_of_around hb.nodup hp hthrow ht hq⟩

def Steps (b : Body) (u w : UnitId) : Prop := b.FlowsTo u w ∨ b.RaisesTo u w

/-- Control reaches the unit from the first one. -/
def Reached (b : Body) (u : UnitId) : Prop :=
  ∃ e, b.first? = some e ∧ Relation.ReflTransGen b.Steps e u

theorem reached_first (h : b.first? = some u) : b.Reached u := ⟨u, h, .refl⟩

theorem Reached.step (h : b.Reached u) (hw : b.Steps u w) : b.Reached w := by
  obtain ⟨e, he, hpath⟩ := h
  exact ⟨e, he, hpath.tail hw⟩

theorem Steps.mem_ids (h : b.Steps u w) : w ∈ b.ids := by
  obtain ⟨-, q, -, hq, -⟩ | ⟨-, q, -, hq, -⟩ := h <;> exact List.mem_of_getElem? hq

theorem Reached.mem_ids (h : b.Reached u) : u ∈ b.ids := by
  obtain ⟨e, he, hpath⟩ := h
  cases hpath with
  | refl =>
    rw [first?_eq] at he
    exact List.mem_of_getElem? he
  | tail _ hlast => exact hlast.mem_ids

theorem Reached.target {v : CodeUnit} (h : b.Reached v.id) (hb : b.Coherent) (hv : v ∈ b.units)
    (hw : w ∈ v.stmt.targets) : b.Reached w :=
  h.step (.inl ((flowsTo_iff hb).2 ⟨v.stmt, (stmt?_eq_some hb.nodup).2 hv, .inr hw⟩))

theorem steps_iff (hn : b.ids.Nodup) (hp : b.ids[p]? = some u) (hq : b.ids[q]? = some w) :
    b.Steps u w ↔ b.Leads p q := by
  constructor
  · rintro (⟨p', q', hp', hq', hedge⟩ | ⟨p', q', hp', hq', hedge⟩)
    · rw [index_unique hn hp hp', index_unique hn hq hq']
      exact .inl hedge
    · rw [index_unique hn hp hp', index_unique hn hq hq']
      exact .inr hedge
  · exact Or.imp (⟨p, q, hp, hq, ·⟩) (⟨p, q, hp, hq, ·⟩)

theorem reached_iff_mem_reachable (hn : b.ids.Nodup) (hp : b.ids[p]? = some u) :
    b.Reached u ↔ p ∈ b.flowGraph.reachable := by
  have hsearch : p ∈ b.flowGraph.reachable ↔
      0 < b.size ∧ Relation.ReflTransGen b.Leads 0 p := by
    rw [FlowGraph.reachable, mem_explore_iff fun q _ r hr ↦
      mem_positions.2 (Leads.lt (List.mem_append.1 hr)).2]
    simp only [List.mem_singleton, exists_eq_left, mem_positions, List.mem_append]
    rfl
  rw [hsearch]
  constructor
  · intro h
    obtain ⟨e, he, hpath⟩ := h
    rw [first?_eq] at he
    refine ⟨lt_size_of_getElem? he, ?_⟩
    clear hsearch
    induction hpath generalizing p with
    | refl =>
      rw [index_unique hn hp he]
    | @tail v w hv hlast ih =>
      have hv : b.Reached v := ⟨e, (first?_eq b).trans he, hv⟩
      obtain ⟨q, hq⟩ := List.getElem?_of_mem hv.mem_ids
      exact (ih hq).tail ((steps_iff hn hq hp).1 hlast)
  · intro h
    obtain ⟨hpos, hpath⟩ := h
    clear hsearch
    induction hpath generalizing u with
    | refl => exact reached_first ((first?_eq b).trans hp)
    | @tail q p hq hlast ih =>
      obtain ⟨v, hv⟩ := exists_id_of_lt hlast.lt.1
      exact (ih hv).step ((steps_iff hn hv hp).2 hlast)

/-- The units to keep stay, in order and as they were, those that may throw under the same
clauses. -/
structure Spares (keep : UnitId → Prop) (b c : Body) : Prop where
  order : c.ids.Sublist b.ids
  kept : ∀ u ∈ b.ids, keep u → u ∈ c.ids
  stmt : ∀ u, keep u → c.stmt? u = b.stmt? u
  clauses : ∀ u, keep u → b.Throws u → c.clauses u = b.clauses u

theorem throws_iff (hn : b.ids.Nodup) :
    b.Throws u ↔ ∃ s, b.stmt? u = some s ∧ s.mayThrow = true := by
  constructor
  · intro h
    obtain ⟨v, hv, rfl, hthrow⟩ := h
    exact ⟨v.stmt, (stmt?_eq_some hn).2 hv, hthrow⟩
  · intro h
    obtain ⟨s, hs, hthrow⟩ := h
    exact ⟨⟨u, s⟩, (stmt?_eq_some hn).1 hs, rfl, hthrow⟩

namespace Spares

theorem throws_iff (h : Spares keep b c) (hn : b.ids.Nodup) (hu : keep u) :
    c.Throws u ↔ b.Throws u := by
  rw [Body.throws_iff hn, Body.throws_iff (hn.sublist h.order), h.stmt u hu]

theorem of_ids (hi : c.ids = b.ids) (hs : ∀ u, keep u → c.stmt? u = b.stmt? u)
    (hc : ∀ u, c.clauses u = b.clauses u) : Spares keep b c :=
  ⟨hi ▸ .refl _, fun _ hu _ ↦ hi ▸ hu, hs, fun u _ _ ↦ hc u⟩

theorem trans (h : Spares keep b c) (h' : Spares keep c d) (hn : b.ids.Nodup) :
    Spares keep b d where
  order := h'.order.trans h.order
  kept u hu hk := h'.kept u (h.kept u hu hk) hk
  stmt u hk := (h'.stmt u hk).trans (h.stmt u hk)
  clauses u hk ht := (h'.clauses u hk ((h.throws_iff hn hk).2 ht)).trans (h.clauses u hk ht)

section Reached

variable (h : Spares b.Reached b c) (hb : b.Coherent) (hc : c.Coherent)

include h hb

/-- What comes next to a unit that control falls through is reached as well, so it stays next. -/
theorem successor?_iff (hu : b.Reached u) (hs : b.stmt? u = some s)
    (hf : s.fallsThrough = true) : c.successor? u = some w ↔ b.successor? u = some w := by
  have hcn := hb.nodup.sublist h.order
  have hkept {z : UnitId} (hz : b.Reached z) : z ∈ c.ids := h.kept z hz.mem_ids hz
  have hforth {z : UnitId} (hz : b.successor? u = some z) : c.successor? u = some z := by
    have hnext : b.Reached z :=
      hu.step (.inl ((flowsTo_iff hb).2 ⟨s, hs, .inl ⟨hf, hz⟩⟩))
    obtain ⟨p, hp, hq⟩ := (successor?_eq_some hb.nodup).1 hz
    exact (successor?_eq_some hcn).2
      (exists_neighbours_of_sublist hb.nodup h.order hp hq (hkept hu) (hkept hnext))
  refine ⟨fun hw ↦ ?_, hforth⟩
  cases hz : b.successor? u with
  | some z => exact hz ▸ (hforth hz).symm.trans hw
  | none =>
    have hlast := (successor?_eq_none_iff hb.nodup hu.mem_ids).1 hz
    have hlast' := getLast?_of_sublist hb.nodup h.order hlast (hkept hu)
    rw [(successor?_eq_none_iff hcn (hkept hu)).2 hlast'] at hw
    cases hw

theorem first?_eq : c.first? = b.first? := by
  have hhead (d : Body) : d.first? = d.ids.head? := by rw [Body.first?_eq, List.head?_eq_getElem?]
  rw [hhead, hhead]
  cases he : b.ids.head? with
  | none =>
    have hnil : b.ids = [] := List.head?_eq_none_iff.1 he
    rw [List.head?_eq_none_iff]
    exact List.sublist_nil.1 (hnil ▸ h.order)
  | some e =>
    have hreached := reached_first ((hhead b).trans he)
    exact head?_of_sublist hb.nodup h.order he (h.kept e hreached.mem_ids hreached)

include hc

theorem flowsTo_iff (hu : b.Reached u) : c.FlowsTo u w ↔ b.FlowsTo u w := by
  rw [Body.flowsTo_iff hb, Body.flowsTo_iff hc, h.stmt u hu]
  refine exists_congr fun s ↦ and_congr_right fun hs ↦ or_congr_left (and_congr_right fun hf ↦ ?_)
  exact h.successor?_iff hb hu hs hf

theorem raisesTo_iff (hu : b.Reached u) : c.RaisesTo u w ↔ b.RaisesTo u w := by
  rw [Body.raisesTo_iff hb, Body.raisesTo_iff hc, h.throws_iff hb.nodup hu]
  exact and_congr_right fun ht ↦ by rw [h.clauses u hu ht]

theorem reached_iff : c.Reached u ↔ b.Reached u := by
  have hstep {u w : UnitId} (hu : b.Reached u) : c.Steps u w ↔ b.Steps u w :=
    or_congr (h.flowsTo_iff hb hc hu) (h.raisesTo_iff hb hc hu)
  constructor
  · intro hu
    obtain ⟨e, he, hpath⟩ := hu
    induction hpath with
    | refl => exact reached_first (h.first?_eq hb ▸ he)
    | tail _ hlast ih => exact ih.step ((hstep ih).1 hlast)
  · intro hu
    obtain ⟨e, he, hpath⟩ := hu
    have hboth : b.Reached u ∧ c.Reached u := by
      induction hpath with
      | refl => exact ⟨reached_first he, reached_first ((h.first?_eq hb).trans he)⟩
      | tail _ hlast ih => exact ⟨ih.1.step hlast, ih.2.step ((hstep ih.1).2 hlast)⟩
    exact hboth.2

end Reached

end Spares

end Body

end ThreeAddress
