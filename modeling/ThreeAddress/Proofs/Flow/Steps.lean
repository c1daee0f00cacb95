import ThreeAddress.Proofs.Body.Coherence
import ThreeAddress.Proofs.Flow.Search

namespace ThreeAddress

namespace Body

variable {b : Body} {x : LocalId} {d p q : Nat} {u : CodeUnit}

/-- A step of control, to a unit that may follow or to a handler. -/
def Leads (b : Body) (p q : Nat) : Prop := q ∈ b.flowGraph.succs p ∨ q ∈ b.flowGraph.catches p

/-- A step that completes no definition of `x`: a unit that defines `x` is left by an exceptional
edge. -/
def Keeps (b : Body) (x : LocalId) (p q : Nat) : Prop :=
  q ∈ b.flowGraph.succs p ∧ (b.stmtAt? p).bind Stmt.def? ≠ some x ∨ q ∈ b.flowGraph.catches p

def Reads (b : Body) (p : Nat) (x : LocalId) : Prop := ∃ s, b.stmtAt? p = some s ∧ x ∈ s.uses

def Defines (b : Body) (p : Nat) (x : LocalId) : Prop := (b.stmtAt? p).bind Stmt.def? = some x

theorem catches_flowGraph (hu : b.units[p]? = some u) :
    b.flowGraph.catches p = b.exceptionalSuccessors p u.stmt := by
  simp [FlowGraph.catches, flowGraph, List.getElem?_zipIdx, hu]

theorem lt_size_of_position? {v : UnitId} (h : b.position? v = some p) : p < b.size :=
  lt_size_of_getElem? (getElem?_of_position? h)

theorem mem_normalSuccessors_lt {s : Stmt} (h : q ∈ b.normalSuccessors p s) : q < b.size := by
  rw [normalSuccessors, List.mem_eraseDups, List.mem_append] at h
  obtain h | h := h
  · split at h
    · next hnext =>
      rw [List.mem_singleton.1 h]
      simp only [Bool.and_eq_true, decide_eq_true_eq] at hnext
      exact hnext.2
    · cases h
  · obtain ⟨t, -, ht⟩ := List.mem_filterMap.1 h
    exact lt_size_of_position? ht

theorem mem_exceptionalSuccessors_lt {s : Stmt} (h : q ∈ b.exceptionalSuccessors p s) :
    q < b.size := by
  unfold exceptionalSuccessors at h
  split at h
  · obtain ⟨t, -, ht⟩ := List.mem_filterMap.1 (List.mem_eraseDups.1 h)
    exact lt_size_of_position? ht
  · cases h

theorem Leads.lt (h : b.Leads p q) : p < b.size ∧ q < b.size := by
  by_cases hp : p < b.size
  · obtain ⟨u, hu⟩ := exists_unit_of_lt hp
    rw [Leads, succs_flowGraph hu, catches_flowGraph hu] at h
    exact ⟨hp, h.elim mem_normalSuccessors_lt mem_exceptionalSuccessors_lt⟩
  · have hnone : b.units[p]? = none := List.getElem?_eq_none (Nat.le_of_not_lt hp)
    simp [Leads, FlowGraph.succs, FlowGraph.catches, flowGraph, List.getElem?_zipIdx, hnone] at h

theorem Keeps.leads (h : b.Keeps x p q) : b.Leads p q := h.imp_left And.left

theorem leads_of_keeps (h : Relation.ReflTransGen (b.Keeps x) p q) :
    Relation.ReflTransGen b.Leads p q :=
  Relation.ReflTransGen.mono (fun _ _ ↦ Keeps.leads) _ _ h

theorem getD_defined (b : Body) (p : Nat) :
    (b.units.map fun u ↦ u.stmt.def?).getD p none = (b.stmtAt? p).bind Stmt.def? := by
  rw [stmtAt?, List.getD_eq_getElem?_getD, List.getElem?_map]
  cases b.units[p]? <;> rfl

theorem Defines.lt (h : b.Defines p x) : p < b.size := by
  obtain ⟨s, hs, -⟩ := Option.bind_eq_some_iff.1 h
  exact lt_size_of_stmtAt? hs

theorem Reads.mentioned (h : b.Reads p x) : x ∈ b.mentioned := by
  obtain ⟨s, hs, hx⟩ := h
  obtain ⟨u, hu, rfl⟩ := unit_of_stmtAt? hs
  exact mem_mentioned.2 ⟨u, List.mem_of_getElem? hu, List.mem_append_left _ hx⟩

theorem size_pos_of_mentioned (h : x ∈ b.mentioned) : 0 < b.size := by
  obtain ⟨u, hu, -⟩ := mem_mentioned.1 h
  exact List.length_pos_of_mem hu

theorem Reads.lt (h : b.Reads p x) : p < b.size := by
  obtain ⟨s, hs, -⟩ := h
  exact lt_size_of_stmtAt? hs

end Body

end ThreeAddress
