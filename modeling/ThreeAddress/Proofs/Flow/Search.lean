import Mathlib.Logic.Relation
import ThreeAddress.Flow.Graph
import ThreeAddress.Proofs.Body.Position

namespace ThreeAddress

section Explore

variable {α : Type} [DecidableEq α] {next : α → List α} {a z : α}

theorem mem_explore_of_pending (unseen pending : List α) (hp : a ∈ pending) (hu : a ∈ unseen) :
    a ∈ explore next unseen pending := by
  fun_induction explore next unseen pending with
  | case1 => simp at hp
  | case2 unseen first rest hf ih =>
    by_cases he : a = first
    · exact he ▸ List.mem_cons_self
    · refine List.mem_cons_of_mem _ (ih ?_ ?_)
      · rcases List.mem_cons.1 hp with h | h
        · exact absurd h he
        · exact List.mem_append_right _ h
      · exact (List.mem_erase_of_ne he).2 hu
  | case3 unseen first rest hf ih =>
    rcases List.mem_cons.1 hp with h | h
    · exact absurd (h ▸ hu) hf
    · exact ih h hu

theorem mem_explore_of_next (unseen pending : List α) (ha : a ∈ explore next unseen pending)
    (hn : z ∈ next a) (hu : z ∈ unseen) : z ∈ explore next unseen pending := by
  fun_induction explore next unseen pending with
  | case1 => simp at ha
  | case2 unseen first rest hf ih =>
    by_cases he : z = first
    · exact he ▸ List.mem_cons_self
    · have hz : z ∈ unseen.erase first := (List.mem_erase_of_ne he).2 hu
      apply List.mem_cons_of_mem
      rcases List.mem_cons.1 ha with rfl | ha
      · exact mem_explore_of_pending _ _ (List.mem_append_left _ hn) hz
      · exact ih ha hz
  | case3 unseen first rest hf ih => exact ih ha hu

theorem exists_path_of_mem_explore (unseen pending : List α)
    (h : z ∈ explore next unseen pending) :
    ∃ a ∈ pending, a ∈ unseen ∧ Relation.ReflTransGen (fun p q ↦ q ∈ next p) a z := by
  fun_induction explore next unseen pending with
  | case1 => simp at h
  | case2 unseen first rest hf ih =>
    obtain rfl | h := List.mem_cons.1 h
    · exact ⟨z, List.mem_cons_self, hf, .refl⟩
    obtain ⟨a, ha, hu, hpath⟩ := ih h
    obtain ha | ha := List.mem_append.1 ha
    · exact ⟨first, List.mem_cons_self, hf, .head ha hpath⟩
    · exact ⟨a, List.mem_cons_of_mem _ ha, List.mem_of_mem_erase hu, hpath⟩
  | case3 unseen first rest hf ih =>
    obtain ⟨a, ha, hu, hpath⟩ := ih h
    exact ⟨a, List.mem_cons_of_mem _ ha, hu, hpath⟩

/-- Where no edge leads out of the nodes to see, the search finds what paths lead to. -/
theorem mem_explore_iff {unseen pending : List α}
    (hclosed : ∀ a ∈ unseen, ∀ z ∈ next a, z ∈ unseen) : z ∈ explore next unseen pending ↔
      ∃ a ∈ pending, a ∈ unseen ∧ Relation.ReflTransGen (fun p q ↦ q ∈ next p) a z := by
  refine ⟨exists_path_of_mem_explore unseen pending, fun h ↦ ?_⟩
  obtain ⟨a, ha, hu, hpath⟩ := h
  have hboth : z ∈ unseen ∧ z ∈ explore next unseen pending := by
    induction hpath with
    | refl => exact ⟨hu, mem_explore_of_pending unseen pending ha hu⟩
    | tail _ hstep ih =>
      have hz := hclosed _ ih.1 _ hstep
      exact ⟨hz, mem_explore_of_next unseen pending ih.2 hstep hz⟩
  exact hboth.2

end Explore

namespace Body

variable {b : Body} {p q : Nat} {u : CodeUnit}

theorem succs_flowGraph (hu : b.units[p]? = some u) :
    b.flowGraph.succs p = b.normalSuccessors p u.stmt := by
  simp [FlowGraph.succs, flowGraph, List.getElem?_zipIdx, hu]

theorem mem_positions : p ∈ b.flowGraph.positions ↔ p < b.size := by
  simp [FlowGraph.positions, FlowGraph.size, flowGraph]

theorem zero_mem_reachable (h : 0 < b.size) : 0 ∈ b.flowGraph.reachable :=
  mem_explore_of_pending _ _ List.mem_cons_self (mem_positions.2 h)

theorem mem_reachable_of_succs (hp : p ∈ b.flowGraph.reachable) (hq : q ∈ b.flowGraph.succs p)
    (hlt : q < b.size) : q ∈ b.flowGraph.reachable :=
  mem_explore_of_next _ _ hp (List.mem_append_left _ hq) (mem_positions.2 hlt)

theorem succ_mem_reachable (hp : p ∈ b.flowGraph.reachable) (hu : b.units[p]? = some u)
    (hf : u.stmt.fallsThrough = true) (hlt : p + 1 < b.size) :
    p + 1 ∈ b.flowGraph.reachable := by
  refine mem_reachable_of_succs hp ?_ hlt
  rw [succs_flowGraph hu, normalSuccessors, List.mem_eraseDups]
  simp [hf, hlt]

end Body

end ThreeAddress
