import Mathlib.Logic.Function.Iterate
import ThreeAddress.Flow.Worklist

namespace ThreeAddress

theorem mem_enqueue {queue positions : List Nat} {p : Nat} :
    p ∈ enqueue queue positions ↔ p ∈ queue ∨ p ∈ positions := by
  unfold enqueue
  induction positions generalizing queue with
  | nil => simp
  | cons q positions ih =>
    rw [List.foldl_cons, ih, List.mem_cons]
    split
    · next hq =>
      refine ⟨Or.imp_right .inr, fun h ↦ h.elim .inl fun h ↦ h.elim (fun hp ↦ ?_) .inr⟩
      exact .inl (hp ▸ hq)
    · rw [List.mem_append, List.mem_singleton, or_assoc]

namespace DataFlow

variable {f : DataFlow} {rows : List Facts} {p : Nat} {queue : List Nat}

/-- The readers of a position see when it has changed: without news, or for who is no reader, the
facts at the position do not matter. -/
def Informs (f : DataFlow) : Prop :=
  ∀ (k l : Nat → Facts) (p q : Nat), (∀ r, r ≠ q → k r = l r) →
    (p ∈ f.readers q → f.isNews (k q) (l q) = false) → f.derive k p = f.derive l p

def SettledAt (f : DataFlow) (rows : List Facts) (p : Nat) : Prop :=
  factsAt rows p = f.derive (factsAt rows) p

@[simp] theorem length_visit : (f.visit rows p).length = rows.length := List.length_set

theorem factsAt_visit_self (hp : p < rows.length) :
    factsAt (f.visit rows p) p = f.derive (factsAt rows) p := by
  rw [visit, factsAt_set, if_pos ⟨rfl, hp⟩]

theorem factsAt_visit_of_ne {q : Nat} (h : q ≠ p) :
    factsAt (f.visit rows p) q = factsAt rows q := by
  rw [visit, factsAt_set, if_neg fun hq ↦ h hq.1.symm]

theorem settledAt_visit (hf : f.Informs) (hsize : rows.length = f.size)
    (h : ∀ q < f.size, q ∈ p :: queue ∨ f.SettledAt rows q) :
    ∀ q < f.size, q ∈ f.wake rows (f.visit rows p) p queue ∨ f.SettledAt (f.visit rows p) q := by
  intro q hq
  rw [wake]
  by_cases hread : q ∈ f.readers p ∧ f.isNews (factsAt rows p) (factsAt (f.visit rows p) p) = true
  · rw [if_pos hread.2, mem_enqueue]
    exact .inl (.inr hread.1)
  · -- the equation of such a position gives the same before and after the visit
    have hsame : f.derive (factsAt (f.visit rows p)) q = f.derive (factsAt rows) q := by
      refine (hf _ _ q p (fun r hr ↦ (factsAt_visit_of_ne hr).symm) fun hr ↦ ?_).symm
      exact Bool.eq_false_iff.2 fun hnews ↦ hread ⟨hr, hnews⟩
    by_cases he : q = p
    · right
      rw [SettledAt, hsame, he]
      exact factsAt_visit_self (by omega)
    · obtain hmem | hset := h q hq
      · left
        have hmem := (List.mem_cons.1 hmem).resolve_left he
        split
        · exact mem_enqueue.2 (.inl hmem)
        · exact hmem
      · right
        rw [SettledAt, hsame, factsAt_visit_of_ne he]
        exact hset

theorem settledAt_settle (hf : f.Informs) (hrows : f.Founded rows) (hsize : rows.length = f.size)
    (h : ∀ q < f.size, q ∈ queue ∨ f.SettledAt rows q) :
    ∀ q < f.size, f.SettledAt (f.settle rows hrows queue) q := by
  fun_induction settle f rows hrows queue with
  | case1 rows hrows => exact fun q hq ↦ (h q hq).resolve_left List.not_mem_nil
  | case2 rows hrows p queue next ih =>
    exact ih (length_visit.trans hsize) (settledAt_visit hf hsize h)

theorem settledAt_solve (hf : f.Informs) (h : ∀ q < f.size, q ∈ queue) :
    ∀ q < f.size, f.SettledAt (f.solve queue) q :=
  settledAt_settle hf f.founded_start List.length_replicate fun q hq ↦ .inl (h q hq)

theorem length_settle (hrows : f.Founded rows) : (f.settle rows hrows queue).length = rows.length := by
  fun_induction settle f rows hrows queue with
  | case1 => rfl
  | case2 rows hrows p queue next ih => exact ih.trans length_visit

theorem length_solve : (f.solve queue).length = f.size :=
  (length_settle f.founded_start).trans List.length_replicate

theorem factsAt_solve_of_le (h : f.size ≤ p) : factsAt (f.solve queue) p = {} := by
  rw [factsAt, List.getD_eq_getElem?_getD, List.getElem?_eq_none (length_solve ▸ h)]
  rfl

theorem forall_settle {P : Nat → Facts → Prop}
    (hderive : ∀ k : Nat → Facts, (∀ q, P q (k q)) → ∀ p, P p (f.derive k p))
    (hrows : f.Founded rows) (h : ∀ q, P q (factsAt rows q)) :
    ∀ q, P q (factsAt (f.settle rows hrows queue) q) := by
  fun_induction settle f rows hrows queue with
  | case1 => exact h
  | case2 rows hrows p queue next ih =>
    refine ih fun q ↦ ?_
    show P q (factsAt (f.visit rows p) q)
    rw [visit, factsAt_set]
    split
    · next hq => exact hq.1 ▸ hderive _ h p
    · exact h q

theorem forall_solve {P : Nat → Facts → Prop} (hempty : ∀ q, P q {})
    (hderive : ∀ k : Nat → Facts, (∀ q, P q (k q)) → ∀ p, P p (f.derive k p)) (q : Nat) :
    P q (factsAt (f.solve queue) q) :=
  forall_settle hderive f.founded_start (fun q ↦ (factsAt_replicate f.size q).symm ▸ hempty q) q

def step (f : DataFlow) : List Facts × List Nat → List Facts × List Nat
  | (rows, []) => (rows, [])
  | (rows, p :: queue) => (f.visit rows p, f.wake rows (f.visit rows p) p queue)

theorem exists_iterate_settle (hrows : f.Founded rows) :
    ∃ n, f.step^[n] (rows, queue) = (f.settle rows hrows queue, []) := by
  fun_induction settle f rows hrows queue with
  | case1 => exact ⟨0, rfl⟩
  | case2 rows hrows p queue next ih =>
    obtain ⟨n, hn⟩ := ih
    exact ⟨n + 1, hn⟩

/-- From nothing known, some number of turns leaves these facts and no position that waits. -/
def Ends (f : DataFlow) (queue : List Nat) (rows : List Facts) : Prop :=
  ∃ n, f.step^[n] (List.replicate f.size {}, queue) = (rows, [])

theorem ends_solve (f : DataFlow) (queue : List Nat) : f.Ends queue (f.solve queue) :=
  exists_iterate_settle f.founded_start

end DataFlow

end ThreeAddress
