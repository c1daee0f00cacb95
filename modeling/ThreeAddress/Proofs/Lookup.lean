namespace ThreeAddress

variable {α β γ : Type} [DecidableEq α] {key : α}

theorem lookup_filter_ne (xs : List (α × β)) (name : α) :
    (xs.filter (·.1 ≠ name)).lookup key = if name = key then none else xs.lookup key := by
  induction xs with
  | nil => simp
  | cons x xs ih =>
    obtain ⟨first, value⟩ := x
    by_cases hk : first = name
    · subst hk
      by_cases hm : first = key
      · simpa [hm] using ih
      · have hb : (key == first) = false := beq_eq_false_iff_ne.2 (Ne.symm hm)
        simpa [hm, List.lookup_cons, hb] using ih
    · have hf : ((first, value) :: xs).filter (·.1 ≠ name) =
          (first, value) :: xs.filter (·.1 ≠ name) := by simp [hk]
      rw [hf, List.lookup_cons, List.lookup_cons, ih]
      by_cases hm : key = first
      · simp [hm, Ne.symm hk]
      · simp [beq_eq_false_iff_ne.2 hm]

theorem lookup_map_value (f : β → γ) (xs : List (α × β)) :
    (xs.map fun x ↦ (x.1, f x.2)).lookup key = (xs.lookup key).map f := by
  induction xs with
  | nil => rfl
  | cons x xs ih =>
    rw [List.map_cons, List.lookup_cons, List.lookup_cons, ih]
    split <;> rfl

end ThreeAddress
