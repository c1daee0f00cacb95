import ThreeAddress.Comparison

namespace ThreeAddress

namespace Floating

variable {f : FloatFormat} {x y : Floating} {m n : Nat} {negative : Bool} {q : Int}

theorem order?_eq_none : x.order? y = none ↔ x = nan ∨ y = nan := by
  cases x <;> cases y <;> simp [order?]

theorem roundMagnitude_le : roundMagnitude f m q ≤ f.specialField <<< f.fractionBits := by
  unfold roundMagnitude
  split
  · exact Nat.zero_le _
  · exact Nat.min_le_right _ _

theorem decode_eq_nan : decode f n = nan ↔
    (n >>> f.fractionBits) % (1 <<< f.exponentBits) = f.specialField ∧
      n % (1 <<< f.fractionBits) ≠ 0 := by
  simp only [decode]
  split
  · split <;> simp_all
  · split <;> simp_all

theorem signBit_eq (f : FloatFormat) (negative : Bool) : signBit f negative =
    negative.toNat * (1 <<< f.exponentBits) * (1 <<< f.fractionBits) := by
  cases negative <;> simp [signBit, Nat.shiftLeft_eq, Nat.pow_add, Nat.mul_comm]

/-- No pattern up to that of infinity is one of a NaN: a special exponent leaves no room for a
fraction. -/
theorem decode_ne_nan (hn : n ≤ f.specialField <<< f.fractionBits) :
    decode f (signBit f negative + n) ≠ nan := by
  intro hnan
  obtain ⟨hexponent, hfraction⟩ := decode_eq_nan.1 hnan
  -- The sign bit is a multiple of both moduli, so the two fields are those of `n`.
  rw [signBit_eq, Nat.add_comm] at hexponent hfraction
  simp only [Nat.shiftLeft_eq, Nat.one_mul, Nat.shiftRight_eq_div_pow] at hn hexponent hfraction
  rw [Nat.add_mul_mod_self_right] at hfraction
  rw [Nat.add_mul_div_right _ _ (Nat.two_pow_pos _), Nat.add_mul_mod_self_right] at hexponent
  have hfield : f.specialField ≤ n / 2 ^ f.fractionBits := hexponent ▸ Nat.mod_le _ _
  have hle : f.specialField * 2 ^ f.fractionBits ≤ n :=
    (Nat.le_div_iff_mul_le (Nat.two_pow_pos _)).1 hfield
  have heq : n = f.specialField * 2 ^ f.fractionBits := Nat.le_antisymm hn hle
  exact hfraction (heq ▸ Nat.mul_mod_left _ _)

theorem decode_encode_finite : decode f (encode f (finite negative m q)) ≠ nan :=
  decode_ne_nan roundMagnitude_le

end Floating

namespace Constant

variable {c d : Constant} {x y : Floating}

/-- Both are numbers, and one is a NaN. -/
def Unordered (c d : Constant) : Prop :=
  (c.real?.isSome = true ∧ d.real?.isSome = true) ∧ (c.isNaN = true ∨ d.isNaN = true)

theorem integer?_of_isNaN (h : c.isNaN = true) : c.integer? = none := by
  cases c <;> simp_all [isNaN, floating?, integer?]

theorem real?_eq_nan : c.real? = some .nan ↔ c.isNaN = true := by
  cases c <;>
    simp [real?, isNaN, floating?, integer?, Floating.ofInt, Floating.decode_encode_finite]

theorem unordered_iff (hc : c.real? = some x) (hd : d.real? = some y) :
    c.Unordered d ↔ x.order? y = none := by
  simp [Unordered, ← real?_eq_nan, hc, hd, Floating.order?_eq_none]

theorem Unordered.integer? (h : c.Unordered d) : c.integer? = none ∨ d.integer? = none :=
  h.2.imp integer?_of_isNaN integer?_of_isNaN

end Constant

namespace CompareOp

variable {op : CompareOp} {c d : Constant} {x y : Floating}

theorem ofEquality_negate (op : CompareOp) (same : Bool) :
    op.negate.ofEquality same = (op.ofEquality same).map (!·) := by
  cases op <;> simp [negate, ofEquality]

theorem compare?_of_integers {i j : Int64} (hc : c.integer? = some i) (hd : d.integer? = some j) :
    op.compare? c d = some (op.holds (compare i.toInt j.toInt)) := by
  cases c <;> cases d <;> simp_all [compare?, Constant.integer?]

theorem compare?_of_reals (hi : c.integer? = none ∨ d.integer? = none) (hc : c.real? = some x)
    (hd : d.real? = some y) :
    op.compare? c d = some ((x.order? y).elim (op == ne) op.holds) := by
  unfold compare?
  split
  · cases hc
  · cases hc
  · split
    · simp_all
    · simp only [hc, hd]
      cases x.order? y <;> rfl

theorem compare?_of_not_numbers (h : c.real? = none ∨ d.real? = none) :
    (∃ same, ∀ op, compare? op c d = op.ofEquality same) ∨ ∀ op, compare? op c d = none := by
  unfold compare?
  split
  · exact .inl ⟨true, fun _ ↦ rfl⟩
  · exact .inl ⟨_, fun _ ↦ rfl⟩
  · have hi : c.integer? = none ∨ d.integer? = none := by
      simp only [Constant.real?, Option.or_eq_none_iff, Option.map_eq_none_iff] at h
      exact h.imp And.right And.right
    right
    intro op
    split
    · simp_all
    · rcases h with h | h <;> simp [h]

theorem compare?_of_numbers (hc : c.real? = some x) (hd : d.real? = some y) :
    (c.Unordered d ∧ ∀ op, compare? op c d = some (op == ne)) ∨
      ¬c.Unordered d ∧ ∃ o, ∀ op, compare? op c d = some (op.holds o) := by
  by_cases hintegers : c.integer? = none ∨ d.integer? = none
  · have houtcome : ∀ op, compare? op c d = some ((x.order? y).elim (op == ne) op.holds) :=
      fun _ ↦ compare?_of_reals hintegers hc hd
    rw [Constant.unordered_iff hc hd]
    cases ho : x.order? y with
    | none => exact .inl ⟨rfl, by simpa [ho] using houtcome⟩
    | some o => exact .inr ⟨by simp, o, by simpa [ho] using houtcome⟩
  · obtain ⟨hi, hj⟩ := not_or.1 hintegers
    obtain ⟨i, hi⟩ := Option.ne_none_iff_exists'.1 hi
    obtain ⟨j, hj⟩ := Option.ne_none_iff_exists'.1 hj
    exact .inr ⟨fun h ↦ hintegers h.integer?, _, fun _ ↦ compare?_of_integers hi hj⟩

theorem compare?_kinds (c d : Constant) :
    (c.Unordered d ∧ ∀ op, compare? op c d = some (op == ne)) ∨
      ¬c.Unordered d ∧ ((∃ same, ∀ op, compare? op c d = op.ofEquality same) ∨
        (∃ o, ∀ op, compare? op c d = some (op.holds o)) ∨ ∀ op, compare? op c d = none) := by
  by_cases hnumbers : c.real? = none ∨ d.real? = none
  · refine .inr ⟨fun h ↦ ?_, (compare?_of_not_numbers hnumbers).imp_right .inr⟩
    rcases hnumbers with hc | hd
    · simp [Constant.Unordered, hc] at h
    · simp [Constant.Unordered, hd] at h
  · obtain ⟨hc, hd⟩ := not_or.1 hnumbers
    obtain ⟨x, hx⟩ := Option.ne_none_iff_exists'.1 hc
    obtain ⟨y, hy⟩ := Option.ne_none_iff_exists'.1 hd
    exact (compare?_of_numbers hx hy).imp_right fun h ↦ ⟨h.1, .inr (.inl h.2)⟩

end CompareOp

namespace Comparison

variable {c : Comparison}

def IsUnordered (c : Comparison) : Prop :=
  (c.op ≠ .eq ∧ c.op ≠ .ne) ∧ ∃ x y, c.left = .const x ∧ c.right = .const y ∧ x.Unordered y

theorem evaluate?_negated (h : ¬c.IsUnordered) : c.negated.evaluate? = c.evaluate?.map (!·) := by
  obtain ⟨op, left, right⟩ := c
  cases left with
  | var x => rfl
  | const x =>
    cases right with
    | var y => rfl
    | const y =>
      change op.negate.compare? x y = (op.compare? x y).map (!·)
      rcases CompareOp.compare?_kinds x y with ⟨hnan, hany⟩ | ⟨-, ⟨same, hany⟩ | ⟨o, hany⟩ | hany⟩
      · have hop : op = .eq ∨ op = .ne := Decidable.byContradiction fun hop ↦
          h ⟨not_or.1 hop, x, y, rfl, rfl, hnan⟩
        rw [hany, hany]
        rcases hop with rfl | rfl <;> rfl
      · rw [hany, hany, CompareOp.ofEquality_negate]
      · rw [hany, hany, CompareOp.holds_negate]
        rfl
      · rw [hany, hany]
        rfl

theorem evaluate?_of_isUnordered (h : c.IsUnordered) :
    c.evaluate? = some false ∧ c.negated.evaluate? = some false := by
  obtain ⟨op, left, right⟩ := c
  obtain ⟨⟨heq, hne⟩, x, y, rfl, rfl, hnan⟩ := h
  rcases CompareOp.compare?_kinds x y with ⟨-, hany⟩ | ⟨hordered, -⟩
  · change op.compare? x y = _ ∧ op.negate.compare? x y = _
    rw [hany, hany]
    cases op <;> simp_all [CompareOp.negate]
  · exact absurd hnan hordered

/-- The negation of a comparison is undecided if the comparison is, and comes to the opposite
otherwise, unless an order of two numbers is asked for of which one is a NaN. Exactly then both come
to `false`. -/
theorem negation_exact_iff (c : Comparison) :
    (c.negated.evaluate? = none ↔ c.evaluate? = none) ∧
      (c.negated.evaluate? = c.evaluate?.map (!·) ↔ ¬c.IsUnordered) ∧
      (c.evaluate? = some false ∧ c.negated.evaluate? = some false ↔ c.IsUnordered) := by
  by_cases h : c.IsUnordered
  · obtain ⟨hc, hn⟩ := evaluate?_of_isUnordered h
    simp [h, hc, hn]
  · have hn := evaluate?_negated h
    refine ⟨by simp [hn], iff_of_true hn h, iff_of_false ?_ h⟩
    rintro ⟨hc, hfalse⟩
    simp [hn, hc] at hfalse

theorem negation_inexact_nan :
    let c : Comparison :=
      ⟨.lt, .const (.double 0x7ff8000000000000), .const (.double 0x3ff0000000000000)⟩
    c.evaluate? = some false ∧ c.negated.evaluate? = some false ∧
      c.negated.evaluate? ≠ c.evaluate?.map (!·) := by
  decide +kernel

end Comparison

end ThreeAddress
