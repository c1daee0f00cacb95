import Mathlib.Data.BitVec
import ThreeAddress.Expr

namespace ThreeAddress

namespace BinaryOp

variable {w : Nat} {op : BinaryOp} {a c : Constant}

def isShift : BinaryOp → Bool
  | shl | shr | ushr => true
  | _ => false

def isCommutative : BinaryOp → Bool
  | add | mul | and | or | xor => true
  | _ => false

def shift? (op : BinaryOp) (a : BitVec w) (amount : Nat) : Option (BitVec w) :=
  match op with
  | shl => some (a <<< (amount % w))
  | shr => some (a.sshiftRight (amount % w))
  | ushr => some (a >>> (amount % w))
  | _ => none

/-- What an operation on two words comes to. Results wrap, division cuts towards zero, and there is
none by zero. -/
def word? (op : BinaryOp) (a b : BitVec w) : Option (BitVec w) :=
  match op with
  | add => some (a + b)
  | sub => some (a - b)
  | mul => some (a * b)
  | div => if b = 0 then none else some (a.sdiv b)
  | rem => if b = 0 then none else some (a.srem b)
  | and => some (a &&& b)
  | or => some (a ||| b)
  | xor => some (a ^^^ b)
  | shl | shr | ushr => op.shift? a b.toNat

def identity? : BinaryOp → Option (BitVec w)
  | add | sub | or | xor | shl | shr | ushr => some 0
  | mul | div => some 1
  | and => some (BitVec.allOnes w)
  | rem => none

theorem shift?_zero (h : op.isShift = true) (a : BitVec w) : op.shift? a 0 = some a := by
  cases op <;> simp_all [isShift, shift?]

theorem word?_comm (h : op.isCommutative = true) (a b : BitVec w) :
    op.word? a b = op.word? b a := by
  cases op with
  | add => exact congrArg some (BitVec.add_comm a b)
  | mul => exact congrArg some (BitVec.mul_comm a b)
  | and => exact congrArg some (BitVec.and_comm a b)
  | or => exact congrArg some (BitVec.or_comm a b)
  | xor => exact congrArg some (BitVec.xor_comm a b)
  | _ => simp [isCommutative] at h

theorem one_ne_zero_of_width (hw : 0 < w) : (1 : BitVec w) ≠ 0 := by
  simpa using Nat.ne_zero_of_lt hw

/-- Every word is left as it is by an operation with the identity on its right. -/
theorem word?_identity {c : BitVec w} (hw : 0 < w) (h : op.identity? = some c) (a : BitVec w) :
    op.word? a c = some a := by
  cases op with
  | rem => simp [identity?] at h
  | div =>
    obtain rfl := Option.some.inj h
    simp only [word?, if_neg (one_ne_zero_of_width hw), Option.some.injEq]
    exact BitVec.sdiv_one
  | _ =>
    obtain rfl := Option.some.inj h
    simp [word?, shift?]

/-- No other word does that. A shift is an exception, by any multiple of the width. -/
theorem identity?_of_word? {c : BitVec w} (hop : op.isShift = false)
    (h : ∀ a, op.word? a c = some a) : op.identity? = some c := by
  cases op with
  | add | sub | or | xor =>
    obtain rfl : c = 0 := by simpa [word?] using h 0
    rfl
  | mul =>
    obtain rfl : c = 1 := by simpa [word?] using h 1
    rfl
  | and =>
    obtain rfl : c = BitVec.allOnes w := by simpa [word?] using h (BitVec.allOnes w)
    rfl
  | div =>
    have hself := h c
    have hne : c ≠ 0#w := by
      rintro rfl
      simp [word?] at hself
    obtain rfl : 1 = c := by simpa [word?, hne, BitVec.sdiv_self] using hself
    rfl
  | rem =>
    have hself : ¬c = 0#w ∧ 0#w = c := by simpa [word?, BitVec.srem_self] using h c
    exact absurd hself.2.symm hself.1
  | shl | shr | ushr => simp [isShift] at hop

theorem neg_one_ne_one (hw : 1 < w) : -(1 : BitVec w) ≠ 1 := by
  intro h
  have hmsb : (1#w).msb = true := by
    rw [← show -1#w = 1#w from h, BitVec.neg_one_eq_allOnes]
    exact BitVec.msb_allOnes (by omega)
  rw [BitVec.msb_one] at hmsb
  exact absurd (of_decide_eq_true hmsb) (by omega)

theorem isCommutative_of_word? {c : BitVec w} (hw : 1 < w) (h : ∀ a, op.word? c a = some a) :
    op.isCommutative = true := by
  have hzero := h 0
  have hone := h 1
  have hne := one_ne_zero_of_width (w := w) (by omega)
  cases op with
  | sub =>
    obtain rfl : c = 0 := by simpa [word?] using hzero
    exact absurd (by simpa [word?] using hone) (neg_one_ne_one hw)
  | div | rem => simp [word?] at hzero
  | shl | shr | ushr =>
    obtain rfl : c = 0 := by simpa [word?, shift?] using hzero
    exact absurd (by simpa [word?, shift?] using hone) hne.symm
  | _ => rfl

def bit? (op : BinaryOp) (a b : Bool) : Option Bool :=
  match op with
  | and => some (a && b)
  | or => some (a || b)
  | xor => some (a ^^ b)
  | _ => none

/-- What an operation on two constants comes to, if it has a meaning for them. The amount of a shift
may be shorter than the word that is shifted. -/
def combine? (op : BinaryOp) : Constant → Constant → Option Constant
  | .int a, .int b => (op.word? a.toBitVec b.toBitVec).map fun v ↦ .int (.ofBitVec v)
  | .long a, .long b => (op.word? a.toBitVec b.toBitVec).map fun v ↦ .long (.ofBitVec v)
  | .long a, .int b => (op.shift? a.toBitVec b.toBitVec.toNat).map fun v ↦ .long (.ofBitVec v)
  | .bool a, .bool b => (op.bit? a b).map .bool
  | _, _ => none

theorem combine?_int {m n k : Int32} : op.combine? (.int m) (.int n) = some (.int k) ↔
    op.word? m.toBitVec n.toBitVec = some k.toBitVec := by
  simp [combine?, Option.map_eq_some_iff, ← Int32.toBitVec_inj]

theorem combine?_long {m n k : Int64} : op.combine? (.long m) (.long n) = some (.long k) ↔
    op.word? m.toBitVec n.toBitVec = some k.toBitVec := by
  simp [combine?, Option.map_eq_some_iff, ← Int64.toBitVec_inj]

inductive Takes : BinaryOp → Ty → Ty → Prop
  | int {op : BinaryOp} : Takes op .int .int
  | long {op : BinaryOp} : Takes op .long .long
  | boolean {op : BinaryOp} : op.isLogical = true → Takes op .boolean .boolean
  | shift {op : BinaryOp} : op.isShift = true → Takes op .long .int

/-- With `c` on its right the operation comes to its left operand. -/
def IsRightIdentity (op : BinaryOp) (c : Constant) : Prop :=
  ∀ a : Constant, op.Takes a.ty c.ty → op.combine? a c = some a

def IsLeftIdentity (op : BinaryOp) (c : Constant) : Prop :=
  ∀ a : Constant, op.Takes c.ty a.ty → op.combine? c a = some a

/-- The constants that stand for the identity of an operation, `false` and `true` for a word without
any bit and with every bit. -/
def hasIdentity (op : BinaryOp) (c : Constant) : Bool :=
  match op with
  | add | sub | or | xor | shl | shr | ushr => c.isZero
  | mul | div => c.isOne
  | and => c.hasAllBits
  | rem => false

theorem hasIdentity_of_isShift (h : op.isShift = true) : op.hasIdentity c = c.isZero := by
  cases op <;> simp_all [isShift, hasIdentity]

theorem toInt64_eq_iff {m n : Int32} : n.toInt64 = m.toInt64 ↔ n.toBitVec = m.toBitVec := by
  rw [← Int64.toInt_inj, Int32.toInt_toInt64, Int32.toInt_toInt64, Int32.toInt_inj,
    Int32.toBitVec_inj]

theorem hasIdentity_int {n : Int32} :
    op.hasIdentity (.int n) = true ↔ op.identity? = some n.toBitVec := by
  have hzero : (Constant.int n).isZero = true ↔ some n.toBitVec = some 0 := by
    simpa [Constant.isZero, Constant.integer?] using toInt64_eq_iff (m := 0)
  have hone : (Constant.int n).isOne = true ↔ some n.toBitVec = some 1 := by
    simpa [Constant.isOne, Constant.integer?] using toInt64_eq_iff (m := 1)
  have hones : (Constant.int n).hasAllBits = true ↔ some n.toBitVec = some (BitVec.allOnes 32) := by
    simp [Constant.hasAllBits, ← Int32.toBitVec_inj]
  cases op with
  | add | sub | or | xor | shl | shr | ushr => exact hzero.trans eq_comm
  | mul | div => exact hone.trans eq_comm
  | and => exact hones.trans eq_comm
  | rem => simp [hasIdentity, identity?]

theorem hasIdentity_long {n : Int64} :
    op.hasIdentity (.long n) = true ↔ op.identity? = some n.toBitVec := by
  have hzero : (Constant.long n).isZero = true ↔ some n.toBitVec = some 0 := by
    simp [Constant.isZero, Constant.integer?, ← Int64.toBitVec_inj]
  have hone : (Constant.long n).isOne = true ↔ some n.toBitVec = some 1 := by
    simp [Constant.isOne, Constant.integer?, ← Int64.toBitVec_inj]
  have hones : (Constant.long n).hasAllBits = true ↔
      some n.toBitVec = some (BitVec.allOnes 64) := by
    simp [Constant.hasAllBits, ← Int64.toBitVec_inj]
  cases op with
  | add | sub | or | xor | shl | shr | ushr => exact hzero.trans eq_comm
  | mul | div => exact hone.trans eq_comm
  | and => exact hones.trans eq_comm
  | rem => simp [hasIdentity, identity?]

theorem Takes.kinds (h : op.Takes a.ty c.ty) :
    (∃ m n, a = .int m ∧ c = .int n) ∨ (∃ m n, a = .long m ∧ c = .long n) ∨
      (op.isLogical = true ∧ ∃ x y, a = .bool x ∧ c = .bool y) ∨
      op.isShift = true ∧ ∃ m n, a = .long m ∧ c = .int n := by
  cases a <;> cases c <;> cases h <;> simp_all

theorem combine?_comm (h : op.isCommutative = true) (a b : Constant) :
    op.combine? a b = op.combine? b a := by
  have hshift : ∀ {w : Nat} (v : BitVec w) (n : Nat), op.shift? v n = none := by
    intro w v n
    cases op <;> simp_all [shift?, isCommutative]
  have hbit : ∀ x y, op.bit? x y = op.bit? y x := by
    intro x y
    cases op <;> simp [bit?, Bool.and_comm, Bool.or_comm, Bool.xor_comm]
  cases a <;> cases b <;> simp [combine?, word?_comm h, hshift, hbit]

theorem identity?_of_isShift (h : op.isShift = true) : op.identity? = some (0 : BitVec w) := by
  cases op <;> simp_all [isShift, identity?]

theorem isRightIdentity (h : op.hasIdentity c = true) : op.IsRightIdentity c := by
  intro a ht
  rcases ht.kinds with ⟨m, n, rfl, rfl⟩ | ⟨m, n, rfl, rfl⟩ | ⟨hl, x, y, rfl, rfl⟩ |
    ⟨hs, m, n, rfl, rfl⟩
  · exact combine?_int.2 (word?_identity (by decide) (hasIdentity_int.1 h) _)
  · exact combine?_long.2 (word?_identity (by decide) (hasIdentity_long.1 h) _)
  · cases op <;> cases y <;> simp_all [isLogical, hasIdentity, combine?, bit?] <;> cases h
  · have hn : n.toBitVec = 0 := by
      rw [hasIdentity_int, identity?_of_isShift hs] at h
      exact (Option.some.inj h).symm
    simp [combine?, hn, shift?_zero hs]

theorem Takes.symm (hop : op.isCommutative = true) (h : op.Takes a.ty c.ty) :
    op.Takes c.ty a.ty := by
  rcases h.kinds with ⟨m, n, rfl, rfl⟩ | ⟨m, n, rfl, rfl⟩ | ⟨hl, x, y, rfl, rfl⟩ |
    ⟨hs, m, n, rfl, rfl⟩
  · exact .int
  · exact .long
  · exact .boolean hl
  · cases op <;> simp_all [isShift, isCommutative]

theorem isLeftIdentity_iff (hop : op.isCommutative = true) :
    op.IsLeftIdentity c ↔ op.IsRightIdentity c := by
  constructor
  · intro h a ht
    rw [combine?_comm hop]
    exact h a (ht.symm hop)
  · intro h a ht
    rw [combine?_comm hop]
    exact h a (ht.symm hop)

/-- An identity on the right is the constant that stands for it, unless the operation is a shift or
has no meaning for the constant. -/
theorem hasIdentity_of_isRightIdentity (hop : op.isShift = false) (ht : op.Takes c.ty c.ty)
    (h : op.IsRightIdentity c) : op.hasIdentity c = true := by
  rcases ht.kinds with ⟨m, n, hm, rfl⟩ | ⟨m, n, hm, rfl⟩ | ⟨hl, x, y, hx, rfl⟩ | ⟨hs, m, n, hm, hn⟩
  · refine hasIdentity_int.2 (identity?_of_word? hop fun a ↦ ?_)
    exact combine?_int.1 (h (.int (.ofBitVec a)) ht)
  · refine hasIdentity_long.2 (identity?_of_word? hop fun a ↦ ?_)
    exact combine?_long.1 (h (.long (.ofBitVec a)) ht)
  · have hfalse := h (.bool false) ht
    have htrue := h (.bool true) ht
    cases op <;> cases y <;> simp_all [isLogical, hasIdentity, combine?, bit?] <;> rfl
  · cases hop.symm.trans hs

theorem isCommutative_of_isLeftIdentity (ht : op.Takes c.ty c.ty) (h : op.IsLeftIdentity c) :
    op.isCommutative = true := by
  rcases ht.kinds with ⟨m, n, hm, rfl⟩ | ⟨m, n, hm, rfl⟩ | ⟨hl, x, y, hx, rfl⟩ | ⟨hs, m, n, rfl, hn⟩
  · refine isCommutative_of_word? (c := n.toBitVec) (by decide) fun a ↦ ?_
    exact combine?_int.1 (h (.int (.ofBitVec a)) ht)
  · refine isCommutative_of_word? (c := n.toBitVec) (by decide) fun a ↦ ?_
    exact combine?_long.1 (h (.long (.ofBitVec a)) ht)
  · cases op <;> simp_all [isLogical, isCommutative]
  · cases hn

theorem hasIdentity_of_isLeftIdentity (ht : op.Takes c.ty c.ty) (h : op.IsLeftIdentity c) :
    op.isCommutative = true ∧ op.hasIdentity c = true := by
  have hop := isCommutative_of_isLeftIdentity ht h
  have hshift : op.isShift = false := by cases op <;> simp_all [isShift, isCommutative]
  exact ⟨hop, hasIdentity_of_isRightIdentity hshift ht ((isLeftIdentity_iff hop).1 h)⟩

end BinaryOp

end ThreeAddress
