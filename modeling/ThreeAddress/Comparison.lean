import ThreeAddress.Local
import ThreeAddress.Constant

namespace ThreeAddress

inductive Value where
  | var (x : LocalId)
  | const (c : Constant)
deriving DecidableEq, Repr, Inhabited

namespace Value

def var? : Value → Option LocalId
  | var x => some x
  | const _ => none

def const? : Value → Option Constant
  | var _ => none
  | const c => some c

def mapLocal (f : LocalId → LocalId) : Value → Value
  | var x => var (f x)
  | const c => const c

def isNaN : Value → Bool
  | var _ => false
  | const c => c.isNaN

def unsignZero : Value → Value
  | var x => var x
  | const c => const c.unsignZero

/-- Equality in which floating constants compare as numbers: a NaN differs from itself, and the two
zeros agree. -/
def agrees (v w : Value) : Bool := !v.isNaN && v.unsignZero == w.unsignZero

end Value

inductive CompareOp where
  | eq
  | ne
  | lt
  | le
  | gt
  | ge
deriving DecidableEq, Repr, Inhabited

namespace CompareOp

def all : List CompareOp := [eq, ne, lt, le, gt, ge]

def symbol : CompareOp → String
  | eq => "=="
  | ne => "!="
  | lt => "<"
  | le => "<="
  | gt => ">"
  | ge => ">="

def negate : CompareOp → CompareOp
  | eq => ne
  | ne => eq
  | lt => ge
  | le => gt
  | gt => le
  | ge => lt

def swap : CompareOp → CompareOp
  | eq => eq
  | ne => ne
  | lt => gt
  | le => ge
  | gt => lt
  | ge => le

def holds : CompareOp → Ordering → Bool
  | eq, o => o == .eq
  | ne, o => o != .eq
  | lt, o => o == .lt
  | le, o => o != .gt
  | gt, o => o == .gt
  | ge, o => o != .lt

theorem holds_negate (op : CompareOp) (o : Ordering) : op.negate.holds o = !op.holds o := by
  cases op <;> cases o <;> rfl

theorem holds_swap (op : CompareOp) (o : Ordering) : op.swap.holds o.swap = op.holds o := by
  cases op <;> cases o <;> rfl

def ofEquality (op : CompareOp) (same : Bool) : Option Bool :=
  match op with
  | eq => some same
  | ne => some !same
  | _ => none

/-- The outcome of a comparison of two constants. Integers and booleans compare as integers, other
numbers in double precision, where only `ne` holds of an unordered pair. `null` and strings know
equality only, and no other pair compares. -/
def compare? (op : CompareOp) : Constant → Constant → Option Bool
  | .null, .null => op.ofEquality true
  | .string a, .string b => op.ofEquality (a == b)
  | left, right =>
    match left.integer?, right.integer? with
    | some a, some b => some (op.holds (compare a.toInt b.toInt))
    | _, _ =>
      match left.real?, right.real? with
      | some a, some b =>
        match a.order? b with
        | some o => some (op.holds o)
        | none => some (op == ne)
      | _, _ => none

end CompareOp

structure Comparison where
  op : CompareOp
  left : Value
  right : Value
deriving DecidableEq, Repr, Inhabited

namespace Comparison

def negated (c : Comparison) : Comparison := { c with op := c.op.negate }

def values (c : Comparison) : List Value := [c.left, c.right]

def mapValues (f : Value → Value) (c : Comparison) : Comparison :=
  { c with left := f c.left, right := f c.right }

@[simp] theorem values_mapValues (f : Value → Value) (c : Comparison) :
    (c.mapValues f).values = c.values.map f := rfl

/-- The outcome of the comparison, if both operands are constants that compare. -/
def evaluate? (c : Comparison) : Option Bool :=
  match c.left, c.right with
  | .const a, .const b => c.op.compare? a b
  | _, _ => none

end Comparison

end ThreeAddress
