import ThreeAddress.Comparison

namespace ThreeAddress

inductive BinaryOp where
  | add
  | sub
  | mul
  | div
  | rem
  | and
  | or
  | xor
  | shl
  | shr
  | ushr
deriving DecidableEq, Repr, Inhabited

namespace BinaryOp

def all : List BinaryOp := [add, sub, mul, div, rem, and, or, xor, shl, shr, ushr]

def symbol : BinaryOp → String
  | add => "+"
  | sub => "-"
  | mul => "*"
  | div => "/"
  | rem => "%"
  | and => "&"
  | or => "|"
  | xor => "^"
  | shl => "<<"
  | shr => ">>"
  | ushr => ">>>"

def mayThrow : BinaryOp → Bool
  | div | rem => true
  | _ => false

def isLogical : BinaryOp → Bool
  | and | or | xor => true
  | _ => false

end BinaryOp

inductive UnaryOp where
  | neg
  | not
deriving DecidableEq, Repr, Inhabited

namespace UnaryOp

def symbol : UnaryOp → String
  | neg => "neg"
  | not => "not"

end UnaryOp

structure Field where
  declaringType : String
  name : String
  ty : Ty
deriving DecidableEq, Repr, Inhabited

structure Callee where
  declaringType : String
  name : String
  parameters : List Ty
  returnType : Ty
deriving DecidableEq, Repr, Inhabited

inductive Dispatch where
  | static
  | virtual
  | interface
  /-- An instance call without dispatch, as to a constructor. -/
  | special
deriving DecidableEq, Repr, Inhabited

namespace Dispatch

def text : Dispatch → String
  | static => "staticinvoke"
  | virtual => "virtualinvoke"
  | interface => "interfaceinvoke"
  | special => "specialinvoke"

end Dispatch

structure Call where
  dispatch : Dispatch
  method : Callee
  receiver : Option Value
  arguments : List Value
deriving DecidableEq, Repr, Inhabited

namespace Call

def values (c : Call) : List Value := c.receiver.toList ++ c.arguments

def mapValues (f : Value → Value) (c : Call) : Call :=
  { c with receiver := c.receiver.map f, arguments := c.arguments.map f }

@[simp] theorem values_mapValues (f : Value → Value) (c : Call) :
    (c.mapValues f).values = c.values.map f := by
  cases h : c.receiver <;> simp [values, mapValues, h]

end Call

inductive Expr where
  | value (v : Value)
  | compare (c : Comparison)
  | binary (op : BinaryOp) (left right : Value)
  | unary (op : UnaryOp) (operand : Value)
  | cast (ty : Ty) (v : Value)
  /-- Allocation only: a constructor is called by an `invoke` of its own. -/
  | new (ty : Ty)
  | newArray (element : Ty) (size : Value)
  | instanceOf (ty : Ty) (v : Value)
  | length (array : Value)
  /-- A static field if there is no receiver. -/
  | field (receiver : Option Value) (ref : Field)
  | element (array index : Value)
  | invoke (call : Call)
deriving DecidableEq, Repr, Inhabited

namespace Expr

def values : Expr → List Value
  | value v => [v]
  | compare c => c.values
  | binary _ left right => [left, right]
  | unary _ operand => [operand]
  | cast _ v => [v]
  | new _ => []
  | newArray _ size => [size]
  | instanceOf _ v => [v]
  | length array => [array]
  | field receiver _ => receiver.toList
  | element array index => [array, index]
  | invoke call => call.values

def mapValues (f : Value → Value) : Expr → Expr
  | value v => value (f v)
  | compare c => compare (c.mapValues f)
  | binary op left right => binary op (f left) (f right)
  | unary op operand => unary op (f operand)
  | cast ty v => cast ty (f v)
  | new ty => new ty
  | newArray ty size => newArray ty (f size)
  | instanceOf ty v => instanceOf ty (f v)
  | length array => length (f array)
  | field receiver ref => field (receiver.map f) ref
  | element array index => element (f array) (f index)
  | invoke call => invoke (call.mapValues f)

@[simp] theorem values_mapValues (f : Value → Value) (e : Expr) :
    (e.mapValues f).values = e.values.map f := by
  cases e with
  | field receiver ref => cases receiver <;> rfl
  | _ => simp [values, mapValues]

def uses (e : Expr) : List LocalId := e.values.filterMap Value.var?

def value? : Expr → Option Value
  | value v => some v
  | _ => none

def comparison? : Expr → Option Comparison
  | compare c => some c
  | _ => none

def isAllocation : Expr → Bool
  | new _ => true
  | _ => false

def mayThrow : Expr → Bool
  | value _ | compare _ | unary .. | instanceOf .. => false
  | binary op _ _ => op.mayThrow
  | cast ty _ => ty.isReference
  | new _ | newArray .. | length _ | field .. | element .. | invoke _ => true

/-- Whether the expression can be dropped when nothing reads its result. Allocation is not pure. -/
def isPure : Expr → Bool
  | value _ | compare _ | unary .. | instanceOf .. => true
  | binary op _ _ => !op.mayThrow
  | cast ty _ => ty.isPrimitive
  | new _ | newArray .. | length _ | field .. | element .. | invoke _ => false

end Expr

inductive Place where
  | var (x : LocalId)
  /-- A static field if there is no receiver. -/
  | field (receiver : Option Value) (ref : Field)
  | element (array index : Value)
deriving DecidableEq, Repr, Inhabited

namespace Place

def var? : Place → Option LocalId
  | var x => some x
  | _ => none

def values : Place → List Value
  | var _ => []
  | field receiver _ => receiver.toList
  | element array index => [array, index]

def mapValues (f : Value → Value) : Place → Place
  | var x => var x
  | field receiver ref => field (receiver.map f) ref
  | element array index => element (f array) (f index)

@[simp] theorem values_mapValues (f : Value → Value) (p : Place) :
    (p.mapValues f).values = p.values.map f := by
  cases p with
  | field receiver ref => cases receiver <;> rfl
  | _ => rfl

def mayThrow : Place → Bool
  | var _ => false
  | field receiver _ => receiver.isSome
  | element .. => true

end Place

end ThreeAddress
