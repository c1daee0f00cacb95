import ThreeAddress.Expr

namespace ThreeAddress

structure UnitId where
  index : Nat
deriving DecidableEq, Repr, Inhabited

namespace UnitId

def text (u : UnitId) : String := "u" ++ toString u.index

def shift (offset : Nat) (u : UnitId) : UnitId := ⟨wrapId (u.index + offset)⟩

end UnitId

inductive Input where
  | receiver
  | parameter (index : Nat)
  | caughtException
deriving DecidableEq, Repr, Inhabited

namespace Input

def text : Input → String
  | receiver => "@this"
  | parameter index => "@parameter" ++ toString index
  | caughtException => "@caughtexception"

end Input

inductive Stmt where
  | identity (x : LocalId) (source : Input)
  | assign (place : Place) (expr : Expr)
  | branch (condition : Comparison) (target : UnitId)
  | goto (target : UnitId)
  /-- Goes to `targets[i]` when the key is `i`, and to `default` for every other key. -/
  | switch (key : Value) (targets : List UnitId) (default : UnitId)
  /-- A call whose result is discarded. -/
  | invoke (call : Call)
  | ret (value : Option Value)
  | throw (value : Value)
  | nop
deriving DecidableEq, Repr, Inhabited

namespace Stmt

def targets : Stmt → List UnitId
  | branch _ target => [target]
  | goto target => [target]
  | switch _ targets default => targets ++ [default]
  | _ => []

def mapTargets (f : UnitId → UnitId) : Stmt → Stmt
  | branch condition target => branch condition (f target)
  | goto target => goto (f target)
  | switch key targets default => switch key (targets.map f) (f default)
  | s => s

@[simp] theorem targets_mapTargets (f : UnitId → UnitId) (s : Stmt) :
    (s.mapTargets f).targets = s.targets.map f := by
  cases s <;> simp [targets, mapTargets]

def fallsThrough : Stmt → Bool
  | goto _ | switch .. | ret _ | throw _ => false
  | _ => true

def isBranch : Stmt → Bool
  | branch .. => true
  | s => !s.fallsThrough

def def? : Stmt → Option LocalId
  | identity x _ => some x
  | assign place _ => place.var?
  | _ => none

def values : Stmt → List Value
  | identity .. | goto _ | nop => []
  | assign place expr => place.values ++ expr.values
  | branch condition _ => condition.values
  | switch key _ _ => [key]
  | invoke call => call.values
  | ret value => value.toList
  | throw value => [value]

def mapValues (f : Value → Value) : Stmt → Stmt
  | assign place expr => assign (place.mapValues f) (expr.mapValues f)
  | branch condition target => branch (condition.mapValues f) target
  | switch key targets default => switch (f key) targets default
  | invoke call => invoke (call.mapValues f)
  | ret value => ret (value.map f)
  | throw value => throw (f value)
  | s => s

@[simp] theorem values_mapValues (f : Value → Value) (s : Stmt) :
    (s.mapValues f).values = s.values.map f := by
  cases s with
  | ret value => cases value <;> rfl
  | _ => simp [values, mapValues]

def uses (s : Stmt) : List LocalId := s.values.filterMap Value.var?

def locals (s : Stmt) : List LocalId := s.uses ++ s.def?.toList

def mapDef (f : LocalId → LocalId) : Stmt → Stmt
  | identity x source => identity (f x) source
  | assign (.var x) expr => assign (.var (f x)) expr
  | s => s

def mapLocals (f : LocalId → LocalId) (s : Stmt) : Stmt :=
  (s.mapDef f).mapValues (Value.mapLocal f)

def mayThrow : Stmt → Bool
  | assign place expr => place.mayThrow || expr.mayThrow
  | invoke _ | throw _ => true
  | _ => false

def agrees (s t : Stmt) : Bool :=
  s.values.all (!·.isNaN) && s.mapValues Value.unsignZero == t.mapValues Value.unsignZero

end Stmt

structure CodeUnit where
  id : UnitId
  stmt : Stmt
deriving DecidableEq, Repr, Inhabited

namespace CodeUnit

def mapStmt (f : Stmt → Stmt) (u : CodeUnit) : CodeUnit := { u with stmt := f u.stmt }

@[simp] theorem id_mapStmt (f : Stmt → Stmt) (u : CodeUnit) : (u.mapStmt f).id = u.id := rfl

end CodeUnit

end ThreeAddress
