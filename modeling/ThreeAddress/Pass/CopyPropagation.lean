import ThreeAddress.Flow.Reaching
import ThreeAddress.Pass.Basic

namespace ThreeAddress

namespace CopyPropagation

def dereferenced : Stmt → List Value
  | .assign place expr =>
    (match place with
      | .field receiver _ => receiver.toList
      | .element array _ => [array]
      | .var _ => []) ++
    (match expr with
      | .field receiver _ => receiver.toList
      | .element array _ => [array]
      | .length array => [array]
      | .invoke call => call.receiver.toList
      | _ => [])
  | .invoke call => call.receiver.toList
  | _ => []

/-- The value that `x` certainly equals at `p`: `x` is assigned on every path there, by one
definition only, which copies the value, and the value has not changed since. -/
def source? (b : Body) (i : Reaching) (x : LocalId) (p : Nat) : Option Value :=
  if i.mayBeUnassigned x p then none
  else match i.reachingDefinitions x p with
    | [d] =>
      match b.stmtAt? d with
      | some (.assign _ (.value (.const c))) => some (.const c)
      | some (.assign _ (.value (.var y))) =>
        if y ≠ x ∧ !i.mayBeUnassigned y p ∧
            i.reachingDefinitions y p = i.reachingDefinitions y d then
          some (.var y)
        else none
      | _ => none
    | _ => none

structure Substitution where
  position : Nat
  old : LocalId
  source : Value
deriving DecidableEq, Repr

def operands (s : Stmt) : List LocalId :=
  s.uses.eraseDups.mergeSort fun x y ↦ decide (x.index ≤ y.index)

def substitutionsAt (b : Body) (i : Reaching) (p : Nat) (s : Stmt) : List Substitution :=
  (operands s).filterMap fun x ↦
    match source? b i x p with
    | some (.const c) =>
      if (dereferenced s).contains (.var x) then none else some ⟨p, x, .const c⟩
    | some v => some ⟨p, x, v⟩
    | none => none

def substitutions (b : Body) : List Substitution :=
  let i := b.reaching
  b.units.zipIdx.flatMap fun (u, p) ↦ substitutionsAt b i p u.stmt

def substitute (x : LocalId) (source v : Value) : Value := if v = .var x then source else v

def apply (r : Revision) (t : Substitution) : Revision :=
  r.withNote (r.body.modifyAt t.position (·.mapValues (substitute t.old t.source)))
    ⟨.copyPropagated, some t.position, "use of " ++ t.old.text ++ " replaced by its source"⟩

def revise (b : Body) : Revision :=
  let plan := substitutions b
  plan.foldl apply ⟨b, [], !plan.isEmpty⟩

end CopyPropagation

def Pass.copyPropagation : Pass where
  name := "copy-propagation"
  description := "Replaces uses of copies and constant loads by their source value"
  run _ b := (CopyPropagation.revise b).finish

end ThreeAddress
