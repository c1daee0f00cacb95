import ThreeAddress.Flow.Reaching
import ThreeAddress.Pass.Basic

namespace ThreeAddress

namespace TemporaryFolding

def storeOf? (x : LocalId) : Stmt → Option Place
  | .assign place (.value (.var y)) => if x = y then some place else none
  | _ => none

/-- Whether the unit at `p` assigns a temporary that the unit after it stores, so that the two can
become one: nothing else reads or writes the temporary, no jump or trap separates the units, and
no operand of the place is read before the expression is evaluated, unless that is a mere value. -/
def isFoldable (b : Body) (i : Reaching) (p : Nat) : Bool :=
  match b.stmtAt? p, b.units[p + 1]? with
  | some (.assign (.var x) expr), some next =>
    match storeOf? x next.stmt with
    | some place =>
      i.definitionsOf x == [p] && i.readersOf x == [p + 1] && i.reachedReaders p == [p + 1] &&
        !b.isReferenced next.id && !place.values.contains (.var x) &&
        (place.var?.isSome || expr.value?.isSome) &&
        b.traps.all fun t ↦ b.covers t p == b.covers t (p + 1)
    | none => false
  | _, _ => false

def find? (b : Body) : Option Nat :=
  let i := b.reaching
  (List.range b.size).find? (isFoldable b i)

def setPlace (place : Place) : Stmt → Stmt
  | .assign _ expr => .assign place expr
  | s => s

/-- The body in which the unit at `p` writes the place that the unit after it wrote. -/
def merge (b : Body) (p : Nat) : Body :=
  match b.stmtAt? (p + 1) with
  | some (.assign place _) => (b.removeAt (p + 1)).modifyAt p (setPlace place)
  | _ => b.removeAt (p + 1)

theorem size_merge {b : Body} {p : Nat} (h : p + 1 < b.size) : (merge b p).size + 1 = b.size := by
  unfold merge
  split <;> simpa [Body.size, Body.modifyAt] using Body.size_removeAt h

def mergeAll (r : Revision) : Revision :=
  match find? r.body with
  | none => r
  | some p =>
    if p + 1 < r.body.size then
      mergeAll (r.withNote (merge r.body p)
        ⟨.statementAggregated, some p, "single-use temporary folded into its use"⟩)
    else r
termination_by r.body.size
decreasing_by
  have := size_merge ‹_›
  simp only [Revision.withNote]
  omega

end TemporaryFolding

def Pass.temporaryFolding : Pass where
  name := "aggregation"
  description := "Folds single-use temporaries into the statement that reads them"
  run _ b := (TemporaryFolding.mergeAll ⟨b, [], false⟩).finish

end ThreeAddress
