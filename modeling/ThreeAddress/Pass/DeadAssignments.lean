import ThreeAddress.Flow.Reaching
import ThreeAddress.Pass.Basic

namespace ThreeAddress

namespace DeadAssignments

def dead? (i : Reaching) (p : Nat) : Stmt → Option LocalId
  | .assign (.var x) expr =>
    if expr = .value (.var x) || (expr.isPure && i.isUnused p) then some x else none
  | _ => none

def dead (b : Body) : List (UnitId × Nat × LocalId) :=
  let i := b.reaching
  b.units.zipIdx.filterMap fun (u, p) ↦
    if b.isRemovable u.id then (dead? i p u.stmt).map (u.id, p, ·) else none

def drop (r : Revision) (u : UnitId) (p : Nat) (x : LocalId) : Revision :=
  r.removeUnit u fun _ ↦
    ⟨.assignmentRemoved, some p, "dead assignment to " ++ x.text ++ " removed"⟩

def round (r : Revision) : Revision := (dead r.body).foldl (fun r (u, p, x) ↦ drop r u p x) r

def rounds (r : Revision) : Revision :=
  let next := round r
  if next.body.size < r.body.size then rounds next else next
termination_by r.body.size

end DeadAssignments

def Pass.deadAssignments : Pass where
  name := "dead-assignment-elimination"
  description := "Removes pure assignments whose result is never read"
  run _ b := (DeadAssignments.rounds ⟨b, [], false⟩).dropEmptyTraps.finish

end ThreeAddress
