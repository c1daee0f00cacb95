import ThreeAddress.Flow.Reaching
import ThreeAddress.Pass.Basic

namespace ThreeAddress

namespace DeadAllocations

def allocated? : Stmt → Option Ty
  | .assign (.var _) (.new ty) => some ty
  | _ => none

def dead (b : Body) : List (UnitId × Nat × Ty) :=
  let i := b.reaching
  b.units.zipIdx.filterMap fun (u, p) ↦
    if i.isUnused p then (allocated? u.stmt).map (u.id, p, ·) else none

def drop (r : Revision) (u : UnitId) (p : Nat) (ty : Ty) : Revision :=
  r.removeUnit u fun _ ↦
    ⟨.allocationRemoved, some p, "unused allocation of " ++ ty.text ++ " removed"⟩

def revise (b : Body) : Revision :=
  ((dead b).foldl (fun r (u, p, ty) ↦ drop r u p ty) ⟨b, [], false⟩).dropEmptyTraps

end DeadAllocations

def Pass.deadAllocations : Pass where
  name := "dead-allocation-elimination"
  description := "Removes allocations whose result is never read"
  run _ b := (DeadAllocations.revise b).finish

end ThreeAddress
