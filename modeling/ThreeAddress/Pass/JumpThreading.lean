import ThreeAddress.Pass.Basic

namespace ThreeAddress

namespace Body

/-- Follows gotos from `u`, and stops where it would pass a goto again. `fresh` holds the units not
passed yet. -/
def followGotos (b : Body) (fresh : List UnitId) (u : UnitId) : UnitId :=
  match b.stmt? u with
  | some (.goto target) => if u ∈ fresh then b.followGotos (fresh.erase u) target else u
  | _ => u
termination_by fresh.length
decreasing_by
  have : 0 < fresh.length := List.length_pos_of_mem ‹_›
  simp only [List.length_erase_of_mem ‹u ∈ fresh›]
  omega

def destination (b : Body) (u : UnitId) : UnitId := b.followGotos b.ids u

def isGotoNext (b : Body) (p : Nat) : Bool :=
  match b.units[p]?, b.units[p + 1]? with
  | some ⟨_, .goto target⟩, some next => target == next.id
  | _, _ => false

end Body

namespace JumpThreading

def threadNotes (b : Body) : List Note :=
  b.units.zipIdx.flatMap fun (u, p) ↦
    (u.stmt.targets.filter fun t ↦ b.destination t ≠ t).map fun t ↦
      ⟨.branchFolded, some p, "goto chain collapsed to " ++ (b.destination t).text⟩

def thread (b : Body) : Revision :=
  (⟨b, [], false⟩ : Revision).withNotes (b.mapStmts (·.mapTargets b.destination)) (threadNotes b)

def revise (b : Body) : Revision :=
  ((thread b).removeFirst Body.isGotoNext fun p _ ↦
    ⟨.branchFolded, some p, "goto to next unit removed"⟩).dropEmptyTraps

end JumpThreading

def Pass.jumpThreading : Pass where
  name := "unconditional-branch-folding"
  description := "Collapses goto chains and removes gotos to the fall-through unit"
  run _ b := (JumpThreading.revise b).finish

end ThreeAddress
