import ThreeAddress.Body.Edit
import ThreeAddress.Event.Basic
import ThreeAddress.Signature

namespace ThreeAddress

structure Note where
  kind : EventKind
  location : Option Nat := none
  message : String := kind.description
deriving DecidableEq, Repr, Inhabited

/-- A body on its way through a pass, the notes so far, and whether the pass counts it as changed. -/
structure Revision where
  body : Body
  notes : List Note := []
  changed : Bool := false
deriving DecidableEq, Repr, Inhabited

namespace Revision

def withNotes (r : Revision) (b : Body) (notes : List Note) : Revision :=
  ⟨b, r.notes ++ notes, r.changed || !notes.isEmpty⟩

def withNote (r : Revision) (b : Body) (n : Note) : Revision := ⟨b, r.notes ++ [n], true⟩

def dropEmptyTraps (r : Revision) : Revision :=
  r.withNotes r.body.dropEmptyTraps (r.body.emptyTraps.map fun t ↦
    ⟨.trapRemoved, none, "empty trap for " ++ t.exception.text ++ " dropped"⟩)

def removeUnit (r : Revision) (u : UnitId) (note : Nat → Note) : Revision :=
  match r.body.position? u with
  | some p => if r.body.isRemovable u then r.withNote (r.body.removeAt p) (note p) else r
  | none => r

/-- Removes the first unit that the test picks, as long as it picks one. The test sees the body of
the moment. -/
def removeFirst (test : Body → Nat → Bool) (note : Nat → UnitId → Note) (r : Revision) : Revision :=
  match _h : (List.range r.body.size).find? (test r.body) with
  | none => r
  | some p =>
    let unit := r.body.ids.getD p default
    removeFirst test note (r.withNote (r.body.removeAt p) (note p unit))
termination_by r.body.size
decreasing_by
  have hp := List.mem_range.1 (List.mem_of_find?_eq_some _h)
  have := Body.size_removeAt hp
  simp only [withNote]
  omega

end Revision

/-- The outcome of a pass: the body as it was left, the notes, and whether it changed the body or
why it failed. -/
structure PassRun where
  body : Body
  notes : List Note
  result : Except Error Bool

def Revision.finish (r : Revision) : PassRun := ⟨r.body, r.notes, .ok r.changed⟩

structure Pass where
  name : String
  description : String := "No description available"
  run : Signature → Body → PassRun

end ThreeAddress
