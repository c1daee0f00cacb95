import ThreeAddress.Flow.Graph
import ThreeAddress.Pass.Basic

namespace ThreeAddress

namespace UnreachableUnits

def dead (b : Body) : List (UnitId × Nat) :=
  let reached := b.flowGraph.reachable
  b.ids.zipIdx.filter fun (_, p) ↦ !reached.contains p

def dropHandlers (dead : List UnitId) (r : Revision) : Revision :=
  r.withNotes
    { r.body with traps := r.body.traps.filter fun t ↦ !dead.contains t.handler }
    ((r.body.traps.filter fun t ↦ dead.contains t.handler).map fun _ ↦
      ⟨.trapRemoved, none, "trap with unreachable handler dropped"⟩)

/-- Removes a unit or, where it cannot go, blanks it. The position reported is the one it had at
first. -/
def drop (r : Revision) (u : UnitId) (p : Nat) : Revision :=
  if r.body.isRemovable u then
    r.removeUnit u fun _ ↦ ⟨.unitRemoved, some p, "unreachable unit " ++ u.text ++ " removed"⟩
  else
    match r.body.stmt? u with
    | none | some .nop => r
    | some _ =>
      r.withNote (r.body.setStmt u .nop)
        ⟨.unitRemoved, some p, "unreachable trailing unit " ++ u.text ++ " blanked"⟩

def revise (b : Body) : Revision :=
  match dead b with
  | [] => ⟨b, [], false⟩
  | ds =>
    let guarded := dropHandlers (ds.map (·.1)) ⟨b, [], false⟩
    (ds.foldl (fun r (u, p) ↦ drop r u p) guarded).dropEmptyTraps

end UnreachableUnits

def Pass.unreachableUnits : Pass where
  name := "unreachable-code-elimination"
  description := "Removes units that cannot be reached from the method entry"
  run _ b := (UnreachableUnits.revise b).finish

end ThreeAddress
