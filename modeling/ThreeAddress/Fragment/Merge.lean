import ThreeAddress.Fragment.Basic

namespace ThreeAddress

def Stmt.retarget? (target : UnitId) : Stmt → Option Stmt
  | .goto _ => some (.goto target)
  | .branch condition _ => some (.branch condition target)
  | _ => none

namespace Fragment

def shift (offset : Nat) (f : Fragment) : Fragment where
  locals := f.locals
  units := f.units.map fun u ↦ ⟨u.id.shift offset, u.stmt.mapTargets (.shift offset)⟩
  traps := f.traps.map (·.mapRefs (.shift offset))
  labels := f.labels.map fun (label, u) ↦ (label, u.shift offset)
  openJumps := f.openJumps.map fun x ↦ { x with unit := x.unit.shift offset }

end Fragment

namespace Body

/-- Points the jumps at the units that their labels mark, up to the first that cannot be. -/
def resolve (labels : List (String × UnitId)) (b : Body) : List OpenJump → Except Error Body
  | [] => .ok b
  | x :: rest =>
    match labels.lookup x.label with
    | none => .error (.unresolvedLabel x.label)
    | some target =>
      match b.stmt? x.unit with
      | none => .error (.invariant (.missingJump x.label x.unit))
      | some s =>
        match s.retarget? target with
        | none => .error (.invariant (.notAJump x.label x.unit))
        | some s => resolve labels (b.setStmt x.unit s) rest

def merge (b : Body) (f : Fragment) : Except Error Body :=
  let f := f.shift b.nextUnit
  match (f.locals.foldl declareLocal b).append f.units with
  | (some e, _) => .error e
  | (none, b) => resolve f.labels (f.traps.foldl pushTrap b) f.openJumps

end Body

end ThreeAddress
