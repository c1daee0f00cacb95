import ThreeAddress.Pass.Basic

namespace ThreeAddress

namespace StoredComparisons

def comparison? : Stmt → Option (Place × Comparison)
  | .assign place (.compare c) => some (place, c)
  | _ => none

/-- A branch, the store of `false`, a goto to the unit after them, and the store of `true`. The
branch has yet to be pointed at that store. -/
def diamond (place : Place) (c : Comparison) (next : UnitId) : List Stmt :=
  [.branch c next, .assign place (.value (.const (.bool false))), .goto next,
    .assign place (.value (.const (.bool true)))]

def aimBranch (target : UnitId) : Stmt → Stmt
  | .branch c _ => .branch c target
  | s => s

/-- Replaces a stored comparison by a branch over two stores. -/
def expand (b : Body) (u : UnitId) : Except Error Body :=
  match b.successor? u with
  | none => .error (.invariant (.trailingComparison u))
  | some next =>
    match (b.stmt? u).bind comparison? with
    | none => .error (.invariant (.notAComparison u))
    | some (place, c) => do
      let (fresh, expanded) ← b.replace u (diamond place c next)
      match fresh[0]?, fresh[3]? with
      | some branch, some whenTrue => return expanded.modifyStmt branch (aimBranch whenTrue)
      | _, _ => .error (.invariant (.shortExpansion u))

/-- Expands the comparisons one by one, and stops at the first that fails. -/
def expandAll (r : Revision) : List UnitId → PassRun
  | [] => r.finish
  | u :: rest =>
    match expand r.body u with
    | .error e => ⟨r.body, r.notes, .error e⟩
    | .ok b =>
      expandAll (r.withNote b ⟨.comparisonExpanded, some ((r.body.position? u).getD 0),
        "comparison at " ++ u.text ++ " rewritten to a branch"⟩) rest

/-- The units that store the outcome of a comparison. -/
def found (b : Body) : List UnitId :=
  (b.units.filter fun u ↦ (comparison? u.stmt).isSome).map (·.id)

def run (b : Body) : PassRun := expandAll ⟨b, [], !(found b).isEmpty⟩ (found b)

end StoredComparisons

def Pass.storedComparisons : Pass where
  name := "condition-to-branch"
  description := "Turns stored comparison results into explicit two-way branches"
  run _ b := StoredComparisons.run b

end ThreeAddress
