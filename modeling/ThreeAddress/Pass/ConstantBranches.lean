import ThreeAddress.Pass.Basic

namespace ThreeAddress

namespace ConstantBranches

inductive Verdict where
  | jumps (target : UnitId)
  | fallsThrough
deriving DecidableEq, Repr

def select (targets : List UnitId) (default : UnitId) (key : Int) : UnitId :=
  if key < 0 then default else targets.getD key.toNat default

/-- The verdict on a statement that branches on constants. A switch needs an integer key. -/
def verdict? : Stmt → Option Verdict
  | .branch condition target =>
    condition.evaluate?.map fun taken ↦ if taken then .jumps target else .fallsThrough
  | .switch (.const (.int key)) targets default =>
    some (.jumps (select targets default key.toInt))
  | .switch (.const (.long key)) targets default =>
    some (.jumps (select targets default key.toInt))
  | _ => none

def fold (r : Revision) (u : UnitId) : Verdict → Revision
  | .jumps target =>
    r.withNote (r.body.setStmt u (.goto target))
      ⟨.branchFolded, some ((r.body.position? u).getD 0),
        "constant branch always jumps to " ++ target.text⟩
  | .fallsThrough =>
    r.removeUnit u fun p ↦ ⟨.branchFolded, some p, "constant branch never taken"⟩

def revise (b : Body) : Revision :=
  let verdicts := b.units.filterMap fun u ↦ (verdict? u.stmt).map (u.id, ·)
  (verdicts.foldl (fun r (u, v) ↦ fold r u v) ⟨b, [], false⟩).dropEmptyTraps

end ConstantBranches

def Pass.constantBranches : Pass where
  name := "conditional-branch-folding"
  description := "Replaces branches on constant conditions by gotos or removes them"
  run _ b := (ConstantBranches.revise b).finish

end ThreeAddress
