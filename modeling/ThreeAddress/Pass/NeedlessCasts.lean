import ThreeAddress.Pass.InPlace

namespace ThreeAddress

namespace NeedlessCasts

def foldConstant : Stmt → Option (Stmt × EventKind × String)
  | .assign place (.cast ty (.const c)) =>
    (c.convert? ty).map fun d ↦
      (.assign place (.value (.const d)), .castRemoved,
        "(" ++ ty.text ++ ") " ++ c.text ++ " folded to " ++ d.text)
  | _ => none

def dropIdentity (b : Body) : Stmt → Option (Stmt × EventKind × String)
  | .assign place (.cast ty (.var x)) =>
    if b.tableType? x = some ty then
      some (.assign place (.value (.var x)), .castRemoved,
        "cast of " ++ x.text ++ " to its own type " ++ ty.text ++ " removed")
    else none
  | _ => none

end NeedlessCasts

def Pass.constantCasts : Pass where
  name := "constant-cast-elimination"
  description := "Evaluates casts of constants at compile time"
  run _ b := (Revision.perStmt NeedlessCasts.foldConstant b).finish

def Pass.identityCasts : Pass where
  name := "identity-cast-elimination"
  description := "Removes casts of a local to its own declared type"
  run _ b := (Revision.perStmt (NeedlessCasts.dropIdentity b) b).finish

end ThreeAddress
