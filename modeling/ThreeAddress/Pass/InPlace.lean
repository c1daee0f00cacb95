import ThreeAddress.Pass.Basic

namespace ThreeAddress

namespace Revision

/-- Replaces every statement that the rule changes. The rule yields the new statement and the kind
and message of the note. -/
def perStmt (rule : Stmt → Option (Stmt × EventKind × String)) (b : Body) : Revision :=
  ⟨b.mapStmts fun s ↦ ((rule s).map (·.1)).getD s,
    b.units.zipIdx.filterMap fun (u, p) ↦
      (rule u.stmt).map fun (_, kind, message) ↦ ⟨kind, some p, message⟩,
    b.units.any fun u ↦ (rule u.stmt).isSome⟩

end Revision

end ThreeAddress
