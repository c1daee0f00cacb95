import ThreeAddress.Pass.JumpThreading

namespace ThreeAddress

namespace Nops

def isIdle (b : Body) (p : Nat) : Bool :=
  decide (2 ≤ b.size) && (b.stmtAt? p == some .nop || b.isGotoNext p) &&
    (b.units[p]?.map fun u ↦ b.isRemovable u.id).getD false

def revise (b : Body) : Revision :=
  ((⟨b, [], false⟩ : Revision).removeFirst isIdle fun p u ↦
    ⟨.unitRemoved, some p, "no-op " ++ u.text ++ " removed"⟩).dropEmptyTraps

end Nops

def Pass.nops : Pass where
  name := "nop-elimination"
  description := "Removes statements without effect"
  run _ b := (Nops.revise b).finish

end ThreeAddress
