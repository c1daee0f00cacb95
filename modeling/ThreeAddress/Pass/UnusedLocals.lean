import ThreeAddress.Pass.Basic

namespace ThreeAddress

namespace UnusedLocals

def revise (b : Body) : Revision :=
  let mentioned := b.mentioned
  let kept := b.locals.filter fun l ↦ mentioned.contains l.id
  ⟨{ b with locals := kept },
    (b.locals.filter fun l ↦ !mentioned.contains l.id).map fun l ↦
      ⟨.localRemoved, none, "unused local " ++ l.text ++ " removed"⟩,
    kept.length != b.locals.length⟩

end UnusedLocals

def Pass.unusedLocals : Pass where
  name := "unused-local-elimination"
  description := "Removes locals that are neither read nor written"
  run _ b := (UnusedLocals.revise b).finish

end ThreeAddress
