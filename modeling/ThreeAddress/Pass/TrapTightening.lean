import ThreeAddress.Pass.Basic

namespace ThreeAddress

namespace TrapTightening

def throwing (b : Body) (t : Trap) : List Nat :=
  (List.range b.size).filter fun p ↦
    b.covers t p && ((b.stmtAt? p).map Stmt.mayThrow).getD false

def idAt (b : Body) (p : Nat) (default : UnitId) : UnitId :=
  (b.units[p]?.map (·.id)).getD default

/-- The trap around its throwing units, and the position of the first of them. -/
def tighten? (b : Body) (t : Trap) : Option (Nat × Trap) :=
  match (throwing b t).head?, (throwing b t).getLast? with
  | some p, some q =>
    some (p, { t with first := idAt b p t.first, last := idAt b (q + 1) t.last })
  | _, _ => none

def note? (b : Body) (t : Trap) : Option Note :=
  match tighten? b t with
  | none =>
    some ⟨.trapRemoved, b.position? t.first,
      "trap for " ++ t.exception.text ++ " protects nothing that throws"⟩
  | some (p, tight) =>
    if tight = t then none
    else some ⟨.trapTightened, some p,
      "trap for " ++ t.exception.text ++ " narrowed from [" ++ t.first.text ++ ", " ++
        t.last.text ++ ") to [" ++ tight.first.text ++ ", " ++ tight.last.text ++ ")"⟩

def run (b : Body) : PassRun :=
  match b.traps.dropWhile fun t ↦ (b.trapSpan? t).isSome with
  | [] =>
    (⟨{ b with traps := b.traps.filterMap fun t ↦ (tighten? b t).map (·.2) },
      b.traps.filterMap (note? b),
      b.traps.any fun t ↦ (tighten? b t).map (·.2) ≠ some t⟩ : Revision).finish
  | t :: _ =>
    ⟨b, (b.traps.takeWhile fun t ↦ (b.trapSpan? t).isSome).filterMap (note? b),
      .error (.invariant (.danglingTrap t.first t.last))⟩

end TrapTightening

def Pass.trapTightening : Pass where
  name := "trap-tightening"
  description := "Shrinks trap ranges to the units that may actually throw"
  run _ b := TrapTightening.run b

end ThreeAddress
