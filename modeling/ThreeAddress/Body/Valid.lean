import ThreeAddress.Body.Basic

namespace ThreeAddress.Body

/-- A body is valid when it has units, all under different identities, when every jump and every
trap names units of the body and every trap begins before it ends, and when every local that a unit
mentions is declared. -/
structure Valid (b : Body) : Prop where
  nonempty : b.units ≠ []
  nodup : b.ids.Nodup
  targets : ∀ u ∈ b.units, ∀ t ∈ u.stmt.targets, t ∈ b.ids
  declared : ∀ u ∈ b.units, ∀ x ∈ u.stmt.locals, x ∈ b.locals.map (·.id)
  traps : ∀ t ∈ b.traps, t.handler ∈ b.ids ∧
    ∃ first last, b.trapSpan? t = some (first, last) ∧ first < last

def unitDefect? (b : Body) (u : CodeUnit) : Option Violation :=
  (u.stmt.targets.findSome? fun t ↦ if b.hasUnit t then none else some (.missingTarget u.id t)).or
    (u.stmt.locals.findSome? fun x ↦
      if b.declares x then none else some (.undeclaredLocal u.id x))

def trapDefect? (b : Body) (t : Trap) : Option Violation :=
  match b.position? t.first, b.position? t.last with
  | none, _ => some (.missingBoundary t.first)
  | some _, none => some (.missingBoundary t.last)
  | some first, some last =>
    if !b.hasUnit t.handler then some (.missingBoundary t.handler)
    else if last ≤ first then some (.invertedTrap t.first t.last)
    else none

/-- The first violation: units in order, in each its jumps and then its locals, then the traps. -/
def defect? (b : Body) : Option Violation :=
  if b.units.isEmpty then some .noUnits
  else if ¬ b.ids.Nodup then some .duplicateUnits
  else (b.units.findSome? b.unitDefect?).or (b.traps.findSome? b.trapDefect?)

def validate (b : Body) : Except Error Unit :=
  match b.defect? with
  | some violation => .error (.invariant violation)
  | none => .ok ()

def agrees (b c : Body) : Bool :=
  b.locals == c.locals && b.traps == c.traps && b.nextUnit == c.nextUnit && b.ids == c.ids &&
    (b.units.zip c.units).all fun (u, v) ↦ u.stmt.agrees v.stmt

end ThreeAddress.Body
