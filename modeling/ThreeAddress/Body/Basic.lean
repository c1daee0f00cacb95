import ThreeAddress.Error

namespace ThreeAddress

/-- Units from `first` up to, and without, `last` are protected: an exception of the given type
goes from there to the handler. -/
structure Trap where
  first : UnitId
  last : UnitId
  handler : UnitId
  exception : Ty
deriving DecidableEq, Repr, Inhabited

namespace Trap

def refs (t : Trap) : List UnitId := [t.first, t.last, t.handler]

def mapRefs (f : UnitId → UnitId) (t : Trap) : Trap :=
  { t with first := f t.first, last := f t.last, handler := f t.handler }

end Trap

structure Body where
  locals : List Local := []
  units : List CodeUnit := []
  traps : List Trap := []
  /-- Every identity handed out so far lies below this bound. -/
  nextUnit : Nat := 0
deriving DecidableEq, Repr, Inhabited

namespace Body

def local? (b : Body) (x : LocalId) : Option Local := b.locals.find? (·.id == x)

def typeOf? (b : Body) (x : LocalId) : Option Ty := (b.local? x).map (·.ty)

/-- The type of a local in the look-up table, where the last declaration of an identity counts. -/
def tableType? (b : Body) (x : LocalId) : Option Ty :=
  (b.locals.reverse.find? (·.id == x)).map (·.ty)

def declares (b : Body) (x : LocalId) : Bool := b.locals.any (·.id == x)

/-- Declares a local, unless its identity is already declared. -/
def declareLocal (b : Body) (l : Local) : Body :=
  if b.declares l.id then b else { b with locals := b.locals ++ [l] }

/-- The locals that some unit mentions, with repetitions. -/
def mentioned (b : Body) : List LocalId := b.units.flatMap fun u ↦ u.stmt.locals

def size (b : Body) : Nat := b.units.length

def ids (b : Body) : List UnitId := b.units.map (·.id)

def hasUnit (b : Body) (u : UnitId) : Bool := b.units.any (·.id == u)

def position? (b : Body) (u : UnitId) : Option Nat := b.units.findIdx? (·.id == u)

def stmt? (b : Body) (u : UnitId) : Option Stmt := (b.units.find? (·.id == u)).map (·.stmt)

def stmtAt? (b : Body) (p : Nat) : Option Stmt := b.units[p]?.map (·.stmt)

def first? (b : Body) : Option UnitId := b.units.head?.map (·.id)

def successor? (b : Body) (u : UnitId) : Option UnitId := do
  let p ← b.position? u
  return (← b.units[p + 1]?).id

def trapSpan? (b : Body) (t : Trap) : Option (Nat × Nat) := do
  return (← b.position? t.first, ← b.position? t.last)

def covers (b : Body) (t : Trap) (p : Nat) : Bool :=
  match b.trapSpan? t with
  | some (first, last) => decide (first ≤ p ∧ p < last)
  | none => false

def isJumpTarget (b : Body) (u : UnitId) : Bool := b.units.any fun v ↦ u ∈ v.stmt.targets

def isHandler (b : Body) (u : UnitId) : Bool := b.traps.any (·.handler == u)

def isReferenced (b : Body) (u : UnitId) : Bool :=
  b.isJumpTarget u || b.traps.any fun t ↦ u ∈ t.refs

/-- Whether the unit can go: what refers to it moves on to its successor, so it needs one unless
nothing refers to it. -/
def isRemovable (b : Body) (u : UnitId) : Bool := (b.successor? u).isSome || !b.isReferenced u

end Body

end ThreeAddress
