import ThreeAddress.Body.Basic
import ThreeAddress.Flow.Search

namespace ThreeAddress

structure FlowGraph where
  ids : List UnitId
  /-- For each position, the positions that may follow in normal control flow. -/
  normal : List (List Nat)
  /-- For each position, the positions that may follow when the unit throws. -/
  exceptional : List (List Nat)
deriving DecidableEq, Repr

namespace Body

/-- Normal edges: the next unit first if control may fall through, then the jump targets. A target
that names no unit has no edge. -/
def normalSuccessors (b : Body) (p : Nat) (s : Stmt) : List Nat :=
  let next := if s.fallsThrough && decide (p + 1 < b.size) then [p + 1] else []
  (next ++ s.targets.filterMap b.position?).eraseDups

def exceptionalSuccessors (b : Body) (p : Nat) (s : Stmt) : List Nat :=
  if s.mayThrow then
    ((b.traps.filter (b.covers · p)).filterMap fun t ↦ b.position? t.handler).eraseDups
  else []

def flowGraph (b : Body) : FlowGraph where
  ids := b.ids
  normal := b.units.zipIdx.map fun (u, p) ↦ b.normalSuccessors p u.stmt
  exceptional := b.units.zipIdx.map fun (u, p) ↦ b.exceptionalSuccessors p u.stmt

end Body

namespace FlowGraph

def size (g : FlowGraph) : Nat := g.ids.length

def positions (g : FlowGraph) : List Nat := List.range g.size

def succs (g : FlowGraph) (p : Nat) : List Nat := g.normal.getD p []

def catches (g : FlowGraph) (p : Nat) : List Nat := g.exceptional.getD p []

def preds (g : FlowGraph) (p : Nat) : List Nat := g.positions.filter fun q ↦ p ∈ g.succs q

def throwers (g : FlowGraph) (p : Nat) : List Nat := g.positions.filter fun q ↦ p ∈ g.catches q

def predTable (g : FlowGraph) : List (List Nat) := g.positions.map g.preds

def throwerTable (g : FlowGraph) : List (List Nat) := g.positions.map g.throwers

def reachable (g : FlowGraph) : List Nat :=
  explore (fun p ↦ g.succs p ++ g.catches p) g.positions [0]

end FlowGraph

end ThreeAddress
