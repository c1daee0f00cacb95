import ThreeAddress.Body.Basic
import ThreeAddress.Event.Stats

namespace ThreeAddress

structure Batch where
  bodies : List (String × Body) := []
  /-- The names under which a stub was ever stored, each once. -/
  stubs : List String := []
  log : EventLog := {}
deriving Repr, Inhabited

namespace Batch

def size (c : Batch) : Nat := c.bodies.length

def isEmpty (c : Batch) : Bool := c.bodies.isEmpty

def body? (c : Batch) (method : String) : Option Body := c.bodies.lookup method

def insert (c : Batch) (method : String) (body : Body) (stubbed : Bool) : Batch :=
  { c with
    bodies := c.bodies.filter (·.1 ≠ method) ++ [(method, body)]
    stubs := if stubbed && !c.stubs.contains method then c.stubs ++ [method] else c.stubs }

def take (c : Batch) (method : String) : Option Body × Batch :=
  (c.body? method, { c with bodies := c.bodies.filter (·.1 ≠ method) })

def hasStub (c : Batch) (method : String) : Bool := c.stubs.contains method

def report (c : Batch) (e : Event) : Batch := { c with log := c.log.push e }

end Batch

end ThreeAddress
