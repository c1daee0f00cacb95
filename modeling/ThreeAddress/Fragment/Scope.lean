import ThreeAddress.Local

namespace ThreeAddress

structure Variable where
  name : String
  ty : Ty
deriving DecidableEq, Repr, Inhabited

structure Scope where
  supply : LocalSupply := {}
  /-- The locals found by name, oldest first. -/
  declared : List Local := []
deriving DecidableEq, Repr, Inhabited

namespace Scope

def declare (s : Scope) (name : String) (ty : Ty) : Local × Scope :=
  let (l, supply) := s.supply.named name ty
  (l, { supply, declared := s.declared ++ [l] })

/-- A local that the scope does not know by its name. -/
def fresh (s : Scope) (name : String) (ty : Ty) : Local × Scope :=
  let (l, supply) := s.supply.named name ty
  (l, { s with supply })

def temp (s : Scope) (ty : Ty) : Local × Scope :=
  let (l, supply) := s.supply.temp ty
  (l, { s with supply })

def lookup (s : Scope) (name : String) : Option LocalId :=
  (s.declared.reverse.find? (·.name == name)).map (·.id)

end Scope

end ThreeAddress
