import ThreeAddress.Ty

namespace ThreeAddress

/-- How many identities there are: they are numbers of 32 bits. -/
def idCount : Nat := 4294967296

/-- The identity that a count comes to. Past the last one it starts over. -/
def wrapId (n : Nat) : Nat := n % idCount

theorem wrapId_of_lt {n : Nat} (h : n < idCount) : wrapId n = n := Nat.mod_eq_of_lt h

theorem wrapId_lt (n : Nat) : wrapId n < idCount := Nat.mod_lt n (by decide)

@[simp] theorem wrapId_wrapId_add (n k : Nat) : wrapId (wrapId n + k) = wrapId (n + k) :=
  Nat.mod_add_mod n idCount k

structure LocalId where
  index : Nat
deriving DecidableEq, Repr, Inhabited

namespace LocalId

def text (x : LocalId) : String := "l" ++ toString x.index

end LocalId

structure Local where
  id : LocalId
  name : String
  ty : Ty
deriving DecidableEq, Repr, Inhabited

namespace Local

def text (l : Local) : String := l.ty.text ++ " " ++ l.name

end Local

/-- Hands out the identities of the locals of one method, in order from zero. Temporaries are
numbered apart, in one sequence for all types. -/
structure LocalSupply where
  freshId : Nat := 0
  nextTemp : Nat := 0
deriving DecidableEq, Repr, Inhabited

namespace LocalSupply

def named (g : LocalSupply) (name : String) (ty : Ty) : Local × LocalSupply :=
  (⟨⟨g.freshId⟩, name, ty⟩, { g with freshId := wrapId (g.freshId + 1) })

def temp (g : LocalSupply) (ty : Ty) : Local × LocalSupply :=
  { g with nextTemp := wrapId (g.nextTemp + 1) }.named
    ("$" ++ ty.tempLetter ++ toString g.nextTemp) ty

end LocalSupply

end ThreeAddress
