import ThreeAddress.Flow.Liveness
import ThreeAddress.Pass.Basic

namespace ThreeAddress

namespace LocalPacking

/-- The pairs of locals whose values are needed at once: a definition and what is live after it,
and any two locals live on entry. -/
def conflicts (b : Body) : List (LocalId × LocalId) :=
  let l := b.liveness
  let entry := if l.size = 0 then [] else l.liveIn 0
  (b.units.zipIdx.flatMap fun (u, p) ↦
      u.stmt.def?.toList.flatMap fun x ↦ (l.liveOut p).map (x, ·)) ++
    entry.flatMap fun x ↦ entry.map (x, ·)

/-- Locals of one type, no two of them in conflict, that share the local of the representative. -/
structure Sharing where
  representative : LocalId
  ty : Ty
  members : List LocalId
deriving Repr

def Sharing.admits (pairs : List (LocalId × LocalId)) (l : Local) (g : Sharing) : Bool :=
  g.ty == l.ty && g.members.all fun m ↦
    m == l.id || !(pairs.contains (l.id, m) || pairs.contains (m, l.id))

/-- Puts a local into the first group that admits it, or else into a group of its own. -/
def place (pairs : List (LocalId × LocalId)) (l : Local) : List Sharing → List Sharing
  | [] => [⟨l.id, l.ty, [l.id]⟩]
  | g :: gs =>
    if g.admits pairs l then { g with members := g.members ++ [l.id] } :: gs
    else g :: place pairs l gs

def isBound (b : Body) (x : LocalId) : Bool :=
  b.units.any fun u ↦ match u.stmt with
    | .identity y _ => y == x
    | _ => false

def candidates (b : Body) : List Local :=
  b.locals.filter fun l ↦ !isBound b l.id && b.mentioned.contains l.id

/-- The representative of the group that takes a local in, if there is one. -/
def host? (pairs : List (LocalId × LocalId)) (l : Local) (gs : List Sharing) : Option LocalId :=
  (gs.find? (·.admits pairs l)).map (·.representative)

/-- The locals that join a group, one entry for each, with its representative. Of the entries of a
local that is listed twice the last one counts. -/
def joins (pairs : List (LocalId × LocalId)) (gs : List Sharing) :
    List Local → List (LocalId × LocalId)
  | [] => []
  | l :: ls =>
    let rest := joins pairs (place pairs l gs) ls
    if rest.any (·.1 == l.id) then rest
    else ((host? pairs l gs).map (l.id, ·)).toList ++ rest

def mapping (b : Body) : List (LocalId × LocalId) := joins (conflicts b) [] (candidates b)

def revise (b : Body) : Revision :=
  let packed := mapping b
  let sorted := packed.mergeSort fun s t ↦ decide (s.1.index ≤ t.1.index)
  ⟨b.mapStmts (·.mapLocals fun x ↦ (packed.lookup x).getD x),
    sorted.map fun (x, y) ↦ ⟨.localsPacked, none, x.text ++ " packed into " ++ y.text⟩,
    !packed.isEmpty⟩

end LocalPacking

def Pass.localPacking : Pass where
  name := "local-packing"
  description := "Shares one local between same-typed locals with disjoint live ranges"
  run _ b := (LocalPacking.revise b).finish

end ThreeAddress
