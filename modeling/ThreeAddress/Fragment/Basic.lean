import ThreeAddress.Body.Edit

namespace ThreeAddress

structure OpenJump where
  unit : UnitId
  label : String
deriving DecidableEq, Repr, Inhabited

structure Fragment where
  locals : List Local := []
  units : List CodeUnit := []
  traps : List Trap := []
  /-- The unit that each label marks, one entry for each label. -/
  labels : List (String × UnitId) := []
  openJumps : List OpenJump := []
deriving DecidableEq, Repr, Inhabited

namespace Fragment

def isEmpty (f : Fragment) : Bool := f.units.isEmpty

def setLabel (f : Fragment) (label : String) (u : UnitId) : Fragment :=
  { f with labels := f.labels.filter (·.1 ≠ label) ++ [(label, u)] }

end Fragment

structure FragmentDraft where
  fragment : Fragment := {}
  pending : List String := []
  nextUnit : Nat := 0
deriving DecidableEq, Repr, Inhabited

namespace FragmentDraft

def freshId (b : FragmentDraft) : UnitId := ⟨wrapId b.nextUnit⟩

def declareLocal (b : FragmentDraft) (l : Local) : FragmentDraft :=
  { b with fragment := { b.fragment with locals := b.fragment.locals ++ [l] } }

def pushTrap (b : FragmentDraft) (t : Trap) : FragmentDraft :=
  { b with fragment := { b.fragment with traps := b.fragment.traps ++ [t] } }

def push (b : FragmentDraft) (s : Stmt) : FragmentDraft :=
  let marked := b.pending.foldl (fun f label ↦ f.setLabel label b.freshId) b.fragment
  { fragment := { marked with units := marked.units ++ [⟨b.freshId, s⟩] }
    pending := []
    nextUnit := wrapId (b.nextUnit + 1) }

def label (b : FragmentDraft) (name : String) : FragmentDraft :=
  { b with pending := b.pending ++ [name] }

def pushJump (b : FragmentDraft) (s : Stmt) (label : String) : FragmentDraft :=
  let pushed := b.push s
  let jumps := pushed.fragment.openJumps ++ [⟨b.freshId, label⟩]
  { pushed with fragment := { pushed.fragment with openJumps := jumps } }

def jumpTo (b : FragmentDraft) (label : String) : FragmentDraft :=
  b.pushJump (.goto b.freshId) label

def branchTo (b : FragmentDraft) (condition : Comparison) (label : String) :
    FragmentDraft :=
  b.pushJump (.branch condition b.freshId) label

def build (b : FragmentDraft) : Except Error Fragment :=
  match b.pending with
  | [] => .ok b.fragment
  | label :: _ => .error (.invariant (.danglingLabel label))

end FragmentDraft

end ThreeAddress
