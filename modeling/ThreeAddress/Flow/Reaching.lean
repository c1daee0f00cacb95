import ThreeAddress.Flow.Graph
import ThreeAddress.Flow.Worklist

namespace ThreeAddress

structure Reaching where
  graph : FlowGraph
  /-- For each position, the local it defines. -/
  defined : List (Option LocalId)
  /-- For each position, the locals it reads. -/
  read : List (List LocalId)
  /-- For each position, the definitions that reach it. -/
  reached : List (List Nat)
  /-- For each position, the locals that may be unassigned there. -/
  unassigned : List (List LocalId)

/-- What holds in front of a unit and behind it. The entry begins with the facts of `first`. A unit
gets what holds behind the units before it, and a handler also what holds in front of a unit that
throws. Behind a unit those facts hold that it keeps and those that it makes. -/
def Facts.forward (preds throwers : List (List Nat)) (first : Nat) (kept made : List Nat)
    (known : Nat → Facts) (p : Nat) : Facts :=
  let entry := (if p = 0 then first else 0) |||
    (FactSet.union ((preds.getD p []).map fun q ↦ (known q).exit) |||
      FactSet.union ((throwers.getD p []).map fun q ↦ (known q).entry ||| (known q).exit))
  { entry, exit := entry &&& kept.getD p 0 ||| made.getD p 0 }

section Forward

variable {preds throwers : List (List Nat)} {first : Nat} {kept made : List Nat}
  {known : Nat → Facts} {p i : Nat}

theorem Facts.testBit_entry_forward :
    (forward preds throwers first kept made known p).entry.testBit i = true ↔
      p = 0 ∧ first.testBit i = true ∨ (∃ q ∈ preds.getD p [], (known q).exit.testBit i = true) ∨
        ∃ q ∈ throwers.getD p [], (known q).entry.testBit i = true ∨
          (known q).exit.testBit i = true := by
  simp only [forward, Nat.testBit_or, Bool.or_eq_true, FactSet.testBit_union]
  refine or_congr_left ?_
  split
  · next hp => simp [hp]
  · next hp => simp [hp]

theorem Facts.testBit_exit_forward :
    (forward preds throwers first kept made known p).exit.testBit i = true ↔
      (forward preds throwers first kept made known p).entry.testBit i = true ∧
        (kept.getD p 0).testBit i = true ∨ (made.getD p 0).testBit i = true := by
  simp only [forward, Nat.testBit_or, Nat.testBit_and, Bool.or_eq_true, Bool.and_eq_true]

theorem Facts.forward_mono {k l : Nat → Facts} (h : ∀ q, (k q).Below (l q)) (p : Nat) :
    (forward preds throwers first kept made k p).Below
      (forward preds throwers first kept made l p) := by
  have hentry : ∀ i, (forward preds throwers first kept made k p).entry.testBit i = true →
      (forward preds throwers first kept made l p).entry.testBit i = true := by
    intro i hi
    rw [testBit_entry_forward] at hi ⊢
    obtain hi | ⟨q, hq, hi⟩ | ⟨q, hq, hi⟩ := hi
    · exact .inl hi
    · exact .inr (.inl ⟨q, hq, (h q).exit i hi⟩)
    · exact .inr (.inr ⟨q, hq, hi.imp ((h q).entry i) ((h q).exit i)⟩)
  refine ⟨hentry, fun i hi ↦ ?_⟩
  rw [testBit_exit_forward] at hi ⊢
  exact hi.imp_left fun hi ↦ ⟨hentry i hi.1, hi.2⟩

theorem Facts.forward_within {width : Nat} (hfirst : ∀ i, first.testBit i = true → i < width)
    (hmade : ∀ p i, (made.getD p 0).testBit i = true → i < width)
    (h : ∀ q, (known q).Within width) (p : Nat) :
    (forward preds throwers first kept made known p).Within width := by
  have hentry : ∀ i, (forward preds throwers first kept made known p).entry.testBit i = true →
      i < width := by
    intro i hi
    rw [testBit_entry_forward] at hi
    obtain hi | ⟨q, -, hi⟩ | ⟨q, -, hi⟩ := hi
    · exact hfirst i hi.2
    · exact (h q).exit i hi
    · exact hi.elim ((h q).entry i) ((h q).exit i)
  refine ⟨hentry, fun i hi ↦ ?_⟩
  rw [testBit_exit_forward] at hi
  exact hi.elim (fun hi ↦ hentry i hi.1) (hmade p i)

end Forward

namespace FlowGraph

def reachingFlow (g : FlowGraph) (preds throwers : List (List Nat))
    (defined : List (Option LocalId)) : DataFlow :=
  let kept := FactSet.table g.size fun p ↦ g.positions.filter fun d ↦
    defined.getD p none == none || defined.getD d none != defined.getD p none
  let made := FactSet.table g.size fun p ↦ if defined.getD p none == none then [] else [p]
  { size := g.size
    width := g.size
    derive := .forward preds throwers 0 kept made
    readers := fun p ↦ g.succs p ++ g.catches p
    derive_mono := Facts.forward_mono
    derive_within := by
      refine Facts.forward_within (fun i hi ↦ by simp at hi) fun p i hi ↦ ?_
      obtain ⟨hp, hi⟩ := FactSet.testBit_table.1 hi
      split at hi
      · cases hi
      · exact List.mem_singleton.1 hi ▸ hp }

/-- Locals, by their place in the list, that may be unassigned in front of each unit and behind it. -/
def unassignedFlow (g : FlowGraph) (preds throwers : List (List Nat))
    (defined : List (Option LocalId)) (locals : List LocalId) : DataFlow :=
  let all := List.range locals.length
  let kept := FactSet.table g.size fun p ↦ all.filter fun i ↦ locals[i]? != defined.getD p none
  { size := g.size
    width := locals.length
    derive := .forward preds throwers (FactSet.ofList all) kept []
    readers := fun p ↦ g.succs p ++ g.catches p
    derive_mono := Facts.forward_mono
    derive_within := Facts.forward_within
      (fun i hi ↦ List.mem_range.1 ((FactSet.testBit_ofList _ i).1 hi)) fun p i hi ↦ by simp at hi }

end FlowGraph

namespace Body

def reaching (b : Body) : Reaching :=
  let g := b.flowGraph
  let preds := g.predTable
  let throwers := g.throwerTable
  let defined := b.units.map fun u ↦ u.stmt.def?
  let locals := b.mentioned.eraseDups
  let reached := (g.reachingFlow preds throwers defined).solve g.positions
  let unassigned := (g.unassignedFlow preds throwers defined locals).solve g.positions
  { graph := g
    defined
    read := b.units.map fun u ↦ u.stmt.uses
    reached := reached.map fun r ↦ FactSet.pick r.entry g.positions
    unassigned := unassigned.map fun r ↦ FactSet.pick r.entry locals }

end Body

namespace Reaching

def defines (i : Reaching) (p : Nat) (x : LocalId) : Bool := i.defined.getD p none == some x

def reads (i : Reaching) (p : Nat) (x : LocalId) : Bool := (i.read.getD p []).contains x

def reaches (i : Reaching) (d p : Nat) : Bool := (i.reached.getD p []).contains d

def definitionsOf (i : Reaching) (x : LocalId) : List Nat :=
  i.graph.positions.filter (i.defines · x)

def readersOf (i : Reaching) (x : LocalId) : List Nat :=
  i.graph.positions.filter (i.reads · x)

def reachingDefinitions (i : Reaching) (x : LocalId) (p : Nat) : List Nat :=
  (i.definitionsOf x).filter (i.reaches · p)

def reachedReaders (i : Reaching) (d : Nat) : List Nat :=
  match i.defined.getD d none with
  | some x => (i.readersOf x).filter (i.reaches d)
  | none => []

def isUnused (i : Reaching) (d : Nat) : Bool := (i.reachedReaders d).isEmpty

def mayBeUnassigned (i : Reaching) (x : LocalId) (p : Nat) : Bool :=
  (i.unassigned.getD p []).contains x

end Reaching

end ThreeAddress
