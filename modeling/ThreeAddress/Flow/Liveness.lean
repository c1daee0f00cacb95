import ThreeAddress.Flow.Graph
import ThreeAddress.Flow.Worklist

namespace ThreeAddress

structure Liveness where
  /-- For each position, the locals that are live there. -/
  entry : List (List LocalId)
  /-- For each position, the locals that are live on some edge that leaves it. -/
  exit : List (List LocalId)

/-- What holds in front of a unit and behind it. Facts come from the units that may follow. Those in
front of the next unit go on to the front if the unit keeps them, those in front of a handler in any
case, and the unit adds what it uses. -/
def Facts.backward (succs catches : List (List Nat)) (kept used : List Nat) (known : Nat → Facts)
    (p : Nat) : Facts :=
  let next := FactSet.union ((succs.getD p []).map fun q ↦ (known q).entry)
  let caught := FactSet.union ((catches.getD p []).map fun q ↦ (known q).entry)
  { entry := next &&& kept.getD p 0 ||| (used.getD p 0 ||| caught), exit := next ||| caught }

section Backward

variable {succs catches : List (List Nat)} {kept used : List Nat} {known : Nat → Facts} {p i : Nat}

theorem Facts.testBit_entry_backward :
    (backward succs catches kept used known p).entry.testBit i = true ↔
      (∃ q ∈ succs.getD p [], (known q).entry.testBit i = true) ∧
          (kept.getD p 0).testBit i = true ∨
        (used.getD p 0).testBit i = true ∨
        ∃ q ∈ catches.getD p [], (known q).entry.testBit i = true := by
  simp only [backward, Nat.testBit_or, Nat.testBit_and, Bool.or_eq_true, Bool.and_eq_true,
    FactSet.testBit_union]

theorem Facts.testBit_exit_backward :
    (backward succs catches kept used known p).exit.testBit i = true ↔
      (∃ q ∈ succs.getD p [], (known q).entry.testBit i = true) ∨
        ∃ q ∈ catches.getD p [], (known q).entry.testBit i = true := by
  simp only [backward, Nat.testBit_or, Bool.or_eq_true, FactSet.testBit_union]

theorem Facts.backward_mono {k l : Nat → Facts} (h : ∀ q, (k q).Below (l q)) (p : Nat) :
    (backward succs catches kept used k p).Below (backward succs catches kept used l p) := by
  have hsome : ∀ {qs : List Nat} {i}, (∃ q ∈ qs, (k q).entry.testBit i = true) →
      ∃ q ∈ qs, (l q).entry.testBit i = true := fun ⟨q, hq, hi⟩ ↦ ⟨q, hq, (h q).entry _ hi⟩
  constructor
  · intro i hi
    rw [testBit_entry_backward] at hi ⊢
    exact hi.imp (fun hi ↦ ⟨hsome hi.1, hi.2⟩) (Or.imp_right hsome)
  · intro i hi
    rw [testBit_exit_backward] at hi ⊢
    exact hi.imp hsome hsome

theorem Facts.backward_within {width : Nat}
    (hused : ∀ p i, (used.getD p 0).testBit i = true → i < width)
    (h : ∀ q, (known q).Within width) (p : Nat) :
    (backward succs catches kept used known p).Within width := by
  have hsome : ∀ {qs : List Nat} {i}, (∃ q ∈ qs, (known q).entry.testBit i = true) → i < width :=
    fun ⟨q, _, hi⟩ ↦ (h q).entry _ hi
  constructor
  · intro i hi
    rw [testBit_entry_backward] at hi
    exact hi.elim (fun hi ↦ hsome hi.1) fun hi ↦ hi.elim (hused p i) hsome
  · intro i hi
    rw [testBit_exit_backward] at hi
    exact hi.elim hsome hsome

end Backward

/-- Locals, by their place in the list, that are live in front of each unit and behind it. Only what
is live in front of a unit is read at other positions. -/
def FlowGraph.livenessFlow (g : FlowGraph) (preds throwers : List (List Nat))
    (defined : List (Option LocalId)) (read : List (List LocalId)) (locals : List LocalId) :
    DataFlow :=
  let all := List.range locals.length
  let kept := FactSet.table g.size fun p ↦ all.filter fun i ↦ locals[i]? != defined.getD p none
  let used := FactSet.table g.size fun p ↦
    all.filter fun i ↦ locals[i]?.any (read.getD p []).contains
  { size := g.size
    width := locals.length
    derive := .backward g.normal g.exceptional kept used
    readers := fun p ↦ preds.getD p [] ++ throwers.getD p []
    isNews := fun r s ↦ r.entry != s.entry
    isNews_self := fun r ↦ by simp
    derive_mono := Facts.backward_mono
    derive_within := Facts.backward_within fun p i hi ↦
      List.mem_range.1 (List.mem_filter.1 (FactSet.testBit_table.1 hi).2).1 }

namespace Body

def liveness (b : Body) : Liveness :=
  let g := b.flowGraph
  let preds := g.predTable
  let throwers := g.throwerTable
  let defined := b.units.map fun u ↦ u.stmt.def?
  let read := b.units.map fun u ↦ u.stmt.uses
  let locals := b.mentioned.eraseDups
  let live := (g.livenessFlow preds throwers defined read locals).solve g.positions.reverse
  { entry := live.map fun r ↦ FactSet.pick r.entry locals
    exit := live.map fun r ↦ FactSet.pick r.exit locals }

end Body

namespace Liveness

def size (l : Liveness) : Nat := l.entry.length

def liveIn (l : Liveness) (p : Nat) : List LocalId := l.entry.getD p []

def liveOut (l : Liveness) (p : Nat) : List LocalId := l.exit.getD p []

end Liveness

end ThreeAddress
