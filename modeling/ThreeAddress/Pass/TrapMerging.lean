import ThreeAddress.Pass.Basic

namespace ThreeAddress

namespace TrapMerging

def repeated (ts : List Trap) : List Trap :=
  (ts.zipIdx.filter fun (t, i) ↦ (ts.take i).contains t).map (·.1)

def dropRepeated (r : Revision) : Revision :=
  r.withNotes { r.body with traps := r.body.traps.eraseDups }
    ((repeated r.body.traps).map fun t ↦
      ⟨.trapRemoved, none, "duplicate trap for " ++ t.exception.text ++ " dropped"⟩)

/-- Whether the trap reaches into the positions from `first` up to `last`. A trap with an end that
is no unit counts as one that does. -/
def intrudes (b : Body) (first last : Nat) (t : Trap) : Bool :=
  match b.trapSpan? t with
  | some (p, q) => decide (p < last ∧ first < q)
  | none => true

/-- The union of two traps that overlap or meet, if no trap in between intrudes on it. -/
def union? (b : Body) (s t : Trap) (between : List Trap) : Option Trap :=
  if s.handler = t.handler ∧ s.exception = t.exception then
    match b.trapSpan? s, b.trapSpan? t with
    | some (p, q), some (p', q') =>
      if q' < p ∨ q < p' then none
      else if between.any (intrudes b (min p p') (max q q')) then none
      else some { s with
        first := if p ≤ p' then s.first else t.first
        last := if q' ≤ q then s.last else t.last }
    | _, _ => none
  else none

def unionAt? (b : Body) (i j : Nat) : Option (Nat × Nat × Trap) :=
  if i < j then
    match b.traps[i]?, b.traps[j]? with
    | some s, some t =>
      (union? b s t ((b.traps.take j).drop (i + 1))).map fun u ↦ (i, j, u)
    | _, _ => none
  else none

def findUnion? (b : Body) : Option (Nat × Nat × Trap) :=
  (List.range b.traps.length).findSome? fun i ↦
    (List.range b.traps.length).findSome? fun j ↦ unionAt? b i j

/-- Merges pairs of traps as long as there is one. The union takes the place of the first. -/
def mergeAll (r : Revision) : Revision :=
  match findUnion? r.body with
  | none => r
  | some (i, j, t) =>
    if j < r.body.traps.length then
      mergeAll (r.withNote { r.body with traps := (r.body.traps.set i t).eraseIdx j }
        ⟨.trapRemoved, none, "trap for " ++ t.exception.text ++ " merged into a neighbour"⟩)
    else r
termination_by r.body.traps.length
decreasing_by
  simp only [Revision.withNote, List.length_eraseIdx, List.length_set]
  split <;> omega

def revise (b : Body) : Revision := mergeAll (dropRepeated (⟨b, [], false⟩ : Revision).dropEmptyTraps)

end TrapMerging

def Pass.trapMerging : Pass where
  name := "trap-minimization"
  description := "Removes empty and duplicate traps and merges overlapping ones"
  run _ b := (TrapMerging.revise b).finish

end ThreeAddress
