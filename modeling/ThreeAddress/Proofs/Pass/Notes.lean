import ThreeAddress.Proofs.Pass.StoredComparisons
import ThreeAddress.Pipeline
import ThreeAddress.Proofs.Pass.CopyPropagation
import ThreeAddress.Proofs.Pass.Locals
import ThreeAddress.Proofs.Pass.Statements
import ThreeAddress.Proofs.Pass.Traps

namespace ThreeAddress

namespace Revision

variable {r : Revision} {b : Body}

def NotesChanges (r : Revision) : Prop := ∀ n ∈ r.notes, n.kind.isChange = true

theorem NotesChanges.start (b : Body) (changed : Bool) : NotesChanges ⟨b, [], changed⟩ := by
  simp [NotesChanges]

theorem NotesChanges.withNotes {notes : List Note} (h : r.NotesChanges)
    (hn : ∀ n ∈ notes, n.kind.isChange = true) : (r.withNotes b notes).NotesChanges :=
  fun n hm ↦ (List.mem_append.1 hm).elim (h n) (hn n)

theorem NotesChanges.withNote {n : Note} (h : r.NotesChanges) (hn : n.kind.isChange = true) :
    (r.withNote b n).NotesChanges := by
  intro n' hm
  obtain hm | hm := List.mem_append.1 hm
  · exact h n' hm
  · exact List.mem_singleton.1 hm ▸ hn

theorem NotesChanges.dropEmptyTraps (h : r.NotesChanges) : r.dropEmptyTraps.NotesChanges :=
  h.withNotes fun n hn ↦ by
    obtain ⟨t, -, rfl⟩ := List.mem_map.1 hn
    rfl

theorem NotesChanges.removeUnit {u : UnitId} {note : Nat → Note} (h : r.NotesChanges)
    (hn : ∀ p, (note p).kind.isChange = true) : (r.removeUnit u note).NotesChanges := by
  unfold Revision.removeUnit
  cases r.body.position? u with
  | none => exact h
  | some p =>
    dsimp only
    split
    · exact h.withNote (hn p)
    · exact h

theorem NotesChanges.removeFirst {test : Body → Nat → Bool} {note : Nat → UnitId → Note}
    (h : r.NotesChanges) (hn : ∀ p u, (note p u).kind.isChange = true) :
    (r.removeFirst test note).NotesChanges := by
  fun_induction Revision.removeFirst test note r with
  | case1 r hnone => exact h
  | case2 r p hp unit ih => exact ih (h.withNote (hn p _))

theorem NotesChanges.foldl {β : Type} {step : Revision → β → Revision}
    (hs : ∀ r x, r.NotesChanges → (step r x).NotesChanges) (xs : List β) (h : r.NotesChanges) :
    (xs.foldl step r).NotesChanges := by
  induction xs generalizing r with
  | nil => exact h
  | cons x xs ih => exact ih (hs r x h)

end Revision

def Pass.NotesChanges (pass : Pass) : Prop :=
  ∀ m b, ∀ n ∈ (pass.run m b).notes, n.kind.isChange = true

theorem Pass.ByRule.notesChanges {pass : Pass} (h : pass.ByRule) : pass.NotesChanges := by
  obtain ⟨rule, hrule, hrun⟩ := h
  intro m b n hn
  rw [hrun] at hn
  obtain ⟨⟨u, p⟩, -, hn⟩ := List.mem_filterMap.1 hn
  obtain ⟨⟨t, kind, message⟩, ht, rfl⟩ := Option.map_eq_some_iff.1 hn
  exact (hrule m b u.stmt t kind message ht).2

open Revision

namespace JumpThreading

theorem notesChanges : Pass.jumpThreading.NotesChanges := by
  intro m b
  refine ((NotesChanges.start b false).withNotes ?_).removeFirst (fun _ _ ↦ rfl) |>.dropEmptyTraps
  intro n hn
  obtain ⟨⟨u, p⟩, -, hn⟩ := List.mem_flatMap.1 hn
  obtain ⟨t, -, rfl⟩ := List.mem_map.1 hn
  rfl

end JumpThreading

namespace ConstantBranches

theorem notesChanges : Pass.constantBranches.NotesChanges := by
  intro m b
  refine (NotesChanges.foldl (fun r x h ↦ ?_) _ (.start b false)).dropEmptyTraps
  obtain ⟨u, v⟩ := x
  cases v with
  | jumps target => exact h.withNote rfl
  | fallsThrough => exact h.removeUnit fun _ ↦ rfl

end ConstantBranches

namespace LocalPacking

theorem notesChanges : Pass.localPacking.NotesChanges := by
  intro m b n hn
  obtain ⟨⟨x, y⟩, -, rfl⟩ := List.mem_map.1 hn
  rfl

end LocalPacking

namespace UnusedLocals

theorem notesChanges : Pass.unusedLocals.NotesChanges := by
  intro m b n hn
  obtain ⟨l, -, rfl⟩ := List.mem_map.1 hn
  rfl

end UnusedLocals

namespace TrapTightening

theorem notesChanges : Pass.trapTightening.NotesChanges := by
  intro m b n hn
  dsimp only [Pass.trapTightening, run] at hn
  split at hn
  all_goals
    obtain ⟨t, -, ht⟩ := List.mem_filterMap.1 hn
    exact kind_note? ht

end TrapTightening

namespace TrapMerging

theorem notesChanges_mergeAll {r : Revision} (h : r.NotesChanges) : (mergeAll r).NotesChanges := by
  fun_induction mergeAll r with
  | case1 r hf => exact h
  | case2 r i j t hf hlt ih => exact ih (h.withNote rfl)
  | case3 r i j t hf hlt => exact h

theorem notesChanges : Pass.trapMerging.NotesChanges := by
  intro m b
  refine notesChanges_mergeAll ((NotesChanges.start b false).dropEmptyTraps.withNotes ?_)
  intro n hn
  obtain ⟨t, -, rfl⟩ := List.mem_map.1 hn
  rfl

end TrapMerging

namespace TemporaryFolding

theorem notesChanges_mergeAll {r : Revision} (h : r.NotesChanges) : (mergeAll r).NotesChanges := by
  fun_induction mergeAll r with
  | case1 r hf => exact h
  | case2 r p hf hlt ih => exact ih (h.withNote rfl)
  | case3 r p hf hlt => exact h

theorem notesChanges : Pass.temporaryFolding.NotesChanges :=
  fun _ b ↦ notesChanges_mergeAll (.start b false)

end TemporaryFolding

namespace UnreachableUnits

theorem notesChanges_drop {r : Revision} (h : r.NotesChanges) (u : UnitId) (p : Nat) :
    (drop r u p).NotesChanges := by
  unfold drop
  split
  · exact h.removeUnit fun _ ↦ rfl
  · split
    · exact h
    · exact h
    · exact h.withNote rfl

theorem notesChanges : Pass.unreachableUnits.NotesChanges := by
  intro m b
  change (revise b).NotesChanges
  unfold revise
  cases dead b with
  | nil => exact .start b false
  | cons d ds =>
    refine (NotesChanges.foldl (fun r x h ↦ notesChanges_drop h x.1 x.2) _ ?_).dropEmptyTraps
    refine (NotesChanges.start b false).withNotes fun n hn ↦ ?_
    obtain ⟨t, -, rfl⟩ := List.mem_map.1 hn
    rfl

end UnreachableUnits

namespace CopyPropagation

theorem notesChanges : Pass.copyPropagation.NotesChanges :=
  fun _ b ↦ kinds_foldl _ _ (NotesChanges.start b _)

end CopyPropagation

namespace StoredComparisons

theorem notesChanges : Pass.storedComparisons.NotesChanges :=
  fun _ b ↦ kinds_expandAll _ _ (NotesChanges.start b _)

end StoredComparisons

namespace DeadAllocations

theorem notesChanges : Pass.deadAllocations.NotesChanges :=
  fun _ b ↦ (NotesChanges.foldl (fun _ _ h ↦ h.removeUnit fun _ ↦ rfl) _
    (.start b false)).dropEmptyTraps

end DeadAllocations

namespace DeadAssignments

theorem notesChanges_round {r : Revision} (h : r.NotesChanges) : (round r).NotesChanges :=
  h.foldl (fun _ _ h ↦ h.removeUnit fun _ ↦ rfl) _

theorem notesChanges_rounds {r : Revision} (h : r.NotesChanges) : (rounds r).NotesChanges := by
  fun_induction rounds r with
  | case1 r next hlt ih => exact ih (notesChanges_round h)
  | case2 r next hge => exact notesChanges_round h

theorem notesChanges : Pass.deadAssignments.NotesChanges :=
  fun _ b ↦ (notesChanges_rounds (.start b false)).dropEmptyTraps

end DeadAssignments

namespace Nops

theorem notesChanges : Pass.nops.NotesChanges :=
  fun _ b ↦ ((NotesChanges.start b false).removeFirst fun _ _ ↦ rfl).dropEmptyTraps

end Nops

namespace LocalNames

theorem notesChanges : Pass.localNames.NotesChanges := by
  intro m b
  change (revise b).NotesChanges
  exact (NotesChanges.start b false).withNotes (notes_disambiguate [] 0 b.locals).2

end LocalNames

theorem Pass.notesChanges_of_mem_all {pass : Pass} (h : pass ∈ Pass.all) : pass.NotesChanges := by
  simp only [all, List.mem_cons, List.not_mem_nil, or_false] at h
  rcases h with rfl | rfl | rfl | rfl | rfl | rfl | rfl | rfl | rfl | rfl | rfl | rfl | rfl |
    rfl | rfl | rfl | rfl | rfl
  · exact JumpThreading.notesChanges
  · exact ConstantBranches.notesChanges
  · exact LocalPacking.notesChanges
  · exact UnusedLocals.notesChanges
  · exact TrapTightening.notesChanges
  · exact TrapMerging.notesChanges
  · exact TemporaryFolding.notesChanges
  · exact Pass.constantCasts_byRule.notesChanges
  · exact Pass.identityCasts_byRule.notesChanges
  · exact Pass.identityOperations_byRule.notesChanges
  · exact UnreachableUnits.notesChanges
  · exact Pass.booleanConstants_byRule.notesChanges
  · exact CopyPropagation.notesChanges
  · exact StoredComparisons.notesChanges
  · exact DeadAllocations.notesChanges
  · exact DeadAssignments.notesChanges
  · exact Nops.notesChanges
  · exact LocalNames.notesChanges

namespace Pipeline

variable {m : Signature} {e : Event}

/-- The event is about the method, and reports a change or marks the start or the end of a stage. -/
def Reports (m : Signature) (e : Event) : Prop :=
  e.method = some m.text ∧
    (e.kind.isChange = true ∨ e.kind = .passStarted ∨ e.kind = .passCompleted)

theorem reports_stage {pass : Pass} (hp : pass.NotesChanges) (v : Bool) (b : Body)
    (he : e ∈ (stage v m pass b).events) : Reports m e := by
  have hnotes : e ∈ (pass.run m b).notes.map (event m.text pass.name) → Reports m e := by
    intro h
    obtain ⟨n, hn, rfl⟩ := List.mem_map.1 h
    exact ⟨rfl, .inl (hp m b n hn)⟩
  unfold stage at he
  dsimp only at he
  split at he
  · obtain rfl | he := List.mem_cons.1 he
    · exact ⟨rfl, .inr (.inl rfl)⟩
    · exact hnotes he
  · obtain he | he := List.mem_append.1 he
    · obtain rfl | he := List.mem_cons.1 he
      · exact ⟨rfl, .inr (.inl rfl)⟩
      · exact hnotes he
    · obtain rfl := List.mem_singleton.1 he
      exact ⟨rfl, .inr (.inr rfl)⟩

theorem reports_runFrom {ps : List Pass} (hps : ∀ pass ∈ ps, pass.NotesChanges) (v changed : Bool)
    (b : Body) (he : e ∈ (runFrom v m changed b ps).events) : Reports m e := by
  induction ps generalizing b changed with
  | nil => cases he
  | cons pass ps ih =>
    have hp : pass.NotesChanges := hps pass List.mem_cons_self
    unfold runFrom at he
    cases hs : (stage v m pass b).result with
    | error f =>
      simp only [hs] at he
      exact reports_stage hp v b he
    | ok flag =>
      simp only [hs] at he
      obtain he | he := List.mem_append.1 he
      · exact reports_stage hp v b he
      · exact ih (fun q hq ↦ hps q (List.mem_cons_of_mem pass hq)) _ _ he

end Pipeline

end ThreeAddress
