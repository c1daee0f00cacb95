import ThreeAddress.Pipeline
import ThreeAddress.Proofs.Body.Opening
import ThreeAddress.Proofs.Pass.ConstantBranches
import ThreeAddress.Proofs.Pass.CopyPropagation
import ThreeAddress.Proofs.Pass.DeadCode
import ThreeAddress.Proofs.Pass.Jumps
import ThreeAddress.Proofs.Pass.Locals
import ThreeAddress.Proofs.Pass.Statements
import ThreeAddress.Proofs.Pass.PendingComparisons
import ThreeAddress.Proofs.Pass.TemporaryFolding
import ThreeAddress.Proofs.Pass.Traps
import ThreeAddress.Proofs.Pass.UnreachableUnits

namespace ThreeAddress

/-- Where the pass succeeds, and units are told apart before and after it, it leaves the opening as
it is. -/
def Pass.KeepsOpenings (pass : Pass) : Prop :=
  ∀ m b, b.ids.Nodup → b.Opens m → (∃ changed, (pass.run m b).result = .ok changed) →
    (pass.run m b).body.ids.Nodup → (pass.run m b).body.Opens m

namespace Body.Opens

variable {m : Signature} {b : Body}

theorem dropEmptyTraps (h : b.Opens m) : b.dropEmptyTraps.Opens m :=
  h.subTraps (List.filter_subset_self _)

theorem perStmt {rule : Stmt → Option (Stmt × EventKind × String)} (h : b.Opens m)
    (hr : IsRule rule) (hid : ∀ x i, rule (.identity x i) = none) :
    (Revision.perStmt rule b).body.Opens m := by
  refine h.mapStmts (fun p hp u hu ↦ ?_) fun u hu t ht ↦ ?_
  · obtain ⟨source, hs⟩ := h.unit hp
    obtain rfl := Option.some.inj (hu.symm.trans hs)
    simp [hid]
  · rw [(hr.flow u.stmt).targets] at ht
    exact h.targets u hu t ht

theorem modifyAt {f : Stmt → Stmt} (h : b.Opens m) (p : Nat) (hf : ∀ s : Stmt, s.SameFlow (f s))
    (hid : ∀ x i, f (.identity x i) = .identity x i) : (b.modifyAt p f).Opens m := by
  refine h.restated (.modifyAt p fun u _ ↦ hf u.stmt) h.locals fun q hq ↦ ?_
  obtain ⟨source, hs⟩ := h.unit hq
  by_cases hpq : p = q
  · simp [Body.modifyAt, hs, hpq, CodeUnit.mapStmt, hid]
  · simp [Body.modifyAt, hpq]

theorem removeUnit {r : Revision} (h : r.body.Opens m) {u : UnitId} {note : Nat → Note}
    (hu : m.inputCount ≤ u.index) : (r.removeUnit u note).body.Opens m := by
  unfold Revision.removeUnit
  cases hp : r.body.position? u with
  | none => exact h
  | some p =>
    obtain ⟨v, hv, rfl⟩ := unit_of_position? hp
    dsimp only
    split
    · exact h.removeAt ((h.index_iff hv).1 hu)
    · exact h

theorem mentioned (h : b.Opens m) {l : Local} (hl : l ∈ m.boundLocals) : l.id ∈ b.mentioned := by
  obtain ⟨p, hp⟩ := List.getElem?_of_mem hl
  obtain ⟨hlt, hid⟩ := Signature.id_of_boundLocals hp
  obtain ⟨source, hu⟩ := h.unit hlt
  exact mem_mentioned.2 ⟨_, List.mem_of_getElem? hu, by simp [Stmt.locals, Stmt.def?, hid]⟩

end Body.Opens

namespace JumpThreading

variable {m : Signature} {b : Body}

theorem followGotos_le (h : b.Opens m) (fresh : List UnitId) {u : UnitId}
    (hu : m.inputCount ≤ u.index) : m.inputCount ≤ (b.followGotos fresh u).index := by
  fun_induction Body.followGotos b fresh u with
  | case1 fresh u target hs hf ih =>
    obtain ⟨v, hv, hst⟩ := Option.map_eq_some_iff.1 hs
    exact ih (h.targets v (List.mem_of_find?_eq_some hv) target (by simp [hst, Stmt.targets]))
  | case2 => exact hu
  | case3 => exact hu

theorem keepsOpenings : Pass.jumpThreading.KeepsOpenings := by
  intro m b hn h _ _
  have hthread : (thread b).body.Opens m := by
    refine h.mapStmts (fun p hp u hu ↦ ?_) fun u hu t ht ↦ ?_
    · obtain ⟨source, hs⟩ := h.unit hp
      obtain rfl := Option.some.inj (hu.symm.trans hs)
      rfl
    · rw [Stmt.targets_mapTargets] at ht
      obtain ⟨z, hz, rfl⟩ := List.mem_map.1 ht
      exact followGotos_le h _ (h.targets u hu z hz)
  refine (revise_steps hn).opens (fun u hu ↦ .inl ?_) (fun _ hs ↦ hs.elim) hthread
  rintro x i hs
  simp [hs, Stmt.isInert] at hu

end JumpThreading

namespace ConstantBranches

variable {m : Signature} {b : Body}

theorem opens_fold {r : Revision} (hr : r.body.Opens m) {u : UnitId} (hu : m.inputCount ≤ u.index)
    {v : Verdict} (hv : ∀ t, v = .jumps t → m.inputCount ≤ t.index) :
    (fold r u v).body.Opens m := by
  cases v with
  | jumps t => exact hr.setStmt hu (by simpa [Stmt.targets] using hv t rfl)
  | fallsThrough => exact hr.removeUnit hu

theorem opens_foldAll (l : List (UnitId × Verdict))
    (hl : ∀ a ∈ l, m.inputCount ≤ a.1.index ∧ ∀ t, a.2 = .jumps t → m.inputCount ≤ t.index)
    (r : Revision) (hr : r.body.Opens m) : (foldAll r l).body.Opens m := by
  induction l generalizing r with
  | nil => exact hr
  | cons a l ih =>
    obtain ⟨hu, hv⟩ := hl a List.mem_cons_self
    exact ih (fun a' ha' ↦ hl a' (List.mem_cons_of_mem a ha')) _ (opens_fold hr hu hv)

theorem keepsOpenings : Pass.constantBranches.KeepsOpenings := by
  intro m b hn h _ _
  refine (opens_foldAll (verdicts b) (fun a ha ↦ ?_) ⟨b, [], false⟩ h).dropEmptyTraps
  obtain ⟨w, hw, he, hv⟩ := (Body.mem_found verdict?).1 ha
  constructor
  · rw [← he]
    refine h.le_of_mem hw fun x i hs ↦ ?_
    simp [hs, verdict?] at hv
  · intro t ht
    exact h.targets w hw t ((verdict?_spec hv).2.2 t ht)

end ConstantBranches

namespace LocalPacking

variable {b : Body} {x : LocalId}

theorem stand_of_isBound (h : isBound b x = true) : stand b x = x := by
  obtain he | hm := stand_eq b x
  · exact he
  · obtain ⟨l, hl, rfl⟩ := List.mem_map.1 (candidates_of_mapping hm).1
    have hc := (List.mem_filter.1 hl).2
    simp [h] at hc

theorem keepsOpenings : Pass.localPacking.KeepsOpenings := by
  intro m b hn h _ _
  refine h.mapStmts (fun p hp u hu ↦ ?_) fun u hu t ht ↦ ?_
  · obtain ⟨source, hs⟩ := h.unit hp
    obtain rfl := Option.some.inj (hu.symm.trans hs)
    have hbound : isBound b ⟨p⟩ = true :=
      List.any_eq_true.2 ⟨_, List.mem_of_getElem? hu, by simp⟩
    exact congrArg (Stmt.identity · source) (stand_of_isBound hbound)
  · rw [Stmt.targets_mapLocals] at ht
    exact h.targets u hu t ht

end LocalPacking

namespace UnusedLocals

theorem keepsOpenings : Pass.unusedLocals.KeepsOpenings := by
  intro m b hn h _ _
  obtain ⟨rest, hrest⟩ := h.locals
  refine h.withLocals ⟨rest.filter fun l ↦ b.mentioned.contains l.id, ?_⟩
  have hkept : (m.boundLocals.filter fun l ↦ b.mentioned.contains l.id) = m.boundLocals :=
    List.filter_eq_self.2 fun l hl ↦ by simpa using h.mentioned hl
  rw [← hrest, List.filter_append, hkept]

end UnusedLocals

namespace TrapTightening

theorem keepsOpenings : Pass.trapTightening.KeepsOpenings := by
  intro m b hn h _ _
  dsimp only [Pass.trapTightening, run]
  split
  · refine h.withTraps fun t' ht' ↦ ?_
    obtain ⟨t, ht, hm⟩ := List.mem_filterMap.1 ht'
    obtain ⟨⟨p, t''⟩, htight, rfl⟩ := Option.map_eq_some_iff.1 hm
    obtain ⟨hhandler, hthrowing, q, -, hbounds, hpi, hqi⟩ := tighten?_spec hn htight
    obtain ⟨-, hc⟩ := mem_throwing hthrowing
    obtain ⟨first, last, hspan, hle, -⟩ := Body.covers_iff.1 hc
    obtain ⟨v, hv, hfirst⟩ : ∃ v, b.units[first]? = some v ∧ v.id = t.first := by
      have hf := ((Body.trapSpan?_eq_some hn).1 hspan).1
      rw [Body.getElem?_ids] at hf
      exact Option.map_eq_some_iff.1 hf
    have hp : m.inputCount ≤ p :=
      Nat.le_trans ((h.index_iff hv).1 (hfirst ▸ h.refs t ht t.first (by simp [Trap.refs]))) hle
    intro u hu
    simp only [Trap.refs, List.mem_cons, List.not_mem_nil, or_false] at hu
    rcases hu with rfl | rfl | rfl
    · exact h.apart p _ hpi hp
    · exact h.apart (q + 1) _ hqi (Nat.le_succ_of_le (hp.trans (hbounds p hthrowing).2))
    · exact hhandler ▸ h.refs t ht t.handler (by simp [Trap.refs])
  · exact h

end TrapTightening

namespace TrapMerging

variable {m : Signature} {b : Body} {s t u : Trap} {between : List Trap}

theorem refs_union? (h : union? b s t between = some u) : u.refs ⊆ s.refs ++ t.refs := by
  unfold union? at h
  split at h
  · split at h
    · split at h
      · cases h
      · split at h
        · cases h
        · cases h
          intro z hz
          simp only [Trap.refs, List.mem_cons, List.not_mem_nil, or_false] at hz
          rcases hz with rfl | rfl | rfl
          · split <;> simp [Trap.refs]
          · split <;> simp [Trap.refs]
          · simp [Trap.refs]
    · cases h
  · cases h

theorem opens_mergeAll {r : Revision} (hr : r.body.Opens m) : (mergeAll r).body.Opens m := by
  fun_induction mergeAll r with
  | case1 r h => exact hr
  | case2 r i j t h hlt ih =>
    refine ih (hr.withTraps fun v hv ↦ ?_)
    obtain ⟨-, s, s', hs, hs', hu⟩ := findUnion?_spec h
    obtain hv | rfl := List.mem_or_eq_of_mem_set (List.mem_of_mem_eraseIdx hv)
    · exact hr.refs v hv
    · intro z hz
      obtain hz | hz := List.mem_append.1 (refs_union? hu hz)
      · exact hr.refs s (List.mem_of_getElem? hs) z hz
      · exact hr.refs s' (List.mem_of_getElem? hs') z hz
  | case3 r i j t h hlt => exact hr

theorem keepsOpenings : Pass.trapMerging.KeepsOpenings :=
  fun _ _ _ h _ _ ↦ opens_mergeAll (h.dropEmptyTraps.subTraps (eraseDups_sublist _).subset)

end TrapMerging

namespace TemporaryFolding

variable {m : Signature} {b : Body} {p : Nat} {x : LocalId} {e : Expr} {place : Place}

theorem Pair.opens_merge (h : Pair b p x e place) (hb : b.Opens m) : (merge b p).Opens m := by
  obtain ⟨u, next, hu, hus, -, -⟩ := h.units
  have hp : m.inputCount ≤ p :=
    (hb.index_iff hu).1 (hb.le_of_mem (List.mem_of_getElem? hu) fun y i hs ↦ by simp [hs] at hus)
  rw [h.merge_eq]
  refine (hb.removeAt (Nat.le_succ_of_le hp)).modifyAt p (fun s ↦ ?_) fun _ _ ↦ rfl
  cases s with
  | assign place' e => exact ⟨rfl, rfl, by simp⟩
  | _ => exact .refl _

theorem opens_mergeAll {r : Revision} (hr : r.body.Opens m) : (mergeAll r).body.Opens m := by
  fun_induction mergeAll r with
  | case1 r h => exact hr
  | case2 r p h hlt ih =>
    obtain ⟨x, e, place, hp⟩ := pair_of_find? h
    exact ih (hp.opens_merge hr)
  | case3 r p h hlt => exact hr

theorem keepsOpenings : Pass.temporaryFolding.KeepsOpenings := fun _ _ _ h _ _ ↦ opens_mergeAll h

end TemporaryFolding

namespace UnreachableUnits

variable {m : Signature} {b : Body}

theorem reachable_opening (h : b.Opens m) {p : Nat} (hp : p < m.inputCount) :
    p ∈ b.flowGraph.reachable := by
  have hsize {q : Nat} (hq : q < m.inputCount) : q < b.size := by
    obtain ⟨source, hs⟩ := h.unit hq
    exact (List.getElem?_eq_some_iff.1 hs).1
  induction p with
  | zero => exact Body.zero_mem_reachable (hsize hp)
  | succ p ih =>
    obtain ⟨source, hs⟩ := h.unit (Nat.lt_of_succ_lt hp)
    exact Body.succ_mem_reachable (ih (Nat.lt_of_succ_lt hp)) hs rfl (hsize hp)

theorem keepsOpenings : Pass.unreachableUnits.KeepsOpenings := by
  intro m b hn h _ _
  refine (revise_steps hn).opens (fun u hu ↦ .inr ?_) (fun s hs ↦ ?_) h
  · obtain ⟨p, hp, hnot⟩ := mem_dead.1 hu
    refine h.apart p u.id hp (Nat.le_of_not_lt fun hlt ↦ ?_)
    exact hnot (reachable_opening h hlt)
  · simp [hs, Stmt.targets]

end UnreachableUnits

namespace CopyPropagation

variable {m : Signature}

theorem opens_foldl (plan : List Substitution) (r : Revision) (hr : r.body.Opens m) :
    (plan.foldl apply r).body.Opens m := by
  induction plan generalizing r with
  | nil => exact hr
  | cons t plan ih =>
    refine ih (apply r t) (hr.modifyAt t.position (fun s ↦ ⟨?_, ?_, ?_⟩) fun _ _ ↦ rfl)
    · exact Stmt.targets_mapValues _ _
    · exact Stmt.fallsThrough_mapValues _ _
    · exact (Stmt.mapValues_eq_nop _ _).2

theorem keepsOpenings : Pass.copyPropagation.KeepsOpenings := fun _ _ _ h _ _ ↦ opens_foldl _ _ h

end CopyPropagation

namespace StoredComparisons

variable {m : Signature} {b b' : Body} {u : UnitId}

theorem opens_expand (hb : b.Opens m) (hn : b'.ids.Nodup) (hu : m.inputCount ≤ u.index)
    (h : expand b u = .ok b') : b'.Opens m := by
  obtain ⟨next, place, c, p, d, hnext, -, hd, hdn, rfl⟩ := expand_ok_of_nodup h hn
  have hplace {q : Nat} {v : CodeUnit} (hv : b.units[q]? = some v) (he : v.id = u) :
      m.inputCount ≤ q := (hb.index_iff hv).1 (he ▸ hu)
  have htarget : m.inputCount ≤ next.index := by
    simp only [Body.successor?, Option.bind_eq_bind, Option.bind_eq_some_iff] at hnext
    obtain ⟨q, hq, v, hv, he⟩ := hnext
    obtain ⟨w, hw, hwu⟩ := Body.unit_of_position? hq
    cases he
    exact (hb.index_iff hv).2 (Nat.le_succ_of_le (hplace hw hwu))
  have hp : m.inputCount ≤ p := by
    obtain ⟨v, hv, he⟩ := Body.unit_of_id hd.place
    exact hplace hv he
  have hexpanded : d.Opens m :=
    hb.replaced hd hdn hp fun s hs t ht ↦ targets_diamond hs ht ▸ htarget
  have hfresh {i : Nat} (hi : i < 4) : m.inputCount ≤ (b.fresh i).index :=
    hexpanded.apart (p + i) _ (hd.getElem?_fresh hi) (Nat.le_add_right_of_le hp)
  refine hexpanded.setStmt (hfresh (Nat.succ_pos 3)) fun t ht ↦ ?_
  obtain rfl : t = b.fresh 3 := by simpa [Stmt.targets] using ht
  exact hfresh (Nat.lt_succ_self 3)

theorem keepsOpenings : Pass.storedComparisons.KeepsOpenings := by
  intro m b hn h hok hn'
  obtain ⟨changed, hok⟩ := hok
  have hfound : ∀ u ∈ found b, m.inputCount ≤ u.index := by
    intro u hu
    obtain ⟨v, hv, rfl, hc⟩ := mem_found.1 hu
    refine h.le_of_mem hv fun x i hid ↦ ?_
    simp [hid, comparison?] at hc
  refine (expandAll_keeps (P := fun l b ↦ (∀ u ∈ l, m.inputCount ≤ u.index) ∧ b.Opens m) ?_
    (found b) ⟨b, [], !(found b).isEmpty⟩ hok (ahead_found hn) hn' ⟨hfound, h⟩).2
  rintro u l c c' - hcn ⟨hl, hc⟩ hexpand
  exact ⟨fun v hv ↦ hl v (List.mem_cons_of_mem u hv),
    opens_expand hc hcn (hl u List.mem_cons_self) hexpand⟩

end StoredComparisons

namespace DeadAllocations

theorem keepsOpenings : Pass.deadAllocations.KeepsOpenings := by
  intro m b hn h _ _
  refine (revise_steps hn).opens (fun u hu ↦ .inl fun x i hs ↦ ?_) (fun _ hs ↦ hs.elim) h
  obtain ⟨y, ty, hu⟩ := hu
  simp [hs] at hu

end DeadAllocations

namespace DeadAssignments

theorem keepsOpenings : Pass.deadAssignments.KeepsOpenings := by
  intro m b hn h _ _
  refine (revise_steps hn).opens (fun u hu ↦ .inl fun x i hs ↦ ?_) (fun _ hs ↦ hs.elim) h
  obtain ⟨y, e, hu⟩ := hu
  simp [hs] at hu

end DeadAssignments

namespace Nops

theorem keepsOpenings : Pass.nops.KeepsOpenings := by
  intro m b hn h _ _
  refine (revise_steps hn).opens (fun u hu ↦ .inl fun x i hs ↦ ?_) (fun _ hs ↦ hs.elim) h
  simp [hs, Stmt.isInert] at hu

end Nops

namespace Pass

variable {pass : Pass}

theorem constantCasts_keepsOpenings : constantCasts.KeepsOpenings :=
  fun _ _ _ h _ _ ↦ h.perStmt NeedlessCasts.isRule_foldConstant fun _ _ ↦ rfl

theorem identityCasts_keepsOpenings : identityCasts.KeepsOpenings :=
  fun _ b _ h _ _ ↦ h.perStmt (NeedlessCasts.isRule_dropIdentity b) fun _ _ ↦ rfl

theorem identityOperations_keepsOpenings : identityOperations.KeepsOpenings :=
  fun _ b _ h _ _ ↦ h.perStmt (IdentityOperations.isRule_simplify b) fun _ _ ↦ rfl

theorem booleanConstants_keepsOpenings : booleanConstants.KeepsOpenings :=
  fun m b _ h _ _ ↦ h.perStmt (BooleanConstants.isRule_retyped? m b) fun _ _ ↦ rfl

/-- Only the pass that makes names distinct may touch what belongs to the opening. -/
theorem keepsOpenings_of_mem_all (hp : pass ∈ all) (hne : pass.name ≠ localNames.name) :
    pass.KeepsOpenings := by
  simp only [all, List.mem_cons, List.not_mem_nil, or_false] at hp
  rcases hp with rfl | rfl | rfl | rfl | rfl | rfl | rfl | rfl | rfl | rfl | rfl | rfl | rfl |
    rfl | rfl | rfl | rfl | rfl
  · exact JumpThreading.keepsOpenings
  · exact ConstantBranches.keepsOpenings
  · exact LocalPacking.keepsOpenings
  · exact UnusedLocals.keepsOpenings
  · exact TrapTightening.keepsOpenings
  · exact TrapMerging.keepsOpenings
  · exact TemporaryFolding.keepsOpenings
  · exact constantCasts_keepsOpenings
  · exact identityCasts_keepsOpenings
  · exact identityOperations_keepsOpenings
  · exact UnreachableUnits.keepsOpenings
  · exact booleanConstants_keepsOpenings
  · exact CopyPropagation.keepsOpenings
  · exact StoredComparisons.keepsOpenings
  · exact DeadAllocations.keepsOpenings
  · exact DeadAssignments.keepsOpenings
  · exact Nops.keepsOpenings
  · exact absurd rfl hne

end Pass

end ThreeAddress
