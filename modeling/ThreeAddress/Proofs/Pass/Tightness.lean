import ThreeAddress.Proofs.Body.Tightness
import ThreeAddress.Proofs.Pass.ConstantBranches
import ThreeAddress.Proofs.Pass.CopyPropagation
import ThreeAddress.Proofs.Pass.DeadCode
import ThreeAddress.Proofs.Pass.Jumps
import ThreeAddress.Proofs.Pass.Locals
import ThreeAddress.Proofs.Pass.Statements
import ThreeAddress.Proofs.Pass.PendingComparisons
import ThreeAddress.Proofs.Pass.TemporaryFolding
import ThreeAddress.Proofs.Pass.Traps
import ThreeAddress.Proofs.Pass.UnreachableUnits

namespace ThreeAddress

theorem Expr.mayThrow_of_isPure {e : Expr} (h : e.isPure = true) : e.mayThrow = false := by
  cases e with
  | cast ty v => cases ty <;> simp_all [isPure, mayThrow, Ty.isPrimitive, Ty.isReference]
  | _ => simp_all [isPure, mayThrow]

namespace Body

variable {b : Body} {f : Stmt → Stmt}

theorem Tight.mapStmts (hn : b.ids.Nodup) (hb : b.Tight) (hf : ∀ s, (f s).mayThrow = s.mayThrow) :
    (b.mapStmts f).Tight := by
  refine hb.of_subset hn (ids_mapStmts b f) (List.Subset.refl _) fun u hu ↦ ?_
  obtain ⟨v, hv, rfl, hthrow⟩ := hb.throws hn hu
  exact ⟨v.mapStmt f, List.mem_map_of_mem hv, rfl, (hf v.stmt).trans hthrow⟩

theorem Tight.modifyAt (hn : b.ids.Nodup) (hb : b.Tight) (p : Nat)
    (hf : ∀ s, (f s).mayThrow = s.mayThrow) : (b.modifyAt p f).Tight := by
  refine hb.of_subset hn (ids_modifyAt b p f) (List.Subset.refl _) fun u hu ↦ ?_
  obtain ⟨v, hv, rfl, hthrow⟩ := hb.throws hn hu
  obtain ⟨q, hq⟩ := List.getElem?_of_mem hv
  have hnew : (b.modifyAt p f).units[q]? = some (if p = q then v.mapStmt f else v) := by
    rw [Body.modifyAt, List.getElem?_modify, hq]
    rfl
  refine ⟨_, List.mem_of_getElem? hnew, ?_, ?_⟩ <;> split
  · rfl
  · rfl
  · exact (hf v.stmt).trans hthrow
  · exact hthrow

end Body

namespace BooleanConstants

variable {m : Signature} {b : Body}

theorem mayThrow_retypeStmt (s : Stmt) : (retypeStmt m b s).mayThrow = s.mayThrow := by
  have hexpr (place : Place) (e : Expr) : (retypeExpr b place e).mayThrow = e.mayThrow := by
    fun_cases retypeExpr b place e <;> rfl
  fun_cases retypeStmt m b s with
  | case1 place e => rw [Stmt.mayThrow, hexpr, Stmt.mayThrow]
  | _ => rfl

theorem mayThrow_retyped? (s : Stmt) :
    (((retyped? m b s).map (·.1)).getD s).mayThrow = s.mayThrow := by
  rw [retyped?]
  split
  · rfl
  · exact mayThrow_retypeStmt s

end BooleanConstants

namespace CopyPropagation

theorem tight_foldl (plan : List Substitution) (r : Revision) (hn : r.body.ids.Nodup)
    (hr : r.body.Tight) : (plan.foldl apply r).body.Tight := by
  induction plan generalizing r with
  | nil => exact hr
  | cons t plan ih =>
    refine ih _ ?_ (hr.modifyAt hn t.position fun s ↦ s.mayThrow_mapValues _)
    rwa [apply, Revision.withNote, Body.ids_modifyAt]

end CopyPropagation

namespace DeadAssignments

variable {b : Body} {r : Revision}

theorem quiet_of_mem_dead (hn : b.ids.Nodup) {a : UnitId × Nat × LocalId} (ha : a ∈ dead b)
    {v : CodeUnit} (hv : v ∈ b.units) (he : v.id = a.1) : v.stmt.mayThrow = false := by
  obtain ⟨⟨u, p⟩, hu, h⟩ := List.mem_filterMap.1 ha
  dsimp only at h
  split at h
  · obtain ⟨x, hx, rfl⟩ := Option.map_eq_some_iff.1 h
    obtain rfl := Body.eq_of_id_eq hn hv (List.fst_mem_of_mem_zipIdx hu) he
    unfold dead? at hx
    split at hx
    · next y e hs =>
      split at hx
      · next hd =>
        rw [hs, Stmt.mayThrow, Place.mayThrow, Bool.false_or]
        simp only [Bool.or_eq_true, decide_eq_true_eq, Bool.and_eq_true] at hd
        obtain rfl | ⟨hpure, -⟩ := hd
        · rfl
        · exact Expr.mayThrow_of_isPure hpure
      · cases hx
    · cases hx
  · cases h

theorem stable_quiet : Stable fun v ↦ v.stmt.mayThrow = false := by
  intro u f
  simp

theorem quiet_rounds (r : Revision) (hn : r.body.ids.Nodup) :
    Revision.Steps (fun v ↦ v.stmt.mayThrow = false) (fun _ ↦ False) r (rounds r) := by
  have hround (r : Revision) (hn : r.body.ids.Nodup) :
      Revision.Steps (fun v ↦ v.stmt.mayThrow = false) (fun _ ↦ False) r (round r) :=
    Revision.foldl_removeUnit_steps (fun a : UnitId × Nat × LocalId ↦ a.1) _ (fun _ _ ↦ rfl)
      stable_quiet (dead r.body) r fun _ ha _ hv he ↦ quiet_of_mem_dead hn ha hv he
  fun_induction rounds r with
  | case1 r next hlt ih =>
    exact (hround r hn).trans (ih (((hround r hn).thinned stable_quiet hn).nodup hn))
  | case2 r next hge => exact hround r hn

end DeadAssignments

namespace TrapTightening

variable {b : Body} {t t' : Trap} {p : Nat}

theorem throws_of_mem_throwing {u : UnitId} (hp : p ∈ throwing b t) (hu : b.ids[p]? = some u) :
    b.Throws u := by
  obtain ⟨-, ht⟩ := List.mem_filter.1 hp
  obtain ⟨v, hv, rfl⟩ := Body.unit_of_id hu
  refine ⟨v, List.mem_of_getElem? hv, rfl, ?_⟩
  simpa [Body.stmtAt?_of_unit hv] using (Bool.and_eq_true_iff.1 ht).2

theorem hugs_tighten? (hn : b.ids.Nodup) (h : tighten? b t = some (p, t')) : b.Hugs t' := by
  obtain ⟨-, hp, q, hq, -, hfirst, hlast⟩ := tighten?_spec hn h
  obtain ⟨u, hu⟩ := Body.exists_id_of_lt (mem_throwing hq).1
  exact ⟨throws_of_mem_throwing hp hfirst, u, (Body.successor?_eq_some hn).2 ⟨q, hu, hlast⟩,
    throws_of_mem_throwing hq hu⟩

theorem tight_revision (hn : b.ids.Nodup) : (revision b).body.Tight := by
  intro t' ht'
  obtain ⟨t, -, hm⟩ := List.mem_filterMap.1 ht'
  obtain ⟨⟨p, t''⟩, htight, rfl⟩ := Option.map_eq_some_iff.1 hm
  exact hugs_tighten? hn htight

end TrapTightening

namespace TrapMerging

variable {b : Body} {s t u : Trap} {between : List Trap}

theorem ends_union? (h : union? b s t between = some u) :
    (u.first = s.first ∨ u.first = t.first) ∧ (u.last = s.last ∨ u.last = t.last) := by
  unfold union? at h
  split at h
  · split at h
    · split at h
      · cases h
      · split at h
        · cases h
        · cases h
          constructor <;> dsimp only <;> split <;> simp
    · cases h
  · cases h

theorem hugs_union? (hs : b.Hugs s) (ht : b.Hugs t) (h : union? b s t between = some u) :
    b.Hugs u := by
  obtain ⟨hfirst, hlast⟩ := ends_union? h
  constructor
  · obtain he | he := hfirst <;> rw [he]
    · exact hs.1
    · exact ht.1
  · obtain he | he := hlast <;> rw [he]
    · exact hs.2
    · exact ht.2

theorem tight_mergeAll (r : Revision) (hr : r.body.Tight) : (mergeAll r).body.Tight := by
  fun_induction mergeAll r with
  | case1 r h => exact hr
  | case2 r i j t h hlt ih =>
    obtain ⟨-, s, t', hs, ht', hu⟩ := findUnion?_spec h
    refine ih fun v hv ↦ ?_
    obtain hv | rfl := List.mem_or_eq_of_mem_set (List.mem_of_mem_eraseIdx hv)
    · exact hr v hv
    · exact hugs_union? (hr s (List.mem_of_getElem? hs)) (hr t' (List.mem_of_getElem? ht')) hu
  | case3 r i j t h hlt => exact hr

theorem tight_revise (hb : b.Tight) : (revise b).body.Tight :=
  tight_mergeAll _ fun t ht ↦ hb t (List.mem_of_mem_filter (List.mem_eraseDups.1 ht))

end TrapMerging

namespace TemporaryFolding

variable {b : Body} {p : Nat} {x : LocalId} {e : Expr} {place : Place} {u next : CodeUnit}
  {r : Revision} {z : UnitId}

theorem Pair.throws_merge (h : Pair b p x e place) (hn : b.ids.Nodup)
    (hnext : b.units[p + 1]? = some next) (hz : b.Throws z) (hne : z ≠ next.id) :
    (merge b p).Throws z := by
  obtain ⟨u, -, hu, hus, -⟩ := h.units
  by_cases hzu : z = u.id
  · subst hzu
    have hthrow := hz.stmt hn (List.mem_of_getElem? hu)
    rw [hus, Stmt.mayThrow, Place.mayThrow, Bool.false_or] at hthrow
    exact ⟨_, h.mem_merge hu, rfl, by simp [Stmt.mayThrow, hthrow]⟩
  · obtain ⟨w, hw, rfl, hthrow⟩ := Body.throws_removeAt hnext hne hz
    obtain ⟨q, hq⟩ := List.getElem?_of_mem hw
    have hpq : p ≠ q := by
      rintro rfl
      rw [Body.getElem?_removeAt_of_lt (Nat.lt_succ_self p), hu] at hq
      exact hzu (congrArg CodeUnit.id (Option.some.inj hq)).symm
    refine ⟨w, List.mem_of_getElem? (i := q) ?_, rfl, hthrow⟩
    rw [h.merge_eq, Body.modifyAt, List.getElem?_modify, hq]
    simp [hpq]

/-- The unit that goes is the last of a trap at most. Then the place that it stores to may throw,
and the unit before it takes over both. -/
theorem Pair.tight_merge (h : Pair b p x e place) (hn : b.ids.Nodup) (hb : b.Tight) :
    (merge b p).Tight := by
  obtain ⟨u, next, hu, -, hnext, hstore⟩ := h.units
  have hid : b.ids[p + 1]? = some next.id := Body.id_of_unit hnext
  have hhidden := (Body.isReferenced_eq_false.1 (h.hidden _ hid)).2
  have hids : (merge b p).ids = (b.removeAt (p + 1)).ids := by
    rw [h.merge_eq, Body.ids_modifyAt]
  have hsuccessor := Body.successor?_congr (Body.nodup_removeAt hn (p + 1)) hids
  intro t' ht'
  obtain ⟨t, ht, rfl⟩ : ∃ t ∈ b.traps, t.mapRefs (b.heir (p + 1)) = t' := by
    simpa [h.merge_eq, Body.modifyAt, Body.removeAt_eq] using ht'
  have hfirst : t.first ≠ next.id := fun he ↦ hhidden t ht (by simp [Trap.refs, he])
  have hlast : t.last ≠ next.id := fun he ↦ hhidden t ht (by simp [Trap.refs, he])
  obtain ⟨hthrow, z, hz, hzthrow⟩ := hb t ht
  rw [Body.Hugs, Trap.mapRefs, Body.heir_of_ne hid hfirst]
  refine ⟨h.throws_merge hn hnext hthrow hfirst, ?_⟩
  by_cases hzn : z = next.id
  · subst hzn
    have hplace := hzthrow.stmt hn (List.mem_of_getElem? hnext)
    rw [hstore, Stmt.mayThrow, Expr.mayThrow, Bool.or_false] at hplace
    refine ⟨u.id, ?_, _, h.mem_merge hu, rfl, by simp [Stmt.mayThrow, hplace]⟩
    have hbefore : b.successor? u.id = some next.id :=
      (Body.successor?_eq_some hn).2 ⟨p, Body.id_of_unit hu, hid⟩
    rw [hsuccessor, Body.heir_of_ne hid hlast]
    exact Body.successor?_removeAt_before hn hnext hbefore hz
  · refine ⟨z, ?_, h.throws_merge hn hnext hzthrow hzn⟩
    rw [hsuccessor]
    exact Body.successor?_removeAt hn hnext hzn hz fun he ↦ absurd he hlast

theorem tight_mergeAll (r : Revision) (hn : r.body.ids.Nodup) (hr : r.body.Tight) :
    (mergeAll r).body.Tight := by
  fun_induction mergeAll r with
  | case1 r h => exact hr
  | case2 r p h hlt ih =>
    obtain ⟨x, e, place, hp⟩ := pair_of_find? h
    exact ih (nodup_merge hn p) (hp.tight_merge hn hr)
  | case3 r p h hlt => exact hr

end TemporaryFolding

namespace StoredComparisons

variable {b b' : Body} {u : UnitId}

/-- What replaces a comparison ends with a store to its place, so that a trap that ended after it
stays tight. -/
theorem tight_expand (hn : b.ids.Nodup) (hn' : b'.ids.Nodup) (hb : b.Tight)
    (hfirst : ∀ t ∈ b.traps, t.first ≠ u) (h : expand b u = .ok b') : b'.Tight := by
  obtain ⟨next, place, c, p, d, -, hs, hd, hdn, rfl⟩ := expand_ok_of_nodup h hn'
  have hids : (d.setStmt (b.fresh 0) (.branch c (b.fresh 3))).ids = d.ids :=
    Body.ids_setStmt _ _ _
  have hold (z : UnitId) (hz : b.Throws z) (hzu : z ≠ u) :
      (d.setStmt (b.fresh 0) (.branch c (b.fresh 3))).Throws z := by
    have hne := hd.ne_fresh hn hdn hz.mem_ids hzu hd.nonempty
    obtain ⟨w, hw, rfl, hthrow⟩ := hz
    exact ⟨_, Body.mem_setStmt_of_ne (hd.mem_old hw hzu) hne, rfl, by simpa using hthrow⟩
  intro t' ht'
  change t' ∈ d.traps at ht'
  rw [hd.traps] at ht'
  obtain ⟨t, ht, rfl⟩ := List.mem_map.1 ht'
  obtain ⟨hthrow, z, hz, hzthrow⟩ := hb t ht
  obtain ⟨q, hq, hq'⟩ := (Body.successor?_eq_some hn).1 hz
  have hlast := hd.getElem?_grow hn hq'
  constructor
  · rw [Trap.mapRefs, Body.rename, if_neg (hfirst t ht)]
    exact hold t.first hthrow (hfirst t ht)
  by_cases hzu : z = u
  · subst hzu
    obtain rfl := Body.index_unique hn hq hd.place
    have hplace : place.mayThrow = true := by
      have hunit := (Body.stmt?_eq_some hn).1 hs
      simpa [Stmt.mayThrow, Expr.mayThrow] using hzthrow.stmt (v := ⟨z, _⟩) hn hunit
    have hstore : ⟨b.fresh 3, .assign place (.value (.const (.bool true)))⟩ ∈ d.units := by
      rw [hd.units]
      refine List.mem_map.2 ⟨⟨b.fresh 3, .assign place (.value (.const (.bool true)))⟩, ?_, rfl⟩
      simp [diamond, Body.number, Body.fresh]
    have hne : b.fresh 3 ≠ b.fresh 0 := fun he ↦
      absurd (hd.fresh_inj hdn (Nat.lt_succ_self 3) (Nat.succ_pos 3) he) (by decide)
    refine ⟨b.fresh 3, ?_, _, Body.mem_setStmt_of_ne hstore hne, rfl, ?_⟩
    · rw [Body.successor?_congr hdn hids]
      have hgrow : Body.Replaced.grow q (diamond place c next).length (q + 1) = q + 3 + 1 :=
        if_neg (Nat.not_succ_le_self q)
      exact (Body.successor?_eq_some hdn).2
        ⟨q + 3, hd.getElem?_fresh (by simp [diamond]), hgrow ▸ hlast⟩
    · simp [Stmt.mayThrow, hplace]
  · have hqp : q ≠ p := by
      rintro rfl
      exact hzu (Option.some.inj (hq.symm.trans hd.place))
    have hbefore := hd.getElem?_grow hn hq
    rw [Body.rename, if_neg hzu] at hbefore
    rw [Body.Replaced.grow_succ hd.nonempty hqp] at hlast
    refine ⟨z, ?_, hold z hzthrow hzu⟩
    rw [Body.successor?_congr hdn hids]
    exact (Body.successor?_eq_some hdn).2 ⟨_, hbefore, hlast⟩

theorem traps_expand (hn' : b'.ids.Nodup) (h : expand b u = .ok b') :
    b'.traps = b.traps.map (·.mapRefs (Body.rename u (b.fresh 0))) := by
  obtain ⟨next, place, c, p, d, -, -, hd, -, rfl⟩ := expand_ok_of_nodup h hn'
  exact hd.traps

theorem tight_run (hn : b.ids.Nodup) (hb : b.Tight)
    (hw : ∀ t ∈ b.traps, ∀ v ∈ b.units, v.id = t.first → comparison? v.stmt = none)
    {changed : Bool} (h : (run b).result = .ok changed) (hn' : (run b).body.ids.Nodup) :
    (run b).body.Tight := by
  have hfound : ∀ t ∈ b.traps, ∀ u ∈ found b, t.first ≠ u := by
    intro t ht u hu he
    obtain ⟨v, hv, hid, hs⟩ := mem_found.1 hu
    simp [hw t ht v hv (hid.trans he.symm)] at hs
  refine (expandAll_keeps (P := fun l b ↦ (∀ t ∈ b.traps, ∀ u ∈ l, t.first ≠ u) ∧ b.Tight) ?_
    (found b) ⟨b, [], !(found b).isEmpty⟩ h (ahead_found hn) hn' ⟨hfound, hb⟩).2
  rintro u l c c' hcn hcn' ⟨hl, hc⟩ hexpand
  refine ⟨fun t' ht' v hv ↦ ?_, ?_⟩
  · rw [traps_expand hcn' hexpand] at ht'
    obtain ⟨t, ht, rfl⟩ := List.mem_map.1 ht'
    rw [Trap.mapRefs, Body.rename, if_neg (hl t ht u List.mem_cons_self)]
    exact hl t ht v (List.mem_cons_of_mem u hv)
  · exact tight_expand hcn hcn' hc (fun t ht ↦ hl t ht u List.mem_cons_self) hexpand

end StoredComparisons

namespace Pass

variable {pass : Pass} {m : Signature} {b : Body}

theorem ByRule.tight (h : pass.ByRule) (m : Signature) (hn : b.ids.Nodup) (hb : b.Tight)
    (hr : b.KeepsRims (pass.run m b).body) : (pass.run m b).body.Tight := by
  obtain ⟨rule, -, hrun⟩ := h
  rw [hrun] at hr ⊢
  exact hb.of_subset hn (Body.ids_mapStmts _ _) (List.Subset.refl _) hr

theorem unusedLocals_keepsTight : unusedLocals.KeepsTight := fun _ _ _ hb ↦ hb

theorem localNames_keepsTight : localNames.KeepsTight := fun _ _ _ hb ↦ hb

theorem booleanConstants_keepsTight : booleanConstants.KeepsTight :=
  fun _ _ hn hb ↦ hb.mapStmts hn BooleanConstants.mayThrow_retyped?

theorem copyPropagation_keepsTight : copyPropagation.KeepsTight :=
  fun _ _ hn hb ↦ CopyPropagation.tight_foldl _ _ hn hb

theorem jumpThreading_keepsTight : jumpThreading.KeepsTight := by
  intro m b hn hb
  have hthread : (JumpThreading.thread b).body.ids.Nodup := by
    simpa [JumpThreading.thread, Revision.withNotes] using hn
  have htight : (JumpThreading.thread b).body.Tight :=
    hb.mapStmts hn (Stmt.mayThrow_mapTargets _)
  have hsteps := JumpThreading.revise_steps hn
  have hrims := (hsteps.thinned stable_isInert hthread).keepsRims hthread htight fun _ h ↦
    Stmt.mayThrow_of_isInert h
  exact hsteps.tight stable_isInert hthread htight hrims

theorem nops_keepsTight : nops.KeepsTight :=
  nops_cleans.keepsTight fun _ _ h ↦ Stmt.mayThrow_of_isInert h

theorem constantBranches_keepsTight : constantBranches.KeepsTight := by
  refine constantBranches_cleans.keepsTight fun _ v h ↦ ?_
  unfold ConstantBranches.Decided ConstantBranches.verdict? at h
  split at h <;> simp_all [Stmt.mayThrow]

theorem trapMerging_keepsTight : trapMerging.KeepsTight :=
  fun _ _ _ hb ↦ TrapMerging.tight_revise hb

theorem temporaryFolding_keepsTight : temporaryFolding.KeepsTight :=
  fun _ _ hn hb ↦ TemporaryFolding.tight_mergeAll _ hn hb

theorem deadAssignments_keepsTight : deadAssignments.KeepsTight := by
  have hcleans : deadAssignments.Cleans fun _ v ↦ v.stmt.mayThrow = false :=
    { stable := fun _ ↦ DeadAssignments.stable_quiet
      steps := fun _ _ hn ↦ ⟨_, _,
        .tail (DeadAssignments.quiet_rounds _ hn) (Revision.dropEmptyTraps_step _), rfl⟩ }
  exact hcleans.keepsTight fun _ _ h ↦ h

theorem trapTightening_tight (hn : b.ids.Nodup) {changed : Bool}
    (h : (trapTightening.run m b).result = .ok changed) : (trapTightening.run m b).body.Tight := by
  dsimp only [trapTightening, TrapTightening.run] at h ⊢
  split at h
  · exact TrapTightening.tight_revision hn
  · cases h

end Pass

end ThreeAddress
