import ThreeAddress.Pass.ConstantBranches
import ThreeAddress.Proofs.Candor
import ThreeAddress.Proofs.Readiness

namespace ThreeAddress

namespace ConstantBranches

variable {b : Body} {r : Revision} {u : UnitId} {v : Verdict} {p : Nat}
  {l : List (UnitId × Verdict)}

def Decided (w : CodeUnit) : Prop := (verdict? w.stmt).isSome = true

def Verdict.mapTarget (f : UnitId → UnitId) : Verdict → Verdict
  | .jumps t => .jumps (f t)
  | .fallsThrough => .fallsThrough

theorem select_map (f : UnitId → UnitId) (targets : List UnitId) (default : UnitId) (key : Int) :
    select (targets.map f) (f default) key = f (select targets default key) := by
  unfold select
  split
  · rfl
  · cases h : targets[key.toNat]? <;> simp [List.getD_eq_getElem?_getD, h]

theorem verdict?_mapTargets (f : UnitId → UnitId) (s : Stmt) :
    verdict? (s.mapTargets f) = (verdict? s).map (·.mapTarget f) := by
  cases s with
  | branch c t =>
    cases h : c.evaluate? with
    | none => simp [Stmt.mapTargets, verdict?, h]
    | some taken => cases taken <;> simp [Stmt.mapTargets, verdict?, h, Verdict.mapTarget]
  | switch key targets default =>
    cases key with
    | var x => rfl
    | const c => cases c <;> simp [Stmt.mapTargets, verdict?, select_map, Verdict.mapTarget]
  | _ => rfl

theorem stable_decided : Stable Decided := by
  intro u f
  rw [Decided, CodeUnit.stmt_mapStmt, verdict?_mapTargets, Option.isSome_map, Decided]

theorem locals_of_decided {w : CodeUnit} (h : Decided w) : w.stmt.locals = [] := by
  unfold Decided verdict? at h
  split at h
  · next c t hs =>
    rw [Option.isSome_map] at h
    obtain ⟨taken, ht⟩ := Option.isSome_iff_exists.1 h
    unfold Comparison.evaluate? at ht
    split at ht
    · next left right hl hr =>
      simp [hs, Stmt.locals, Stmt.uses, Stmt.values, Comparison.values, Stmt.def?, hl, hr, Value.var?,
        List.filterMap_cons]
    · simp at ht
  · next hs => simp [hs, Stmt.locals, Stmt.uses, Stmt.values, Stmt.def?, Value.var?]
  · next hs => simp [hs, Stmt.locals, Stmt.uses, Stmt.values, Stmt.def?, Value.var?]
  · simp at h

def verdicts (b : Body) : List (UnitId × Verdict) :=
  b.units.filterMap fun u ↦ (verdict? u.stmt).map (u.id, ·)

/-- No branch that is never taken comes before one that always jumps to it. -/
def Safe (b : Body) : Prop :=
  b.units.Pairwise fun u w ↦
    verdict? u.stmt = some .fallsThrough → verdict? w.stmt ≠ some (.jumps u.id)

instance (b : Body) : Decidable (Safe b) := by
  unfold Safe
  infer_instance

theorem safe_iff : Safe b ↔
    (verdicts b).Pairwise fun a z ↦ a.2 = .fallsThrough → z.2 ≠ .jumps a.1 := by
  rw [Safe, verdicts, List.pairwise_filterMap]
  refine List.Pairwise.iff fun u w ↦ ?_
  constructor
  · intro h a ha z hz hfall hjump
    obtain ⟨x, hx, rfl⟩ := Option.map_eq_some_iff.1 ha
    obtain ⟨y, hy, rfl⟩ := Option.map_eq_some_iff.1 hz
    exact h (hx.trans (congrArg some hfall)) (hy.trans (congrArg some hjump))
  · intro h hu hw
    exact h (u.id, .fallsThrough) (by rw [hu, Option.map_some]) (w.id, .jumps u.id)
      (by rw [hw, Option.map_some]) rfl rfl

theorem select_mem (targets : List UnitId) (default : UnitId) (key : Int) :
    select targets default key ∈ targets ++ [default] := by
  unfold select
  split
  · simp
  · rw [List.getD_eq_getElem?_getD]
    cases h : targets[key.toNat]? with
    | none => simp
    | some t => simp [List.mem_of_getElem? h]

theorem verdict?_spec {s : Stmt} (h : verdict? s = some v) : s.weight = 3 ∧
    (v = .fallsThrough → s.fallsThrough = true) ∧ ∀ t, v = .jumps t → t ∈ s.targets := by
  unfold verdict? at h
  split at h
  · next c t =>
    obtain ⟨taken, -, rfl⟩ := Option.map_eq_some_iff.1 h
    refine ⟨rfl, fun _ ↦ rfl, ?_⟩
    cases taken <;> simp [Stmt.targets]
  · next key targets default =>
    cases h
    refine ⟨rfl, by simp, ?_⟩
    rintro t ⟨⟩
    exact select_mem targets default _
  · next key targets default =>
    cases h
    refine ⟨rfl, by simp, ?_⟩
    rintro t ⟨⟩
    exact select_mem targets default _
  · simp at h

theorem weight_of_decided {w : CodeUnit} (h : Decided w) : w.stmt.weight = 3 := by
  obtain ⟨v, hv⟩ := Option.isSome_iff_exists.1 h
  exact (verdict?_spec hv).1

/-- The branches still to fold are branches of the body. -/
structure Pending (b : Body) (l : List (UnitId × Verdict)) : Prop where
  nodup : (l.map (·.1)).Nodup
  forks : ∀ a ∈ l, ∃ w ∈ b.units, w.id = a.1 ∧ Decided w ∧
    (a.2 = .fallsThrough → w.stmt.fallsThrough = true)

theorem pending_verdicts (hn : b.ids.Nodup) : Pending b (verdicts b) where
  nodup := (Body.ids_found verdict? b).nodup hn
  forks a ha := by
    obtain ⟨w, hw, he, hv⟩ := (Body.mem_found verdict?).1 ha
    exact ⟨w, hw, he, Option.isSome_iff_exists.2 ⟨a.2, hv⟩, (verdict?_spec hv).2.1⟩

theorem survives_fold {w : CodeUnit} (hw : w ∈ r.body.units) (hne : w.id ≠ u) :
    ∃ f, w.mapStmt (·.mapTargets f) ∈ (fold r u v).body.units := by
  cases v with
  | jumps t =>
    have hkept := Body.mem_setStmt_of_ne (s := .goto t) hw hne
    exact ⟨fun t ↦ t, by simpa [fold, Revision.withNote, CodeUnit.mapStmt] using hkept⟩
  | fallsThrough => exact Revision.kept_removeUnit hw hne

theorem Pending.fold (h : Pending r.body ((u, v) :: l)) :
    Pending (fold r u v).body l := by
  obtain ⟨hids, hforks⟩ := h
  rw [List.map_cons, List.nodup_cons] at hids
  refine ⟨hids.2, fun a ha ↦ ?_⟩
  obtain ⟨w, hw, he, hf, hfall⟩ := hforks a (List.mem_cons_of_mem _ ha)
  have hne : w.id ≠ u := by
    rintro rfl
    exact hids.1 (List.mem_map.2 ⟨a, ha, he.symm⟩)
  obtain ⟨f, hf'⟩ := survives_fold (v := v) hw hne
  exact ⟨_, hf', he, (stable_decided w f).2 hf, by simpa using hfall⟩

theorem fold_steps (h : Pending r.body ((u, v) :: l)) (hn : r.body.ids.Nodup) :
    Revision.Steps Decided (fun s ↦ ∃ t, s = .goto t) r (fold r u v) := by
  obtain ⟨w, hw, rfl, hf, -⟩ := h.forks _ List.mem_cons_self
  cases v with
  | jumps t =>
    refine .single (.overwrite r w (.goto t) _ hw hf ⟨t, rfl⟩ rfl ?_ rfl)
    rw [weight_of_decided hf]
    exact Nat.lt_succ_self 2
  | fallsThrough =>
    refine Revision.removeUnit_steps (fun z hz he ↦ ?_) fun _ ↦ rfl
    rwa [Body.eq_of_id_eq hn hz hw he]

abbrev foldAll (r : Revision) (l : List (UnitId × Verdict)) : Revision :=
  l.foldl (fun r (u, v) ↦ fold r u v) r

theorem foldAll_steps (l : List (UnitId × Verdict)) (r : Revision) (h : Pending r.body l)
    (hn : r.body.ids.Nodup) :
    Revision.Steps Decided (fun s ↦ ∃ t, s = .goto t) r (foldAll r l) := by
  induction l generalizing r with
  | nil => exact .refl
  | cons a l ih =>
    have hfirst := fold_steps h hn
    exact hfirst.trans (ih _ h.fold ((hfirst.thinned stable_decided hn).nodup hn))

theorem revise_eq (b : Body) : revise b = (foldAll ⟨b, [], false⟩ (verdicts b)).dropEmptyTraps :=
  rfl

theorem revise_steps (hn : b.ids.Nodup) :
    Revision.Steps Decided (fun s ↦ ∃ t, s = .goto t) ⟨b, [], false⟩ (revise b) := by
  rw [revise_eq]
  exact .tail (foldAll_steps _ _ (pending_verdicts hn) hn) (Revision.dropEmptyTraps_step _)

theorem sealed_setStmt (hb : b.Sealed) (u t : UnitId) : (b.setStmt u (.goto t)).Sealed := by
  intro w hw
  rw [Body.setStmt, List.getLast?_map] at hw
  obtain ⟨v, hv, rfl⟩ := Option.map_eq_some_iff.1 hw
  split
  · exact .inl rfl
  · exact hb v hv

theorem removed_fold (hs : r.body.Sealed) (hn : r.body.ids.Nodup)
    (h : Pending r.body ((u, .fallsThrough) :: l)) :
    ∃ p, r.body.ids[p]? = some u ∧ p + 1 < r.body.size ∧
      (fold r u .fallsThrough).body = r.body.removeAt p := by
  obtain ⟨w, hw, rfl, hf, hfall⟩ := h.forks _ List.mem_cons_self
  obtain ⟨p, hp⟩ := List.getElem?_of_mem hw
  have hnop : w.stmt ≠ .nop := by
    intro he
    rw [Decided, he] at hf
    simp [verdict?] at hf
  have hlt := hs.lt_of_fallsThrough hp (hfall rfl) hnop
  have hwp : r.body.ids[p]? = some w.id := Body.id_of_unit hp
  have hr := Body.isRemovable_of_lt hn hp hlt
  refine ⟨p, hwp, hlt, ?_⟩
  simp only [fold, Revision.removeUnit, (Body.position?_eq_some hn).2 hwp, if_pos hr]
  rfl

def Aimed (b : Body) (l : List (UnitId × Verdict)) : Prop :=
  ∀ a ∈ l, ∀ t, a.2 = .jumps t → t ∈ b.ids

theorem sound_setStmt (hb : b.Sound) (u : UnitId) {t : UnitId} (ht : t ∈ b.ids) :
    (b.setStmt u (.goto t)).Sound where
  coherent := hb.coherent.setStmt (by simpa [Stmt.targets] using ht)
    (by simp [Stmt.locals, Stmt.uses, Stmt.values, Stmt.def?])
  end_sealed := sealed_setStmt hb.end_sealed u t
  nonempty := by simpa [Body.setStmt] using hb.nonempty

theorem sound_fold (hr : r.body.Sound) (hp : Pending r.body ((u, v) :: l))
    (ha : Aimed r.body ((u, v) :: l)) (hs : v = .fallsThrough → ∀ z ∈ l, z.2 ≠ .jumps u) :
    (fold r u v).body.Sound ∧ Aimed (fold r u v).body l := by
  have hrest : ∀ z ∈ l, ∀ t, z.2 = .jumps t → t ∈ r.body.ids :=
    fun z hz ↦ ha z (List.mem_cons_of_mem _ hz)
  cases v with
  | jumps t =>
    refine ⟨sound_setStmt hr u (ha _ List.mem_cons_self t rfl), ?_⟩
    intro z hz t' ht'
    simpa [fold, Revision.withNote] using hrest z hz t' ht'
  | fallsThrough =>
    obtain ⟨p, hup, hlt, he⟩ := removed_fold hr.end_sealed hr.coherent.nodup hp
    rw [he]
    refine ⟨hr.removeAt hlt, fun z hz t ht ↦ ?_⟩
    refine (Body.mem_ids_removeAt hr.coherent.nodup hup).2 ⟨hrest z hz t ht, ?_⟩
    rintro rfl
    exact hs rfl z hz ht

theorem foldAll_sound (l : List (UnitId × Verdict)) (r : Revision) (hr : r.body.Sound)
    (hp : Pending r.body l) (ha : Aimed r.body l)
    (hs : l.Pairwise fun a z ↦ a.2 = .fallsThrough → z.2 ≠ .jumps a.1) :
    (foldAll r l).body.Sound := by
  induction l generalizing r with
  | nil => exact hr
  | cons a l ih =>
    rw [List.pairwise_cons] at hs
    obtain ⟨hsound, haimed⟩ := sound_fold hr hp ha fun hv z hz ↦ hs.1 z hz hv
    exact ih _ hsound hp.fold haimed hs.2

theorem aimed_verdicts (hb : b.Valid) : Aimed b (verdicts b) := by
  intro a ha t ht
  obtain ⟨w, hw, he, hv⟩ := (Body.mem_found verdict?).1 ha
  exact hb.targets w hw t ((verdict?_spec hv).2.2 t ht)

theorem sound_foldAll (hb : b.Valid) (he : b.Sealed) (hs : Safe b) :
    (foldAll ⟨b, [], false⟩ (verdicts b)).body.Sound :=
  foldAll_sound _ _ (hb.sound he) (pending_verdicts hb.nodup) (aimed_verdicts hb) (safe_iff.1 hs)

theorem ready_revise (hb : b.Ready) (hs : Safe b) : (revise b).body.Ready := by
  have hsteps := foldAll_steps (verdicts b) ⟨b, [], false⟩ (pending_verdicts hb.valid.nodup)
    hb.valid.nodup
  have hbounded := (hsteps.thinned stable_decided hb.valid.nodup).noFresh.bounded hb.bounded
  exact ((sound_foldAll hb.valid hb.end_sealed hs).steady hbounded).ready_dropEmptyTraps

def Dangling (b : Body) (l : List (UnitId × Verdict)) : Prop :=
  ∃ w ∈ b.units, ∃ t, w.stmt = .goto t ∧ t ∉ b.ids ∧ w.id ∉ l.map (·.1)

def Doomed (b : Body) (l : List (UnitId × Verdict)) : Prop :=
  Dangling b l ∨ (∃ a ∈ l, ∃ t, a.2 = .jumps t ∧ t ∉ b.ids) ∨
    ¬ l.Pairwise fun a z ↦ a.2 = .fallsThrough → z.2 ≠ .jumps a.1

theorem Doomed.fold_jumps {t : UnitId} (hp : Pending r.body ((u, .jumps t) :: l))
    (h : Doomed r.body ((u, .jumps t) :: l)) : Doomed (fold r u (.jumps t)).body l := by
  have hids : (fold r u (.jumps t)).body.ids = r.body.ids := Body.ids_setStmt _ _ _
  have hfresh := hp.nodup
  rw [List.map_cons, List.nodup_cons] at hfresh
  obtain ⟨w, hw, t', hs, ht', hwl⟩ | ⟨a, ha, t', hv, ht'⟩ | hpair := h
  · rw [List.map_cons, List.mem_cons, not_or] at hwl
    exact .inl ⟨w, Body.mem_setStmt_of_ne hw hwl.1, t', hs, hids ▸ ht', hwl.2⟩
  · rcases List.mem_cons.1 ha with rfl | ha
    · cases hv
      obtain ⟨w, hw, rfl, -⟩ := hp.forks _ List.mem_cons_self
      exact .inl ⟨_, Body.mem_setStmt_self hw, t, rfl, hids ▸ ht', hfresh.1⟩
    · exact .inr (.inl ⟨a, ha, t', hv, hids ▸ ht'⟩)
  · refine .inr (.inr fun hl ↦ hpair (List.pairwise_cons.2 ⟨?_, hl⟩))
    intro z _ hv
    simp at hv

theorem Doomed.fold_fallsThrough (hs : r.body.Sealed) (hn : r.body.ids.Nodup)
    (hp : Pending r.body ((u, .fallsThrough) :: l))
    (h : Doomed r.body ((u, .fallsThrough) :: l)) : Doomed (fold r u .fallsThrough).body l := by
  obtain ⟨p, hup, -, he⟩ := removed_fold hs hn hp
  have hgone : u ∉ (r.body.removeAt p).ids := fun hm ↦ ((Body.mem_ids_removeAt hn hup).1 hm).2 rfl
  have hless : ∀ t, t ∉ r.body.ids → t ∉ (r.body.removeAt p).ids :=
    fun t ht hm ↦ ht ((r.body.noFresh_removeAt p).ids hm)
  rw [he]
  obtain ⟨w, hw, t, hst, ht, hwl⟩ | ⟨a, ha, t, hv, ht⟩ | hpair := h
  · rw [List.map_cons, List.mem_cons, not_or] at hwl
    obtain ⟨q, hq⟩ := List.getElem?_of_mem hw
    have hqp : q ≠ p := by
      rintro rfl
      rw [Body.getElem?_ids, hq] at hup
      exact hwl.1 (Option.some.inj hup)
    have hut : t ≠ u := by
      rintro rfl
      exact ht (List.mem_of_getElem? hup)
    refine .inl ⟨_, Body.mem_removeAt.2 ⟨q, w, hqp, hq, rfl⟩, t, ?_, hless t ht, hwl.2⟩
    rw [CodeUnit.stmt_mapStmt, hst, Stmt.mapTargets, Body.heir_of_ne hup hut]
  · rcases List.mem_cons.1 ha with rfl | ha
    · simp at hv
    · exact .inr (.inl ⟨a, ha, t, hv, hless t ht⟩)
  · by_cases hz : ∀ z ∈ l, z.2 ≠ .jumps u
    · exact .inr (.inr fun hl ↦ hpair (List.pairwise_cons.2 ⟨fun z hm _ ↦ hz z hm, hl⟩))
    · simp only [not_forall, not_not, exists_prop] at hz
      obtain ⟨z, hm, hv⟩ := hz
      exact .inr (.inl ⟨z, hm, u, hv, hgone⟩)

theorem dangling_foldAll (l : List (UnitId × Verdict)) (r : Revision) (hs : r.body.Sealed)
    (hn : r.body.ids.Nodup) (hp : Pending r.body l) (h : Doomed r.body l) :
    Dangling (foldAll r l).body [] := by
  induction l generalizing r with
  | nil =>
    obtain h | ⟨a, ha, -⟩ | hpair := h
    · exact h
    · simp at ha
    · exact absurd .nil hpair
  | cons a l ih =>
    obtain ⟨u, v⟩ := a
    have hthin := (fold_steps hp hn).thinned stable_decided hn
    have hfold : (fold r u v).body.Sealed ∧ Doomed (fold r u v).body l := by
      cases v with
      | jumps t => exact ⟨sealed_setStmt hs u t, h.fold_jumps hp⟩
      | fallsThrough =>
        refine ⟨?_, h.fold_fallsThrough hs hn hp⟩
        obtain ⟨p, -, hlt, he⟩ := removed_fold hs hn hp
        rw [he]
        exact hs.removeAt hlt
    exact ih _ hfold.1 (hthin.nodup hn) hp.fold hfold.2

theorem not_valid_revise (hb : b.Valid) (he : b.Sealed) (hs : ¬ Safe b) :
    ¬ (revise b).body.Valid := by
  intro hv
  obtain ⟨w, hw, t, hst, ht, -⟩ := dangling_foldAll (verdicts b) ⟨b, [], false⟩ he
    hb.nodup (pending_verdicts hb.nodup) (.inr (.inr (mt safe_iff.2 hs)))
  exact ht (hv.targets w hw t (by simp [hst, Stmt.targets]))

theorem valid_revise_iff (hb : b.Valid) (he : b.Sealed) : (revise b).body.Valid ↔ Safe b := by
  constructor
  · intro hv
    by_contra hs
    exact not_valid_revise hb he hs hv
  · intro hs
    have hsound := sound_foldAll hb he hs
    exact hsound.coherent.valid_dropEmptyTraps hsound.nonempty

end ConstantBranches

namespace Pass

theorem constantBranches_carries :
    constantBranches.Carries (fun b ↦ b.Ready ∧ ConstantBranches.Safe b) Body.Ready :=
  fun _ _ hb ↦ ⟨⟨_, rfl⟩, ConstantBranches.ready_revise hb.1 hb.2⟩

theorem constantBranches_cleans : constantBranches.Cleans fun _ ↦ ConstantBranches.Decided where
  stable _ := ConstantBranches.stable_decided
  steps _ _ hn := ⟨_, _, ConstantBranches.revise_steps hn, rfl⟩

end Pass

end ThreeAddress
