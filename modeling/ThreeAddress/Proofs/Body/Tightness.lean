import ThreeAddress.Proofs.Cleanup

namespace ThreeAddress

namespace Stmt

theorem mayThrow_of_isInert {s : Stmt} (h : s.isInert = true) : s.mayThrow = false := by
  cases s <;> simp_all [isInert, mayThrow]

end Stmt

namespace Body

variable {b c d : Body} {gone : CodeUnit → Prop} {u w : UnitId} {v : CodeUnit} {p q : Nat}

def Throws (b : Body) (u : UnitId) : Prop := ∃ v ∈ b.units, v.id = u ∧ v.stmt.mayThrow = true

/-- The trap begins at a unit that may throw, and the unit directly before its end may throw. -/
def Hugs (b : Body) (t : Trap) : Prop :=
  b.Throws t.first ∧ ∃ u, b.successor? u = some t.last ∧ b.Throws u

def Tight (b : Body) : Prop := ∀ t ∈ b.traps, b.Hugs t

/-- A trap begins at the unit, or ends directly after it. -/
def IsRim (b : Body) (u : UnitId) : Prop :=
  ∃ t ∈ b.traps, t.first = u ∨ b.successor? u = some t.last

/-- What throws at the rim of a trap of `b` throws in `c`. -/
def KeepsRims (b c : Body) : Prop := ∀ u, b.IsRim u → c.Throws u

theorem Throws.mem_ids (h : b.Throws u) : u ∈ b.ids := by
  obtain ⟨v, hv, rfl, -⟩ := h
  exact id_mem_ids hv

theorem Throws.stmt (hn : b.ids.Nodup) (h : b.Throws v.id) (hv : v ∈ b.units) :
    v.stmt.mayThrow = true := by
  obtain ⟨w, hw, he, ht⟩ := h
  exact eq_of_id_eq hn hw hv he ▸ ht

theorem successor?_eq_some (hn : b.ids.Nodup) : b.successor? u = some w ↔
    ∃ p, b.ids[p]? = some u ∧ b.ids[p + 1]? = some w := by
  constructor
  · intro h
    cases hp : b.position? u with
    | none => simp [successor?, hp] at h
    | some p =>
      have hu := getElem?_of_position? hp
      exact ⟨p, hu, successor?_of_getElem? hn hu ▸ h⟩
  · rintro ⟨p, hu, hw⟩
    rw [successor?_of_getElem? hn hu, hw]

theorem successor?_eq_none_iff (hn : b.ids.Nodup) (hu : u ∈ b.ids) :
    b.successor? u = none ↔ b.ids.getLast? = some u := by
  obtain ⟨p, hp⟩ := List.getElem?_of_mem hu
  obtain ⟨hlt, -⟩ := List.getElem?_eq_some_iff.1 hp
  rw [successor?_of_getElem? hn hp, List.getElem?_eq_none_iff, List.getLast?_eq_getElem?, ← hp,
    List.getElem?_inj (by omega) hn]
  omega

theorem successor?_inj (hn : b.ids.Nodup) {u' : UnitId} (h : b.successor? u = some w)
    (h' : b.successor? u' = some w) : u = u' := by
  obtain ⟨p, hu, hw⟩ := (successor?_eq_some hn).1 h
  obtain ⟨q, hu', hw'⟩ := (successor?_eq_some hn).1 h'
  obtain rfl : p = q := Nat.succ.inj (index_unique hn hw hw')
  exact Option.some.inj (hu.symm.trans hu')

theorem successor?_congr (hn : b.ids.Nodup) (hi : c.ids = b.ids) (u : UnitId) :
    c.successor? u = b.successor? u := by
  refine Option.ext fun w ↦ ?_
  rw [successor?_eq_some hn, successor?_eq_some (hi ▸ hn), hi]

theorem Tight.throws (hn : b.ids.Nodup) (h : b.Tight) (hu : b.IsRim u) : b.Throws u := by
  obtain ⟨t, ht, rfl | hl⟩ := hu
  · exact (h t ht).1
  · obtain ⟨z, hz, hthrows⟩ := (h t ht).2
    exact successor?_inj hn hz hl ▸ hthrows

theorem IsRim.of_subset (hn : b.ids.Nodup) (hi : c.ids = b.ids) (ht : c.traps ⊆ b.traps)
    (h : c.IsRim u) : b.IsRim u := by
  obtain ⟨t, htc, hu⟩ := h
  rw [successor?_congr hn hi] at hu
  exact ⟨t, ht htc, hu⟩

theorem KeepsRims.of_subset (hn : b.ids.Nodup) (h : b.KeepsRims d) (hi : c.ids = b.ids)
    (ht : c.traps ⊆ b.traps) : c.KeepsRims d :=
  fun u hu ↦ h u (hu.of_subset hn hi ht)

theorem Tight.of_subset (hn : b.ids.Nodup) (hb : b.Tight) (hi : c.ids = b.ids)
    (ht : c.traps ⊆ b.traps) (hc : b.KeepsRims c) : c.Tight := by
  intro t htc
  obtain ⟨-, u, hu, -⟩ := hb t (ht htc)
  have hlast : b.IsRim u := ⟨t, ht htc, .inr hu⟩
  rw [← successor?_congr hn hi] at hu
  exact ⟨hc _ ⟨t, ht htc, .inl rfl⟩, u, hu, hc u hlast⟩

theorem slide_succ (h : q ≠ p) : slide p (q + 1) = slide p q + 1 := by
  unfold slide
  split <;> split <;> omega

theorem throws_removeAt (hp : b.units[p]? = some v) (hu : u ≠ v.id)
    (h : b.Throws u) : (b.removeAt p).Throws u := by
  obtain ⟨w, hw, rfl, hthrow⟩ := h
  obtain ⟨q, hq⟩ := List.getElem?_of_mem hw
  refine ⟨w.mapStmt (·.mapTargets (b.heir p)), mem_removeAt.2 ⟨q, w, ?_, hq, rfl⟩, rfl, by simpa⟩
  rintro rfl
  exact hu (congrArg CodeUnit.id (Option.some.inj (hq.symm.trans hp)))

theorem successor?_removeAt (hn : b.ids.Nodup) (hp : b.units[p]? = some v) (hu : u ≠ v.id)
    (hw : b.successor? u = some w) (hs : w = v.id → p + 1 < b.size) :
    (b.removeAt p).successor? u = some (b.heir p w) := by
  obtain ⟨q, hq, hq'⟩ := (successor?_eq_some hn).1 hw
  have hv : b.ids[p]? = some v.id := id_of_unit hp
  have hqp : q ≠ p := by
    rintro rfl
    exact hu (Option.some.inj (hq.symm.trans hv))
  have hfirst := getElem?_heir hn hv hq fun he ↦ absurd he hu
  have hsecond := getElem?_heir hn hv hq' hs
  rw [heir_of_ne hv hu] at hfirst
  rw [slide_succ hqp] at hsecond
  exact (successor?_eq_some (nodup_removeAt hn p)).2 ⟨_, hfirst, hsecond⟩

theorem successor?_removeAt_before (hn : b.ids.Nodup) (hp : b.units[p]? = some v)
    (hu : b.successor? u = some v.id) (hw : b.successor? v.id = some w) :
    (b.removeAt p).successor? u = some w := by
  have hv : b.ids[p]? = some v.id := id_of_unit hp
  obtain ⟨q, hq, hq'⟩ := (successor?_eq_some hn).1 hu
  obtain rfl : q + 1 = p := index_unique hn hq' hv
  rw [successor?_of_getElem? hn hv] at hw
  refine (successor?_eq_some (nodup_removeAt hn (q + 1))).2 ⟨q, ?_, ?_⟩
  · rw [ids_removeAt, List.getElem?_eraseIdx_of_lt (Nat.lt_succ_self q), hq]
  · rw [ids_removeAt, List.getElem?_eraseIdx_of_ge (Nat.le_refl _), hw]

/-- Where a unit goes at which no trap begins and after which none ends, traps stay tight, and no
other unit comes to be the first or the last of one. -/
theorem Tight.removeAt (hn : b.ids.Nodup) (hb : b.Tight) (hp : b.units[p]? = some v)
    (hr : b.isRemovable v.id = true) (hv : ¬ b.IsRim v.id) :
    (b.removeAt p).Tight ∧ ∀ u, (b.removeAt p).IsRim u → b.IsRim u := by
  have hid : b.ids[p]? = some v.id := id_of_unit hp
  have htraps (t' : Trap) (ht' : t' ∈ (b.removeAt p).traps) : ∃ t ∈ b.traps,
      t'.first = t.first ∧ ∃ u, b.successor? u = some t.last ∧ b.Throws u ∧ u ≠ v.id ∧
        (b.removeAt p).successor? u = some t'.last := by
    obtain ⟨t, ht, rfl⟩ : ∃ t ∈ b.traps, t.mapRefs (b.heir p) = t' := by
      simpa [removeAt_eq] using ht'
    obtain ⟨-, u, hu, hthrow⟩ := hb t ht
    have hfirst : t.first ≠ v.id := fun he ↦ hv ⟨t, ht, .inl he⟩
    have hne : u ≠ v.id := fun he ↦ hv ⟨t, ht, .inr (he ▸ hu)⟩
    refine ⟨t, ht, heir_of_ne hid hfirst, u, hu, hthrow, hne, ?_⟩
    refine successor?_removeAt hn hp hne hu fun he ↦ ?_
    exact (successor_of_referenced hn hid hr).2 t ht (by simp [Trap.refs, he])
  constructor
  · intro t' ht'
    obtain ⟨t, ht, hfirst, u, -, hthrow, hne, hu⟩ := htraps t' ht'
    refine ⟨?_, u, hu, throws_removeAt hp hne hthrow⟩
    rw [hfirst]
    exact throws_removeAt hp (fun he ↦ hv ⟨t, ht, .inl he⟩) (hb t ht).1
  · rintro u ⟨t', ht', rfl | hu⟩
    · obtain ⟨t, ht, hfirst, -⟩ := htraps t' ht'
      exact ⟨t, ht, .inl hfirst.symm⟩
    · obtain ⟨t, ht, -, z, hz, -, -, hz'⟩ := htraps t' ht'
      exact ⟨t, ht, .inr (successor?_inj (nodup_removeAt hn p) hz' hu ▸ hz)⟩

theorem Thinned.not_throws (h : Thinned gone b c) (hn : b.ids.Nodup) (hv : v ∈ b.units)
    (hi : v.stmt.isInert = true) : ¬ c.Throws v.id := by
  rintro ⟨w, hw, he, hthrow⟩
  obtain hw | ⟨z, hz, f, rfl⟩ := h.origin w hw
  · simp [Stmt.mayThrow_of_isInert hw] at hthrow
  · obtain rfl := eq_of_id_eq hn hz hv he
    simp [Stmt.mayThrow_of_isInert hi] at hthrow

theorem Thinned.keepsRims (h : Thinned gone b c) (hn : b.ids.Nodup) (hb : b.Tight)
    (hq : ∀ v, gone v → v.stmt.mayThrow = false) : b.KeepsRims c := by
  intro u hu
  obtain ⟨v, hv, rfl, hthrow⟩ := hb.throws hn hu
  obtain ⟨f, hf⟩ := h.kept v hv fun hg ↦ by simp [hq v hg] at hthrow
  exact ⟨_, hf, rfl, by simpa using hthrow⟩

end Body

namespace Revision

variable {gone : CodeUnit → Prop} {put : Stmt → Prop} {r r' : Revision} {c : Body}

theorem Step.tight (h : Step gone put r r') (hn : r.body.ids.Nodup) (hb : r.body.Tight)
    (hc : Body.Thinned gone r'.body c) (hr : r.body.KeepsRims c) :
    r'.body.Tight ∧ r'.body.KeepsRims c := by
  cases h with
  | remove u p n hp hg hrem hchange =>
    -- a unit at a rim is there at the end, so it is not the one that goes
    have hrim : ¬ r.body.IsRim u.id := by
      intro hu
      have hmem := hc.ids.subset (hr u.id hu).mem_ids
      simp only [withNote, Body.ids_removeAt, List.mem_eraseIdx_iff_getElem?] at hmem
      obtain ⟨q, hq, hqu⟩ := hmem
      exact hq (Body.index_unique hn hqu (Body.id_of_unit hp))
    obtain ⟨htight, hrims⟩ := hb.removeAt hn hp hrem hrim
    exact ⟨htight, fun z hz ↦ hr z (hrims z hz)⟩
  | overwrite u s n hu hg hs hi hw hchange =>
    have hids : (r.body.setStmt u.id s).ids = r.body.ids := Body.ids_setStmt _ _ _
    refine ⟨hb.of_subset hn hids (List.Subset.refl _) fun z hz ↦ ?_,
      hr.of_subset hn hids (List.Subset.refl _)⟩
    obtain ⟨w, hw, rfl, hthrow⟩ := hb.throws hn hz
    refine ⟨w, Body.mem_setStmt_of_ne hw fun he ↦ ?_, rfl, hthrow⟩
    -- the statement that was put there could not come to throw again
    exact hc.not_throws (hids ▸ hn) (Body.mem_setStmt_self hu) hi (he ▸ hr w.id hz)
  | dropTraps ts ns hsub hlen hchange =>
    have hsame : r.body.KeepsRims { r.body with traps := ts } :=
      fun z hz ↦ show r.body.Throws z from hb.throws hn hz
    exact ⟨hb.of_subset hn rfl hsub.subset hsame, hr.of_subset hn rfl hsub.subset⟩

/-- A cleanup keeps traps tight if what throws at their rims is there when it is over. -/
theorem Steps.tight (hst : Stable gone) (h : Steps gone put r r') (hn : r.body.ids.Nodup)
    (hb : r.body.Tight) (hr : r.body.KeepsRims r'.body) : r'.body.Tight := by
  induction h using Relation.ReflTransGen.head_induction_on with
  | refl => exact hb
  | head hs hrest ih =>
    have hnext := (hs.thinned hn).nodup hn
    obtain ⟨htight, hrims⟩ := hs.tight hn hb (Steps.thinned hst hrest hnext) hr
    exact ih hnext htight hrims

end Revision

namespace Pass

def KeepsTight (pass : Pass) : Prop :=
  ∀ m (b : Body), b.ids.Nodup → b.Tight → (pass.run m b).body.Tight

namespace Cleans

variable {pass : Pass} {gone : Body → CodeUnit → Prop} {b : Body}

theorem tight (h : pass.Cleans gone) (m : Signature) (hn : b.ids.Nodup) (hb : b.Tight)
    (hr : b.KeepsRims (pass.run m b).body) : (pass.run m b).body.Tight := by
  obtain ⟨put, r, hsteps, hrun⟩ := h.steps m b hn
  rw [hrun] at hr ⊢
  exact Revision.Steps.tight (h.stable b) hsteps hn hb hr

theorem keepsTight (h : pass.Cleans gone)
    (hq : ∀ b v, gone b v → v.stmt.mayThrow = false) : pass.KeepsTight :=
  fun m b hn hb ↦ h.tight m hn hb ((h.thinned m hn).keepsRims hn hb (hq b))

end Cleans

end Pass

end ThreeAddress
