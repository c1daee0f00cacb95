import ThreeAddress.Proofs.Body.Chains

namespace ThreeAddress.Body

variable {b : Body} {p q r : Nat} {x z : UnitId} {t : Trap}

/-- The unit is empty, or a goto to a unit behind it with nothing but such units in between. -/
inductive Hollow (b : Body) : Nat → Prop
  | nop {p : Nat} : b.stmtAt? p = some .nop → Hollow b p
  | goto {p q : Nat} {z : UnitId} : b.stmtAt? p = some (.goto z) → b.ids[q]? = some z → p < q →
      (∀ r, p < r → r < q → Hollow b r) → Hollow b p

def Subsides (b : Body) (z : UnitId) : Prop :=
  ∃ q : Nat, b.ids[q]? = some z ∧ ∀ r, q ≤ r → r < b.size → b.Hollow r

def Shields (b : Body) (t : Trap) : Prop := ∃ r, b.covers t r = true ∧ ¬ b.Hollow r

/-- Something is done, but not at the end, and traps hold on to this end that protect nothing that
is done, and nothing else does. -/
structure Moored (b : Body) : Prop where
  solid : ∃ r < b.size, ¬ b.Hollow r
  held : ∃ t ∈ b.traps, ∃ z ∈ t.refs, b.Subsides z
  jumps : ∀ r u, b.units[r]? = some u → ¬ b.Hollow r → ∀ z ∈ u.stmt.targets, ¬ b.Subsides z
  shields : ∀ t ∈ b.traps, b.Shields t → ∀ z ∈ t.refs, ¬ b.Subsides z

theorem Hollow.lt (h : b.Hollow p) : p < b.size := by
  cases h with
  | nop hs => exact lt_size_of_stmtAt? hs
  | goto hs => exact lt_size_of_stmtAt? hs

theorem isReferenced_of_target {v : CodeUnit} (hv : v ∈ b.units) (hz : z ∈ v.stmt.targets) :
    b.isReferenced z = true := by
  rw [isReferenced, isJumpTarget, Bool.or_eq_true, List.any_eq_true]
  exact .inl ⟨v, hv, by simpa using hz⟩

theorem isReferenced_of_goto (hs : b.stmtAt? p = some (.goto z)) : b.isReferenced z = true := by
  obtain ⟨v, hv, hgoto⟩ := unit_of_stmtAt? hs
  exact isReferenced_of_target (List.mem_of_getElem? hv) (by simp [hgoto, Stmt.targets])

theorem isReferenced_of_trap (ht : t ∈ b.traps) (hz : z ∈ t.refs) : b.isReferenced z = true := by
  rw [isReferenced, Bool.or_eq_true, List.any_eq_true (l := b.traps)]
  exact .inr ⟨t, ht, by simpa using hz⟩

theorem Coherent.mem_ids_of_isReferenced (h : b.Coherent) (hz : b.isReferenced z = true) :
    z ∈ b.ids := by
  simp only [isReferenced, isJumpTarget, Bool.or_eq_true, List.any_eq_true, decide_eq_true_eq] at hz
  obtain ⟨v, hv, hz⟩ | ⟨t, ht, hz⟩ := hz
  · exact h.targets v hv z hz
  · obtain ⟨i, j, hi, hj, -⟩ := h.spans t ht
    simp only [Trap.refs, List.mem_cons, List.not_mem_nil, or_false] at hz
    obtain rfl | rfl | rfl := hz
    · exact List.mem_of_getElem? hi
    · exact List.mem_of_getElem? hj
    · exact h.handlers t ht

theorem covers_iff_of_ends {i j : Nat} (hn : b.ids.Nodup) (hi : b.ids[i]? = some t.first)
    (hj : b.ids[j]? = some t.last) : b.covers t r = true ↔ i ≤ r ∧ r < j := by
  simp [covers, (trapSpan?_eq_some hn).2 ⟨hi, hj⟩]

theorem subsides_iff (hn : b.ids.Nodup) (hq : b.ids[q]? = some z) :
    b.Subsides z ↔ ∀ r, q ≤ r → r < b.size → b.Hollow r := by
  constructor
  · intro h
    obtain ⟨q', hq', h⟩ := h
    rwa [index_unique hn hq hq']
  · exact fun h ↦ ⟨q, hq, h⟩

theorem stmtAt?_removeAt (b : Body) (p r : Nat) : (b.removeAt p).stmtAt? r =
    (b.stmtAt? (unslide p r)).map (·.mapTargets (b.heir p)) := by
  rw [stmtAt?, getElem?_removeAt, stmtAt?, Option.map_map, Option.map_map]
  rfl

theorem traps_removeAt (b : Body) (p : Nat) :
    (b.removeAt p).traps = b.traps.map (·.mapRefs (b.heir p)) := by
  rw [removeAt_eq]

theorem unslide_slide (h : r ≠ p) : unslide p (slide p r) = r := by
  unfold unslide slide
  split <;> split <;> omega

theorem lt_slide_iff : r < slide p q ↔ unslide p r < q := by
  unfold unslide slide
  split <;> split <;> omega

theorem slide_le_iff : slide p q ≤ r ↔ q ≤ unslide p r := by
  rw [← Nat.not_lt, lt_slide_iff, Nat.not_lt]

theorem unslide_strict (h : q < r) : unslide p q < unslide p r := by
  unfold unslide
  split <;> split <;> omega

theorem unslide_lt_size (hp : p < b.size) : unslide p r < b.size ↔ r < (b.removeAt p).size := by
  have hsize := size_removeAt hp
  unfold unslide
  split <;> omega

section Removal

variable (hb : b.Coherent) (hp : b.ids[p]? = some x) (hr : b.isRemovable x = true)

include hb hp hr

theorem getElem?_heir_of_isReferenced (hq : b.ids[q]? = some z) (hz : b.isReferenced z = true) :
    (b.removeAt p).ids[slide p q]? = some (b.heir p z) := by
  refine getElem?_heir hb.nodup hp hq fun he ↦ ?_
  obtain hlt | hnone := (isRemovable_iff hb.nodup hp).1 hr
  · exact hlt
  · rw [← he, hz] at hnone
    cases hnone

theorem exists_goto_of_removeAt (hs : (b.removeAt p).stmtAt? r = some (.goto z))
    (hq : (b.removeAt p).ids[q]? = some z) : ∃ (y : UnitId) (k : Nat),
      b.stmtAt? (unslide p r) = some (.goto y) ∧ b.ids[k]? = some y ∧ q = slide p k := by
  rw [stmtAt?_removeAt] at hs
  obtain ⟨s, hold, he⟩ := Option.map_eq_some_iff.1 hs
  obtain ⟨y, rfl, rfl⟩ : ∃ y, s = .goto y ∧ b.heir p y = z := by
    cases s <;> simp_all [Stmt.mapTargets]
  have hy := isReferenced_of_goto hold
  obtain ⟨k, hk⟩ := List.getElem?_of_mem (hb.mem_ids_of_isReferenced hy)
  refine ⟨y, k, hold, hk, index_unique (nodup_removeAt hb.nodup p) hq ?_⟩
  exact getElem?_heir_of_isReferenced hb hp hr hk hy

theorem Hollow.removeAt (h : b.Hollow q) (hq : q = unslide p r) : (b.removeAt p).Hollow r := by
  induction h generalizing r with
  | nop hs =>
    refine .nop ?_
    rw [stmtAt?_removeAt, ← hq, hs]
    rfl
  | @goto q k y hs hk hlt _ ih =>
    have hk' := getElem?_heir_of_isReferenced hb hp hr hk (isReferenced_of_goto hs)
    have hgoto : (b.removeAt p).stmtAt? r = some (.goto (b.heir p y)) := by
      rw [stmtAt?_removeAt, ← hq, hs]
      rfl
    -- what stands in between has stood in between
    refine .goto hgoto hk' (lt_slide_iff.2 (hq ▸ hlt)) fun i hri hik ↦ ?_
    exact ih (unslide p i) (hq ▸ unslide_strict hri) (lt_slide_iff.1 hik) rfl

variable (hh : b.Hollow p)

include hh

theorem Hollow.of_removeAt (h : (b.removeAt p).Hollow r) : b.Hollow (unslide p r) := by
  induction h with
  | nop hs =>
    rw [stmtAt?_removeAt] at hs
    obtain ⟨s, hs, he⟩ := Option.map_eq_some_iff.1 hs
    obtain rfl : s = .nop := by cases s <;> simp_all [Stmt.mapTargets]
    exact .nop hs
  | @goto r q z hs hq hlt _ ih =>
    obtain ⟨y, k, hs, hk, rfl⟩ := exists_goto_of_removeAt hb hp hr hs hq
    refine .goto hs hk (lt_slide_iff.1 hlt) fun i hri hik ↦ ?_
    -- in between there may also have been the unit that is gone
    by_cases hip : i = p
    · exact hip ▸ hh
    · rw [← unslide_slide hip]
      exact ih _ (lt_slide_iff.2 hri) (slide_strict hik hip)

theorem hollow_removeAt_iff : (b.removeAt p).Hollow r ↔ b.Hollow (unslide p r) :=
  ⟨.of_removeAt hb hp hr hh, fun h ↦ h.removeAt hb hp hr rfl⟩

theorem subsides_removeAt_iff (hz : b.isReferenced z = true) :
    (b.removeAt p).Subsides (b.heir p z) ↔ b.Subsides z := by
  obtain ⟨q, hq⟩ := List.getElem?_of_mem (hb.mem_ids_of_isReferenced hz)
  have hq' := getElem?_heir_of_isReferenced hb hp hr hq hz
  have hlt (r : Nat) : unslide p r < b.size ↔ r < (b.removeAt p).size :=
    unslide_lt_size (lt_size_of_getElem? hp)
  rw [subsides_iff (nodup_removeAt hb.nodup p) hq', subsides_iff hb.nodup hq]
  constructor
  · intro h r hqr hrs
    by_cases hrp : r = p
    · exact hrp ▸ hh
    · rw [← unslide_slide hrp, ← hollow_removeAt_iff hb hp hr hh]
      apply h _ (slide_mono hqr)
      rwa [← hlt, unslide_slide hrp]
  · intro h r hqr hrs
    rw [hollow_removeAt_iff hb hp hr hh]
    exact h _ (slide_le_iff.1 hqr) ((hlt r).2 hrs)

theorem shields_removeAt_iff (ht : t ∈ b.traps) :
    (b.removeAt p).Shields (t.mapRefs (b.heir p)) ↔ b.Shields t := by
  obtain ⟨i, j, hi, hj, -⟩ := hb.spans t ht
  have hi' := getElem?_heir_of_isReferenced hb hp hr hi
    (isReferenced_of_trap ht (by simp [Trap.refs]))
  have hj' := getElem?_heir_of_isReferenced hb hp hr hj
    (isReferenced_of_trap ht (by simp [Trap.refs]))
  have hcovers (r : Nat) : (b.removeAt p).covers (t.mapRefs (b.heir p)) r = true ↔
      b.covers t (unslide p r) = true := by
    rw [covers_iff_of_ends (nodup_removeAt hb.nodup p) hi' hj', covers_iff_of_ends hb.nodup hi hj,
      slide_le_iff, lt_slide_iff]
  constructor
  · intro h
    obtain ⟨r, hc, hsolid⟩ := h
    exact ⟨unslide p r, (hcovers r).1 hc, mt (hollow_removeAt_iff hb hp hr hh).2 hsolid⟩
  · intro h
    obtain ⟨r, hc, hsolid⟩ := h
    have hrp : r ≠ p := fun he ↦ hsolid (he ▸ hh)
    refine ⟨slide p r, (hcovers _).2 (by rwa [unslide_slide hrp]), ?_⟩
    rwa [hollow_removeAt_iff hb hp hr hh, unslide_slide hrp]

theorem solid_removeAt_iff :
    (∃ r < (b.removeAt p).size, ¬ (b.removeAt p).Hollow r) ↔ ∃ r < b.size, ¬ b.Hollow r := by
  have hlt (r : Nat) : unslide p r < b.size ↔ r < (b.removeAt p).size :=
    unslide_lt_size (lt_size_of_getElem? hp)
  constructor
  · intro h
    obtain ⟨r, hrs, hsolid⟩ := h
    exact ⟨unslide p r, (hlt r).2 hrs, mt (hollow_removeAt_iff hb hp hr hh).2 hsolid⟩
  · intro h
    obtain ⟨r, hrs, hsolid⟩ := h
    have hplace : unslide p (slide p r) = r := unslide_slide fun he ↦ hsolid (he ▸ hh)
    refine ⟨slide p r, ?_, ?_⟩
    · rwa [← hlt, hplace]
    · rwa [hollow_removeAt_iff hb hp hr hh, hplace]

theorem held_removeAt_iff :
    (∃ t ∈ (b.removeAt p).traps, ∃ z ∈ t.refs, (b.removeAt p).Subsides z) ↔
      ∃ t ∈ b.traps, ∃ z ∈ t.refs, b.Subsides z := by
  simp only [traps_removeAt, List.mem_map, exists_exists_and_eq_and, Trap.refs_mapRefs]
  refine exists_congr fun t ↦ and_congr_right fun ht ↦ ?_
  refine exists_congr fun z ↦ and_congr_right fun hz ↦ ?_
  exact subsides_removeAt_iff hb hp hr hh (isReferenced_of_trap ht hz)

theorem jumps_removeAt_iff :
    (∀ r u, (b.removeAt p).units[r]? = some u → ¬ (b.removeAt p).Hollow r →
      ∀ z ∈ u.stmt.targets, ¬ (b.removeAt p).Subsides z) ↔
    ∀ r u, b.units[r]? = some u → ¬ b.Hollow r → ∀ z ∈ u.stmt.targets, ¬ b.Subsides z := by
  have hsubsides {v : CodeUnit} (hv : v ∈ b.units) {z : UnitId} (hz : z ∈ v.stmt.targets) :
      (b.removeAt p).Subsides (b.heir p z) ↔ b.Subsides z :=
    subsides_removeAt_iff hb hp hr hh (isReferenced_of_target hv hz)
  constructor
  · intro h r u hu hsolid z hz
    have hplace : unslide p (slide p r) = r := unslide_slide fun he ↦ hsolid (he ▸ hh)
    rw [← hsubsides (List.mem_of_getElem? hu) hz]
    apply h (slide p r) (u.mapStmt (·.mapTargets (b.heir p)))
    · rw [getElem?_removeAt, hplace, hu, Option.map_some]
    · rwa [hollow_removeAt_iff hb hp hr hh, hplace]
    · simpa using ⟨z, hz, rfl⟩
  · intro h r u' hu' hsolid z' hz'
    rw [getElem?_removeAt] at hu'
    obtain ⟨u, hu, rfl⟩ := Option.map_eq_some_iff.1 hu'
    obtain ⟨z, hz, rfl⟩ : ∃ z ∈ u.stmt.targets, b.heir p z = z' := by simpa using hz'
    rw [hsubsides (List.mem_of_getElem? hu) hz]
    exact h (unslide p r) u hu (mt (hollow_removeAt_iff hb hp hr hh).2 hsolid) z hz

theorem shielded_removeAt_iff :
    (∀ t ∈ (b.removeAt p).traps, (b.removeAt p).Shields t →
      ∀ z ∈ t.refs, ¬ (b.removeAt p).Subsides z) ↔
    ∀ t ∈ b.traps, b.Shields t → ∀ z ∈ t.refs, ¬ b.Subsides z := by
  simp only [traps_removeAt, List.forall_mem_map, Trap.refs_mapRefs]
  refine forall₂_congr fun t ht ↦ imp_congr (shields_removeAt_iff hb hp hr hh ht) ?_
  refine forall₂_congr fun z hz ↦ not_congr ?_
  exact subsides_removeAt_iff hb hp hr hh (isReferenced_of_trap ht hz)

/-- The removal of a unit that does nothing neither makes a body moored nor frees one that is. -/
theorem moored_removeAt_iff : (b.removeAt p).Moored ↔ b.Moored := by
  have hsolid := solid_removeAt_iff hb hp hr hh
  have hheld := held_removeAt_iff hb hp hr hh
  have hjumps := jumps_removeAt_iff hb hp hr hh
  have hshielded := shielded_removeAt_iff hb hp hr hh
  constructor
  · exact fun h ↦ ⟨hsolid.1 h.solid, hheld.1 h.held, hjumps.1 h.jumps, hshielded.1 h.shields⟩
  · exact fun h ↦ ⟨hsolid.2 h.solid, hheld.2 h.held, hjumps.2 h.jumps, hshielded.2 h.shields⟩

end Removal

end ThreeAddress.Body
