import ThreeAddress.Body.Valid
import ThreeAddress.Proofs.Body.Position

namespace ThreeAddress.Body

variable {b : Body}

theorem declares_iff {x : LocalId} : b.declares x = true ↔ x ∈ b.locals.map (·.id) := by
  simp [declares]

theorem mem_mentioned {x : LocalId} : x ∈ b.mentioned ↔ ∃ u ∈ b.units, x ∈ u.stmt.locals := by
  simp [mentioned]

theorem unitDefect?_eq_none {u : CodeUnit} : b.unitDefect? u = none ↔
    (∀ t ∈ u.stmt.targets, t ∈ b.ids) ∧ ∀ x ∈ u.stmt.locals, x ∈ b.locals.map (·.id) := by
  simp only [unitDefect?, Option.or_eq_none_iff, List.findSome?_eq_none_iff, ite_eq_left_iff,
    reduceCtorEq, imp_false, not_not, hasUnit_iff, declares_iff]

theorem trapDefect?_eq_none {t : Trap} : b.trapDefect? t = none ↔
    t.handler ∈ b.ids ∧ ∃ first last, b.trapSpan? t = some (first, last) ∧ first < last := by
  rw [trapDefect?, trapSpan?]
  cases hf : b.position? t.first with
  | none => simp
  | some first =>
    cases hl : b.position? t.last with
    | none => simp
    | some last =>
      by_cases hh : t.handler ∈ b.ids
      · have hu : b.hasUnit t.handler = true := hasUnit_iff.2 hh
        simp [hh, hu]
      · have hu : b.hasUnit t.handler = false := by simpa using mt hasUnit_iff.1 hh
        simp [hh, hu]

theorem validate_eq_ok : b.validate = .ok () ↔ b.Valid := by
  have hd : b.validate = .ok () ↔ b.defect? = none := by
    rw [validate]
    cases b.defect? <;> simp
  rw [hd, defect?]
  constructor
  · intro h
    split at h
    · simp at h
    split at h
    · simp at h
    rename_i hne hn
    simp only [Option.or_eq_none_iff, List.findSome?_eq_none_iff, unitDefect?_eq_none,
      trapDefect?_eq_none] at h
    exact ⟨by simpa using hne, not_not.1 hn, fun u hu ↦ (h.1 u hu).1, fun u hu ↦ (h.1 u hu).2, h.2⟩
  · rintro ⟨hne, hn, ht, hl, hs⟩
    rw [if_neg (by simpa using hne), if_neg (not_not.2 hn)]
    simp only [Option.or_eq_none_iff, List.findSome?_eq_none_iff, unitDefect?_eq_none,
      trapDefect?_eq_none]
    exact ⟨fun u hu ↦ ⟨ht u hu, hl u hu⟩, hs⟩

/-- A body is coherent when its identities differ, every jump and every trap names units of the
body, no trap ends before it begins, and every local that a unit mentions is declared. -/
structure Coherent (b : Body) : Prop where
  nodup : b.ids.Nodup
  targets : ∀ u ∈ b.units, ∀ t ∈ u.stmt.targets, t ∈ b.ids
  declared : ∀ u ∈ b.units, ∀ x ∈ u.stmt.locals, x ∈ b.locals.map (·.id)
  handlers : ∀ t ∈ b.traps, t.handler ∈ b.ids
  spans : ∀ t ∈ b.traps, ∃ p q : Nat, b.ids[p]? = some t.first ∧ b.ids[q]? = some t.last ∧ p ≤ q

/-- The identities of the units lie below the bound for fresh ones. The empty body is bounded, and
all edits keep to it, so a body that is not cannot be built. -/
def Bounded (b : Body) : Prop := ∀ u ∈ b.ids, u.index < b.nextUnit

instance (b : Body) : Decidable b.Bounded :=
  inferInstanceAs (Decidable (∀ u ∈ b.ids, u.index < b.nextUnit))

/-- There are identities for so many more units, with one left over for the bound. -/
def HasRoom (b : Body) (k : Nat) : Prop := b.nextUnit + k < idCount

instance (b : Body) (k : Nat) : Decidable (b.HasRoom k) :=
  inferInstanceAs (Decidable (b.nextUnit + k < idCount))

theorem HasRoom.mono {i k : Nat} (h : b.HasRoom k) (hle : i ≤ k) : b.HasRoom i :=
  Nat.lt_of_le_of_lt (Nat.add_le_add_left hle _) h

theorem Valid.spans (h : b.Valid) {t : Trap} (ht : t ∈ b.traps) :
    ∃ p q : Nat, b.ids[p]? = some t.first ∧ b.ids[q]? = some t.last ∧ p < q := by
  obtain ⟨-, p, q, hs, hlt⟩ := h.traps t ht
  obtain ⟨hp, hq⟩ := (trapSpan?_eq_some h.nodup).1 hs
  exact ⟨p, q, hp, hq, hlt⟩

def Guards (b : Body) (t : Trap) : Prop :=
  t.handler ∈ b.ids ∧ ∃ p q : Nat, b.ids[p]? = some t.first ∧ b.ids[q]? = some t.last ∧ p < q

theorem Valid.guards (h : b.Valid) {t : Trap} (ht : t ∈ b.traps) : b.Guards t :=
  ⟨(h.traps t ht).1, h.spans ht⟩

theorem Valid.withTraps (h : b.Valid) {ts : List Trap} (hts : ∀ t ∈ ts, b.Guards t) :
    Valid { b with traps := ts } where
  nonempty := h.nonempty
  nodup := h.nodup
  targets := h.targets
  declared := h.declared
  traps t ht := by
    obtain ⟨hh, p, q, hp, hq, hlt⟩ := hts t ht
    exact ⟨hh, p, q, (trapSpan?_eq_some h.nodup).2 ⟨hp, hq⟩, hlt⟩

theorem Valid.coherent (h : b.Valid) : b.Coherent where
  nodup := h.nodup
  targets := h.targets
  declared := h.declared
  handlers t ht := (h.traps t ht).1
  spans t ht := by
    obtain ⟨p, q, hp, hq, hlt⟩ := h.spans ht
    exact ⟨p, q, hp, hq, Nat.le_of_lt hlt⟩

theorem Valid.declared_of_mentioned (h : b.Valid) {x : LocalId} (hx : x ∈ b.mentioned) :
    x ∈ b.locals.map (·.id) := by
  obtain ⟨u, hu, hx⟩ := mem_mentioned.1 hx
  exact h.declared u hu x hx

theorem Coherent.valid (h : b.Coherent) (hne : b.units ≠ [])
    (hs : ∀ t ∈ b.traps, ∃ p q : Nat, b.ids[p]? = some t.first ∧ b.ids[q]? = some t.last ∧ p < q) :
    b.Valid where
  nonempty := hne
  nodup := h.nodup
  targets := h.targets
  declared := h.declared
  traps t ht := by
    obtain ⟨p, q, hp, hq, hlt⟩ := hs t ht
    exact ⟨h.handlers t ht, p, q, (trapSpan?_eq_some h.nodup).2 ⟨hp, hq⟩, hlt⟩

/-- Traps may be taken from a coherent body, or replaced by others that are as good. -/
theorem Coherent.withTraps (h : b.Coherent) {ts : List Trap} (hh : ∀ t ∈ ts, t.handler ∈ b.ids)
    (hs : ∀ t ∈ ts, ∃ p q : Nat, b.ids[p]? = some t.first ∧ b.ids[q]? = some t.last ∧ p ≤ q) :
    Coherent { b with traps := ts } :=
  ⟨h.nodup, h.targets, h.declared, hh, hs⟩

theorem Coherent.subTraps (h : b.Coherent) {ts : List Trap} (hs : ts ⊆ b.traps) :
    Coherent { b with traps := ts } :=
  h.withTraps (fun t ht ↦ h.handlers t (hs ht)) fun t ht ↦ h.spans t (hs ht)

theorem Coherent.valid_dropEmptyTraps (h : b.Coherent) (hne : b.units ≠ []) :
    b.dropEmptyTraps.Valid := by
  refine (h.subTraps (List.filter_subset_self _)).valid hne fun t ht ↦ ?_
  obtain ⟨ht, he⟩ := List.mem_filter.1 ht
  obtain ⟨p, q, hp, hq, -⟩ := h.spans t ht
  refine ⟨p, q, hp, hq, ?_⟩
  simpa [isEmptyTrap, (trapSpan?_eq_some h.nodup).2 ⟨hp, hq⟩] using he

theorem isEmptyTrap_of_covers {t : Trap} {r : Nat} (h : b.covers t r = true) :
    b.isEmptyTrap t = false := by
  obtain ⟨i, j, hspan, hir, hrj⟩ := covers_iff.1 h
  simp only [isEmptyTrap, hspan, decide_eq_false_iff_not]
  omega

theorem Coherent.isEmptyTrap_iff (hb : b.Coherent) {t : Trap} (ht : t ∈ b.traps) :
    b.isEmptyTrap t = true ↔ t.first = t.last := by
  obtain ⟨p, q, hp, hq, hle⟩ := hb.spans t ht
  rw [isEmptyTrap, (trapSpan?_eq_some hb.nodup).2 ⟨hp, hq⟩]
  simp only [decide_eq_true_eq]
  constructor
  · intro hge
    obtain rfl := Nat.le_antisymm hle hge
    exact Option.some.inj (hp.symm.trans hq)
  · intro he
    exact Nat.le_of_eq (index_unique hb.nodup hq (he ▸ hp))

theorem Valid.isEmptyTrap_eq_false (h : b.Valid) {t : Trap} (ht : t ∈ b.traps) :
    b.isEmptyTrap t = false := by
  obtain ⟨-, p, q, hspan, hlt⟩ := h.traps t ht
  simpa [isEmptyTrap, hspan] using hlt

theorem Valid.emptyTraps_eq_nil (h : b.Valid) : b.emptyTraps = [] := by
  rw [emptyTraps, List.filter_eq_nil_iff]
  intro t ht
  simp [h.isEmptyTrap_eq_false ht]

theorem Valid.dropEmptyTraps_eq_self (h : b.Valid) : b.dropEmptyTraps = b := by
  have hkept : (b.traps.filter (!b.isEmptyTrap ·)) = b.traps := by
    apply List.filter_eq_self.2
    intro t ht
    simp [h.isEmptyTrap_eq_false ht]
  rw [dropEmptyTraps, hkept]

end ThreeAddress.Body
