import ThreeAddress.Lowering.Prologue
import ThreeAddress.Proofs.Body.Replacement
import ThreeAddress.Proofs.Readiness

namespace ThreeAddress

namespace Signature

def inputs (m : Signature) : List Input :=
  (if m.isStatic then [] else [.receiver]) ++ (List.range m.parameters.length).map .parameter

def inputCount (m : Signature) : Nat := m.inputs.length

/-- The units that bind the inputs. -/
def opening (m : Signature) : List CodeUnit :=
  m.inputs.zipIdx.map fun (source, i) ↦ ⟨⟨i⟩, .identity ⟨i⟩ source⟩

/-- The locals that take the inputs. -/
def boundLocals (m : Signature) : List Local :=
  m.bindings.zipIdx.map fun ((name, ty, _), i) ↦ ⟨⟨i⟩, name, ty⟩

theorem inputCount_eq (m : Signature) :
    m.inputCount = m.parameters.length + if m.isStatic then 0 else 1 := by
  cases h : m.isStatic <;> simp [inputCount, inputs, h]

theorem sources_bindings (m : Signature) : m.bindings.map (·.2.2) = m.inputs := by
  have hparameters : (m.parameters.zipIdx.map fun x ↦ Input.parameter x.2) =
      (List.range m.parameters.length).map .parameter := by
    refine List.ext_getElem? fun i ↦ ?_
    by_cases hi : i < m.parameters.length <;> simp [hi]
  cases h : m.isStatic <;> simpa [bindings, inputs, h, Function.comp_def] using hparameters

@[simp] theorem length_bindings (m : Signature) : m.bindings.length = m.inputCount := by
  rw [inputCount, ← sources_bindings, List.length_map]

@[simp] theorem length_opening (m : Signature) : m.opening.length = m.inputCount := by
  simp [opening, inputCount]

@[simp] theorem length_boundLocals (m : Signature) : m.boundLocals.length = m.inputCount := by
  simp [boundLocals]

variable {m : Signature} {p : Nat}

theorem getElem?_opening (hp : p < m.inputCount) :
    ∃ source, m.opening[p]? = some ⟨⟨p⟩, .identity ⟨p⟩ source⟩ := by
  obtain ⟨source, hs⟩ : ∃ source, m.inputs[p]? = some source := ⟨_, List.getElem?_eq_getElem hp⟩
  exact ⟨source, by simp [opening, List.getElem?_zipIdx, hs]⟩

theorem ids_opening (m : Signature) :
    m.opening.map (·.id) = (List.range m.inputCount).map UnitId.mk := by
  refine List.ext_getElem? fun p ↦ ?_
  by_cases hp : p < m.inputCount
  · obtain ⟨source, hs⟩ := getElem?_opening hp
    rw [List.getElem?_map, List.getElem?_map, hs, List.getElem?_range hp]
    rfl
  · rw [List.getElem?_eq_none (by simpa using hp), List.getElem?_eq_none (by simpa using hp)]

theorem not_mem_opening {u : UnitId} (h : m.inputCount ≤ u.index) :
    u ∉ m.opening.map (·.id) := by
  rw [ids_opening]
  intro hm
  obtain ⟨p, hp, rfl⟩ := List.mem_map.1 hm
  exact Nat.not_lt_of_le h (List.mem_range.1 hp)

theorem id_of_boundLocals {l : Local} (h : m.boundLocals[p]? = some l) :
    p < m.inputCount ∧ l.id = ⟨p⟩ := by
  have hlt := (List.getElem?_eq_some_iff.1 h).1
  rw [length_boundLocals] at hlt
  obtain ⟨name, ty, -, rfl⟩ : ∃ name ty, (∃ source, m.bindings[p]? = some (name, ty, source)) ∧
      (⟨⟨p⟩, name, ty⟩ : Local) = l := by
    simpa [boundLocals] using h
  exact ⟨hlt, rfl⟩

end Signature

namespace Body

variable {m : Signature} {b c : Body} {u : CodeUnit} {p q : Nat} {s : Stmt}

/-- The body begins with the units that bind the inputs of the method, its table with their locals,
and no trap refers to one of these units. -/
structure Begins (m : Signature) (b : Body) : Prop where
  units : ∀ p < m.inputCount, b.units[p]? = m.opening[p]?
  apart : ∀ p u, b.ids[p]? = some u → m.inputCount ≤ p → m.inputCount ≤ u.index
  locals : m.boundLocals <+: b.locals
  refs : ∀ t ∈ b.traps, ∀ u ∈ t.refs, m.inputCount ≤ u.index

/-- Nor does a jump go to one of these units. -/
structure Opens (m : Signature) (b : Body) : Prop extends Begins m b where
  targets : ∀ u ∈ b.units, ∀ t ∈ u.stmt.targets, m.inputCount ≤ t.index

namespace Replaced

variable {v : UnitId} {stmts : List Stmt}

theorem getElem?_of_lt (h : b.Replaced v p stmts c) (hq : q < p) :
    c.units[q]? = b.units[q]?.map (·.mapStmt (·.mapTargets (rename v (b.fresh 0)))) := by
  have hlen : q < (b.units.take p).length := by
    rw [List.length_take]
    exact Nat.lt_min.2 ⟨hq, Nat.lt_trans hq (lt_size_of_getElem? h.place)⟩
  rw [h.units, List.getElem?_map, List.append_assoc, List.getElem?_append_left hlen,
    List.getElem?_take_of_lt hq]

theorem old_or_new (h : b.Replaced v p stmts c) {w : CodeUnit} (hw : w ∈ c.units) :
    (∃ u ∈ b.units, w = u.mapStmt (·.mapTargets (rename v (b.fresh 0)))) ∨
      ∃ s ∈ stmts, w.stmt = s.mapTargets (rename v (b.fresh 0)) := by
  rw [h.units] at hw
  obtain ⟨u, hu, rfl⟩ := List.mem_map.1 hw
  rw [List.mem_append, List.mem_append] at hu
  obtain (hu | hu) | hu := hu
  · exact .inl ⟨u, List.mem_of_mem_take hu, rfl⟩
  · exact .inr ⟨u.stmt, mem_number hu, rfl⟩
  · exact .inl ⟨u, List.mem_of_mem_drop hu, rfl⟩

end Replaced

namespace Begins

theorem unit (h : b.Begins m) (hp : p < m.inputCount) :
    ∃ source, b.units[p]? = some ⟨⟨p⟩, .identity ⟨p⟩ source⟩ := by
  rw [h.units p hp]
  exact Signature.getElem?_opening hp

theorem index_iff (h : b.Begins m) (hu : b.units[p]? = some u) :
    m.inputCount ≤ u.id.index ↔ m.inputCount ≤ p := by
  constructor
  · intro hle
    by_contra hlt
    obtain ⟨source, hs⟩ := h.unit (Nat.lt_of_not_le hlt)
    obtain rfl := Option.some.inj (hu.symm.trans hs)
    exact hlt hle
  · exact h.apart p u.id (id_of_unit hu)

theorem le_of_mem (h : b.Begins m) (hu : u ∈ b.units) (hs : ∀ x i, u.stmt ≠ .identity x i) :
    m.inputCount ≤ u.id.index := by
  obtain ⟨p, hp⟩ := List.getElem?_of_mem hu
  rw [h.index_iff hp]
  by_contra hlt
  obtain ⟨source, hp'⟩ := h.unit (Nat.lt_of_not_le hlt)
  obtain rfl := Option.some.inj (hp.symm.trans hp')
  exact hs _ _ rfl

theorem take_units (h : b.Begins m) : b.units.take m.inputCount = m.opening := by
  refine List.ext_getElem? fun p ↦ ?_
  by_cases hp : p < m.inputCount
  · rw [List.getElem?_take_of_lt hp, h.units p hp]
  · rw [List.getElem?_eq_none (by simp; omega), List.getElem?_eq_none (by simp; omega)]

theorem not_ref (h : b.Begins m) {t : Trap} (ht : t ∈ b.traps) {u : UnitId} (hu : u ∈ t.refs) :
    u ∉ m.opening.map (·.id) :=
  Signature.not_mem_opening (h.refs t ht u hu)

theorem withTraps (h : b.Begins m) {ts : List Trap}
    (hts : ∀ t ∈ ts, ∀ u ∈ t.refs, m.inputCount ≤ u.index) :
    Begins m { b with traps := ts } :=
  ⟨h.units, h.apart, h.locals, hts⟩

theorem withLocals (h : b.Begins m) {ls : List Local} (hls : m.boundLocals <+: ls) :
    Begins m { b with locals := ls } :=
  ⟨h.units, h.apart, hls, h.refs⟩

theorem setStmt (h : b.Begins m) {u : UnitId} (hu : m.inputCount ≤ u.index) :
    (b.setStmt u s).Begins m where
  units p hp := by
    obtain ⟨source, hs⟩ := h.unit hp
    have hne : (⟨p⟩ : UnitId) ≠ u := by
      rintro rfl
      exact absurd hp (Nat.not_lt_of_le hu)
    rw [← h.units p hp, Body.setStmt, List.getElem?_map, hs, Option.map_some, if_neg hne]
  apart := by
    rw [ids_setStmt]
    exact h.apart
  locals := h.locals
  refs := h.refs

end Begins

namespace Opens

theorem not_target (h : b.Opens m) (hu : u ∈ b.units) {t : UnitId} (ht : t ∈ u.stmt.targets) :
    t ∉ m.opening.map (·.id) :=
  Signature.not_mem_opening (h.targets u hu t ht)

theorem withTraps (h : b.Opens m) {ts : List Trap}
    (hts : ∀ t ∈ ts, ∀ u ∈ t.refs, m.inputCount ≤ u.index) :
    Opens m { b with traps := ts } :=
  ⟨h.toBegins.withTraps hts, h.targets⟩

theorem subTraps (h : b.Opens m) {ts : List Trap} (hts : ts ⊆ b.traps) :
    Opens m { b with traps := ts } :=
  h.withTraps fun t ht ↦ h.refs t (hts ht)

theorem withLocals (h : b.Opens m) {ls : List Local} (hls : m.boundLocals <+: ls) :
    Opens m { b with locals := ls } :=
  ⟨h.toBegins.withLocals hls, h.targets⟩

theorem restated (h : b.Opens m) (hr : Restated b c) (hl : m.boundLocals <+: c.locals)
    (hk : ∀ p < m.inputCount, c.units[p]? = b.units[p]?) : c.Opens m where
  units p hp := (hk p hp).trans (h.units p hp)
  apart := hr.ids ▸ h.apart
  locals := hl
  targets w hw t ht := by
    obtain ⟨p, hp⟩ := List.getElem?_of_mem hw
    obtain ⟨v, hv, hvw⟩ := hr.flow p w hp
    exact h.targets v (List.mem_of_getElem? hv) t (hvw.targets ▸ ht)
  refs := hr.traps ▸ h.refs

theorem mapStmts (h : b.Opens m) {f : Stmt → Stmt}
    (hf : ∀ p < m.inputCount, ∀ u, b.units[p]? = some u → f u.stmt = u.stmt)
    (ht : ∀ u ∈ b.units, ∀ t ∈ (f u.stmt).targets, m.inputCount ≤ t.index) :
    (b.mapStmts f).Opens m where
  units p hp := by
    obtain ⟨source, hs⟩ := h.unit hp
    rw [← h.units p hp, Body.mapStmts, List.getElem?_map, hs, Option.map_some]
    exact congrArg some (congrArg (CodeUnit.mk _) (hf p hp _ hs))
  apart := by
    rw [ids_mapStmts]
    exact h.apart
  locals := h.locals
  targets w hw := by
    obtain ⟨u, hu, rfl⟩ := List.mem_map.1 hw
    exact ht u hu
  refs := h.refs

theorem setStmt (h : b.Opens m) {u : UnitId} (hu : m.inputCount ≤ u.index)
    (ht : ∀ t ∈ s.targets, m.inputCount ≤ t.index) : (b.setStmt u s).Opens m where
  toBegins := h.toBegins.setStmt hu
  targets := forall_setStmt (P := fun s ↦ ∀ t ∈ s.targets, m.inputCount ≤ t.index) h.targets ht

theorem heir_le (h : b.Opens m) (hp : m.inputCount ≤ p) {t : UnitId}
    (ht : m.inputCount ≤ t.index) : m.inputCount ≤ (b.heir p t).index := by
  cases hu : b.units[p]? with
  | none => simpa [heir, hu] using ht
  | some u =>
    cases hn : b.units[p + 1]? with
    | none => simpa [heir, hu, hn] using ht
    | some next =>
      simp only [heir, hu, hn, rename]
      split
      · exact (h.index_iff hn).2 (Nat.le_succ_of_le hp)
      · exact ht

theorem removeAt (h : b.Opens m) (hp : m.inputCount ≤ p) : (b.removeAt p).Opens m where
  units q hq := by
    obtain ⟨source, hs⟩ := h.unit hq
    rw [getElem?_removeAt_of_lt (Nat.lt_of_lt_of_le hq hp), ← h.units q hq, hs]
    rfl
  apart q u hu hq := by
    rw [ids_removeAt] at hu
    by_cases hqp : q < p
    · rw [List.getElem?_eraseIdx_of_lt hqp] at hu
      exact h.apart q u hu hq
    · rw [List.getElem?_eraseIdx_of_ge (Nat.le_of_not_lt hqp)] at hu
      exact h.apart (q + 1) u hu (Nat.le_succ_of_le hq)
  locals := by
    rw [locals_removeAt]
    exact h.locals
  targets w hw t ht := by
    obtain ⟨q, v, -, hv, rfl⟩ := mem_removeAt.1 hw
    obtain ⟨z, hz, rfl⟩ : ∃ z ∈ v.stmt.targets, b.heir p z = t := by simpa using ht
    exact h.heir_le hp (h.targets v (List.mem_of_getElem? hv) z hz)
  refs t' ht' u hu := by
    obtain ⟨t, ht, rfl⟩ : ∃ t ∈ b.traps, t.mapRefs (b.heir p) = t' := by
      simpa [removeAt_eq] using ht'
    obtain ⟨z, hz, rfl⟩ := List.mem_map.1 (Trap.refs_mapRefs _ t ▸ hu)
    exact h.heir_le hp (h.refs t ht z hz)

/-- The opening has the lowest identities, so where no identity comes twice, later units have
others. -/
theorem apart_of_units (hn : c.ids.Nodup) (h : ∀ p < m.inputCount, c.units[p]? = m.opening[p]?)
    (p : Nat) (u : UnitId) (hu : c.ids[p]? = some u) (hp : m.inputCount ≤ p) :
    m.inputCount ≤ u.index := by
  by_contra hlt
  have hlt := Nat.lt_of_not_le hlt
  obtain ⟨source, hs⟩ := Signature.getElem?_opening hlt
  have hopen : c.ids[u.index]? = some u := by
    rw [getElem?_ids, h u.index hlt, hs]
    rfl
  exact Nat.not_lt_of_le hp (index_unique hn hu hopen ▸ hlt)

theorem replaced (h : b.Opens m) {u : UnitId} {stmts : List Stmt} (hr : b.Replaced u p stmts c)
    (hc : c.ids.Nodup) (hp : m.inputCount ≤ p)
    (ht : ∀ s ∈ stmts, ∀ t ∈ s.targets, m.inputCount ≤ t.index) : c.Opens m := by
  have hunits : ∀ q < m.inputCount, c.units[q]? = m.opening[q]? := by
    intro q hq
    obtain ⟨source, hs⟩ := h.unit hq
    rw [hr.getElem?_of_lt (Nat.lt_of_lt_of_le hq hp), ← h.units q hq, hs]
    rfl
  have hfirst : m.inputCount ≤ (b.fresh 0).index :=
    apart_of_units hc hunits p _ (hr.getElem?_fresh hr.nonempty) hp
  have hrename {t : UnitId} (ht : m.inputCount ≤ t.index) :
      m.inputCount ≤ (rename u (b.fresh 0) t).index := by
    unfold rename
    split
    · exact hfirst
    · exact ht
  refine ⟨⟨hunits, apart_of_units hc hunits, hr.locals ▸ h.locals, ?_⟩, ?_⟩
  · intro t' ht' z hz
    rw [hr.traps] at ht'
    obtain ⟨t, ht, rfl⟩ := List.mem_map.1 ht'
    obtain ⟨y, hy, rfl⟩ := List.mem_map.1 (Trap.refs_mapRefs _ t ▸ hz)
    exact hrename (h.refs t ht y hy)
  · intro w hw t' ht'
    obtain ⟨v, hv, rfl⟩ | ⟨s, hs, he⟩ := hr.old_or_new hw
    · obtain ⟨z, hz, rfl⟩ : ∃ z ∈ v.stmt.targets, rename u (b.fresh 0) z = t' := by simpa using ht'
      exact hrename (h.targets v hv z hz)
    · obtain ⟨z, hz, rfl⟩ : ∃ z ∈ s.targets, rename u (b.fresh 0) z = t' := by simpa [he] using ht'
      exact hrename (ht s hs z hz)

end Opens

end Body

namespace Revision

variable {m : Signature} {gone : CodeUnit → Prop} {put : Stmt → Prop} {r r' : Revision}

/-- A cleanup leaves the opening alone if nothing that it may remove or replace belongs to it. -/
theorem Step.opens (hg : ∀ u, gone u → (∀ x i, u.stmt ≠ .identity x i) ∨ m.inputCount ≤ u.id.index)
    (hput : ∀ s, put s → ∀ t ∈ s.targets, m.inputCount ≤ t.index) (h : Step gone put r r')
    (hr : r.body.Opens m) : r'.body.Opens m := by
  have hgone : ∀ u ∈ r.body.units, gone u → m.inputCount ≤ u.id.index :=
    fun u hu hgu ↦ (hg u hgu).elim (hr.le_of_mem hu) id
  cases h with
  | remove u p n hp hgu _ _ =>
    exact hr.removeAt ((hr.index_iff hp).1 (hgone u (List.mem_of_getElem? hp) hgu))
  | overwrite u s n hu hgu hs _ _ _ => exact hr.setStmt (hgone u hu hgu) (hput s hs)
  | dropTraps ts ns hs _ _ => exact hr.subTraps hs.subset

theorem Steps.opens (hg : ∀ u, gone u → (∀ x i, u.stmt ≠ .identity x i) ∨ m.inputCount ≤ u.id.index)
    (hput : ∀ s, put s → ∀ t ∈ s.targets, m.inputCount ≤ t.index) (h : Steps gone put r r')
    (hr : r.body.Opens m) : r'.body.Opens m := by
  induction h with
  | refl => exact hr
  | tail _ hs ih => exact hs.opens hg hput ih

end Revision

end ThreeAddress
