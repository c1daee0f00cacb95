import Mathlib.Data.List.Nodup
import ThreeAddress.Body.Edit

namespace ThreeAddress.Body

variable {b c : Body} {u : UnitId} {p q : Nat}

theorem getElem?_ids (b : Body) (p : Nat) : b.ids[p]? = b.units[p]?.map (·.id) := by
  simp [ids]

theorem id_of_unit {v : CodeUnit} (h : b.units[p]? = some v) : b.ids[p]? = some v.id := by
  rw [getElem?_ids, h, Option.map_some]

theorem unit_of_id (h : b.ids[p]? = some u) : ∃ v, b.units[p]? = some v ∧ v.id = u :=
  Option.map_eq_some_iff.1 ((getElem?_ids b p).symm.trans h)

theorem getLast?_ids (b : Body) : b.ids.getLast? = b.units.getLast?.map (·.id) :=
  List.getLast?_map

@[simp] theorem length_ids (b : Body) : b.ids.length = b.size := by
  simp [ids, size]

theorem mem_ids : u ∈ b.ids ↔ ∃ v ∈ b.units, v.id = u := by
  simp [ids]

theorem id_mem_ids {v : CodeUnit} (h : v ∈ b.units) : v.id ∈ b.ids := mem_ids.2 ⟨v, h, rfl⟩

theorem lt_size_of_getElem? (h : b.ids[p]? = some u) : p < b.size := by
  obtain ⟨hp, -⟩ := List.getElem?_eq_some_iff.1 h
  simpa using hp

theorem exists_unit_of_lt (h : p < b.size) : ∃ v, b.units[p]? = some v :=
  ⟨_, List.getElem?_eq_getElem h⟩

theorem exists_id_of_lt (h : p < b.size) : ∃ v, b.ids[p]? = some v :=
  ⟨_, List.getElem?_eq_getElem (by simpa using h)⟩

theorem stmtAt?_of_unit {v : CodeUnit} (h : b.units[p]? = some v) : b.stmtAt? p = some v.stmt := by
  rw [stmtAt?, h, Option.map_some]

theorem unit_of_stmtAt? {s : Stmt} (h : b.stmtAt? p = some s) :
    ∃ v, b.units[p]? = some v ∧ v.stmt = s :=
  Option.map_eq_some_iff.1 h

theorem lt_size_of_stmtAt? {s : Stmt} (h : b.stmtAt? p = some s) : p < b.size := by
  obtain ⟨v, hv, -⟩ := unit_of_stmtAt? h
  exact lt_size_of_getElem? (id_of_unit hv)

theorem lt_of_getLast?_ne {v : CodeUnit} (hp : b.units[p]? = some v)
    (h : b.units.getLast? ≠ some v) : p + 1 < b.size := by
  obtain ⟨hlt, -⟩ := List.getElem?_eq_some_iff.1 hp
  by_contra hge
  apply h
  rw [List.getLast?_eq_getElem?, ← hp]
  congr 1
  simp only [size] at hge
  omega

theorem hasUnit_iff : b.hasUnit u = true ↔ u ∈ b.ids := by
  simp [hasUnit, mem_ids]

theorem position?_eq_none : b.position? u = none ↔ u ∉ b.ids := by
  simp [position?, mem_ids]

theorem getElem?_of_position? (h : b.position? u = some p) : b.ids[p]? = some u := by
  obtain ⟨hp, he, -⟩ := List.findIdx?_eq_some_iff_getElem.1 h
  rw [getElem?_ids, List.getElem?_eq_getElem hp]
  simpa using he

theorem unit_of_position? (h : b.position? u = some p) :
    ∃ v, b.units[p]? = some v ∧ v.id = u :=
  unit_of_id (getElem?_of_position? h)

theorem eq_of_id_eq (hn : b.ids.Nodup) {v w : CodeUnit} (hv : v ∈ b.units) (hw : w ∈ b.units)
    (he : v.id = w.id) : v = w :=
  List.inj_on_of_nodup_map hn hv hw he

theorem index_unique (hn : b.ids.Nodup) (hp : b.ids[p]? = some u) (hq : b.ids[q]? = some u) :
    p = q :=
  (List.getElem?_inj (by simpa using lt_size_of_getElem? hp) hn).1 (hp.trans hq.symm)

theorem next_ne (hn : b.ids.Nodup) {w : UnitId} (hp : b.ids[p]? = some u)
    (hq : b.ids[p + 1]? = some w) : w ≠ u := by
  rintro rfl
  exact Nat.succ_ne_self p (index_unique hn hq hp)

theorem position?_eq_some (hn : b.ids.Nodup) : b.position? u = some p ↔ b.ids[p]? = some u := by
  refine ⟨getElem?_of_position?, fun hp ↦ ?_⟩
  cases hq : b.position? u with
  | none => exact absurd (List.mem_of_getElem? hp) (position?_eq_none.1 hq)
  | some q => rw [index_unique hn (getElem?_of_position? hq) hp]

theorem exists_unit_of_stmt? {s : Stmt} (h : b.stmt? u = some s) :
    ∃ v ∈ b.units, v.id = u ∧ v.stmt = s := by
  obtain ⟨v, hv, rfl⟩ := Option.map_eq_some_iff.1 h
  exact ⟨v, List.mem_of_find?_eq_some hv, by simpa using List.find?_some hv, rfl⟩

theorem mem_ids_of_stmt? {s : Stmt} (h : b.stmt? u = some s) : u ∈ b.ids := by
  obtain ⟨v, hv, rfl, -⟩ := exists_unit_of_stmt? h
  exact id_mem_ids hv

theorem stmt?_of_not_mem (hu : u ∉ b.ids) : b.stmt? u = none :=
  Option.eq_none_iff_forall_ne_some.2 fun _ hs ↦ hu (mem_ids_of_stmt? hs)

theorem stmt?_eq_some (hn : b.ids.Nodup) {s : Stmt} : b.stmt? u = some s ↔ ⟨u, s⟩ ∈ b.units := by
  constructor
  · intro h
    obtain ⟨v, hv, rfl, rfl⟩ := exists_unit_of_stmt? h
    exact hv
  · intro hu
    cases hv : b.units.find? (·.id == u) with
    | none => exact absurd (List.find?_eq_none.1 hv _ hu) (by simp)
    | some v =>
      have he : v.id = u := by simpa using List.find?_some hv
      rw [stmt?, hv, Option.map_some, eq_of_id_eq hn (List.mem_of_find?_eq_some hv) hu he]

theorem stmt?_of_id (hn : b.ids.Nodup) (hp : b.ids[p]? = some u) : b.stmt? u = b.stmtAt? p := by
  obtain ⟨v, hv, rfl⟩ := unit_of_id hp
  rw [(stmt?_eq_some hn).2 (List.mem_of_getElem? hv), stmtAt?_of_unit hv]

theorem successor?_of_getElem? (hn : b.ids.Nodup) (hp : b.ids[p]? = some u) :
    b.successor? u = b.ids[p + 1]? := by
  rw [successor?, (position?_eq_some hn).2 hp, getElem?_ids]
  cases h : b.units[p + 1]? <;> simp [h]

theorem trapSpan?_eq_some (hn : b.ids.Nodup) {t : Trap} :
    b.trapSpan? t = some (p, q) ↔ b.ids[p]? = some t.first ∧ b.ids[q]? = some t.last := by
  rw [← position?_eq_some hn, ← position?_eq_some hn]
  cases hf : b.position? t.first <;> cases hl : b.position? t.last <;> simp [trapSpan?, hf, hl]

theorem covers_iff {t : Trap} : b.covers t p = true ↔
    ∃ first last, b.trapSpan? t = some (first, last) ∧ first ≤ p ∧ p < last := by
  unfold covers
  cases b.trapSpan? t with
  | none => simp
  | some span => simp [Prod.ext_iff]

theorem position?_congr (h : c.ids = b.ids) (u : UnitId) : c.position? u = b.position? u := by
  have hfind (d : Body) : d.position? u = d.ids.findIdx? (· == u) := by
    rw [ids, List.findIdx?_map]
    rfl
  rw [hfind, hfind, h]

theorem covers_congr (h : c.ids = b.ids) (t : Trap) : c.covers t = b.covers t := by
  funext p
  simp only [covers, trapSpan?, position?_congr h]

theorem isRemovable_iff (hn : b.ids.Nodup) (hp : b.ids[p]? = some u) :
    b.isRemovable u = true ↔ p + 1 < b.size ∨ b.isReferenced u = false := by
  have hs : b.ids[p + 1]?.isSome = true ↔ p + 1 < b.size := by simp
  simp only [isRemovable, successor?_of_getElem? hn hp, Bool.or_eq_true, hs, Bool.not_eq_true']

theorem isRemovable_of_lt (hn : b.ids.Nodup) {v : CodeUnit} (hv : b.units[p]? = some v)
    (hlt : p + 1 < b.size) : b.isRemovable v.id = true :=
  (isRemovable_iff hn (id_of_unit hv)).2 (.inl hlt)

theorem isReferenced_eq_false : b.isReferenced u = false ↔
    (∀ v ∈ b.units, u ∉ v.stmt.targets) ∧ ∀ t ∈ b.traps, u ∉ t.refs := by
  simp [isReferenced, isJumpTarget]

variable {α : Type} (rule : Stmt → Option α)

theorem ids_found (b : Body) :
    ((b.units.filterMap fun v ↦ (rule v.stmt).map (v.id, ·)).map (·.1)).Sublist b.ids := by
  rw [ids]
  induction b.units with
  | nil => exact .refl []
  | cons v vs ih =>
    cases h : rule v.stmt with
    | none => simpa [h] using ih.cons v.id
    | some a => simpa [h] using ih

theorem mem_found {a : α} : (u, a) ∈ b.units.filterMap (fun v ↦ (rule v.stmt).map (v.id, ·)) ↔
    ∃ v ∈ b.units, v.id = u ∧ rule v.stmt = some a := by
  simp only [List.mem_filterMap, Option.map_eq_some_iff, Prod.mk.injEq]
  constructor
  · intro h
    obtain ⟨v, hv, z, hz, he, rfl⟩ := h
    exact ⟨v, hv, he, hz⟩
  · intro h
    obtain ⟨v, hv, he, ha⟩ := h
    exact ⟨v, hv, a, ha, he, rfl⟩

end ThreeAddress.Body
