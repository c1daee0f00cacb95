import ThreeAddress.Proofs.Body.Edits

namespace ThreeAddress.Body

variable {b c : Body} {u : UnitId} {p q n : Nat} {stmts : List Stmt} {is : List UnitId}

theorem mem_number {w : CodeUnit} (h : w ∈ number n stmts) : w.stmt ∈ stmts := by
  induction stmts generalizing n with
  | nil => simp [number] at h
  | cons s stmts ih =>
    obtain rfl | h := List.mem_cons.1 h
    · exact List.mem_cons_self
    · exact List.mem_cons_of_mem s (ih h)

theorem getElem?_number (n : Nat) (stmts : List Stmt) (i : Nat) :
    (number n stmts)[i]? = stmts[i]?.map (⟨⟨wrapId (n + i)⟩, ·⟩) := by
  induction stmts generalizing n i with
  | nil => rfl
  | cons s stmts ih =>
    cases i with
    | zero => rfl
    | succ i =>
      rw [number, List.getElem?_cons_succ, ih, List.getElem?_cons_succ, Nat.add_assoc,
        Nat.add_comm 1]

theorem ids_number (b : Body) (stmts : List Stmt) :
    (number b.nextUnit stmts).map (·.id) = (List.range stmts.length).map b.fresh := by
  refine List.ext_getElem? fun i ↦ ?_
  rw [List.getElem?_map, getElem?_number, List.getElem?_map, Option.map_map]
  by_cases hi : i < stmts.length
  · rw [List.getElem?_eq_getElem hi, List.getElem?_range hi]
    rfl
  · rw [List.getElem?_eq_none (Nat.le_of_not_lt hi), List.getElem?_eq_none (by simpa using hi)]
    rfl

/-- What a replacement leaves: the old unit's place holds the statements, and what named the old
unit names the first of them. -/
structure Replaced (b : Body) (u : UnitId) (p : Nat) (stmts : List Stmt) (c : Body) : Prop where
  place : b.ids[p]? = some u
  locals : c.locals = b.locals
  units : c.units = (b.units.take p ++ number b.nextUnit stmts ++ b.units.drop (p + 1)).map
    (·.mapStmt (·.mapTargets (rename u (b.fresh 0))))
  traps : c.traps = b.traps.map (·.mapRefs (rename u (b.fresh 0)))
  nextUnit : c.nextUnit = wrapId (b.nextUnit + stmts.length)
  nonempty : 0 < stmts.length

theorem replace_ok (h : b.replace u stmts = .ok (is, c)) :
    is = (List.range stmts.length).map b.fresh ∧ ∃ p, b.Replaced u p stmts c := by
  cases stmts with
  | nil => simp [replace] at h
  | cons s stmts =>
    cases hp : b.position? u with
    | none => simp [replace, hp] at h
    | some p =>
      simp only [replace, hp, Except.ok.injEq, Prod.mk.injEq] at h
      obtain ⟨rfl, rfl⟩ := h
      exact ⟨ids_number b _, p, getElem?_of_position? hp, rfl, rfl, rfl, rfl, by simp⟩

namespace Replaced

theorem ids (h : b.Replaced u p stmts c) : c.ids = b.ids.take p ++
    (List.range stmts.length).map b.fresh ++ b.ids.drop (p + 1) := by
  have hc : c.ids =
      (b.units.take p ++ number b.nextUnit stmts ++ b.units.drop (p + 1)).map (·.id) := by
    simp only [Body.ids, h.units, List.map_map]
    rfl
  rw [hc, List.map_append, List.map_append, ids_number, List.map_take, List.map_drop]
  rfl

theorem size_eq (h : b.Replaced u p stmts c) : c.size + 1 = b.size + stmts.length := by
  have hp := lt_size_of_getElem? h.place
  have hl := congrArg List.length h.ids
  simp only [length_ids, List.length_append, List.length_take, List.length_map, List.length_range,
    List.length_drop] at hl
  omega

/-- While there is room, the new identities differ and are none of the old ones. -/
theorem nodup (h : b.Replaced u p stmts c) (hn : b.ids.Nodup) (hb : b.Bounded)
    (hroom : b.HasRoom stmts.length) : c.ids.Nodup := by
  have hfresh : ((List.range stmts.length).map b.fresh).Nodup := by
    refine List.nodup_range.map_on fun i hi j hj hij ↦ ?_
    have hi := Nat.le_of_lt (List.mem_range.1 hi)
    have hj := Nat.le_of_lt (List.mem_range.1 hj)
    rw [fresh_eq (hroom.mono hi), fresh_eq (hroom.mono hj), UnitId.mk.injEq] at hij
    exact Nat.add_left_cancel hij
  have hapart {t : UnitId} (ht : t ∈ b.ids) : t ∉ (List.range stmts.length).map b.fresh := by
    intro hm
    obtain ⟨i, hi, rfl⟩ := List.mem_map.1 hm
    exact hb.fresh_not_mem (hroom.mono (Nat.le_of_lt (List.mem_range.1 hi))) ht
  have hsplit : (b.ids.take p ++ b.ids.drop (p + 1)).Nodup := by
    rw [← List.eraseIdx_eq_take_drop_succ]
    exact hn.eraseIdx p
  rw [List.nodup_append] at hsplit
  rw [h.ids, List.append_assoc, List.nodup_append, List.nodup_append]
  refine ⟨hsplit.1, ⟨hfresh, hsplit.2.1, ?_⟩, ?_⟩
  · rintro _ hi t ht rfl
    exact hapart (List.mem_of_mem_drop ht) hi
  · intro t ht t' ht'
    obtain hi | hd := List.mem_append.1 ht'
    · rintro rfl
      exact hapart (List.mem_of_mem_take ht) hi
    · exact hsplit.2.2 t ht t' hd

theorem nextUnit_eq (h : b.Replaced u p stmts c) (hroom : b.HasRoom stmts.length) :
    c.nextUnit = b.nextUnit + stmts.length :=
  h.nextUnit.trans (wrapId_of_lt hroom)

theorem bounded (h : b.Replaced u p stmts c) (hb : b.Bounded)
    (hroom : b.HasRoom stmts.length) : c.Bounded := by
  intro t ht
  rw [h.nextUnit_eq hroom]
  rw [h.ids, List.mem_append, List.mem_append] at ht
  obtain (ht | ht) | ht := ht
  · exact Nat.lt_add_right _ (hb t (List.mem_of_mem_take ht))
  · obtain ⟨i, hi, rfl⟩ := List.mem_map.1 ht
    have hi := List.mem_range.1 hi
    rw [fresh_eq (hroom.mono (Nat.le_of_lt hi))]
    exact Nat.add_lt_add_left hi _
  · exact Nat.lt_add_right _ (hb t (List.mem_of_mem_drop ht))

/-- The position, after the replacement, of what was at `q`; the first statement is at `p`. -/
def grow (p k q : Nat) : Nat := if q ≤ p then q else q + k - 1

theorem grow_strict {k a z : Nat} (hk : 0 < k) (h : a < z) : grow p k a < grow p k z := by
  unfold grow
  split <;> split <;> omega

theorem grow_succ {k : Nat} (hk : 0 < k) (h : q ≠ p) : grow p k (q + 1) = grow p k q + 1 := by
  unfold grow
  split <;> split <;> omega

theorem getElem?_fresh (h : b.Replaced u p stmts c) {i : Nat} (hi : i < stmts.length) :
    c.ids[p + i]? = some (b.fresh i) := by
  have hp := lt_size_of_getElem? h.place
  have hl : (b.ids.take p).length = p := by
    rw [List.length_take, length_ids]
    omega
  rw [h.ids, List.append_assoc, List.getElem?_append_right (by omega), hl, Nat.add_sub_cancel_left,
    List.getElem?_append_left (by simpa using hi), List.getElem?_map, List.getElem?_range hi,
    Option.map_some]

theorem getElem?_grow (h : b.Replaced u p stmts c) (hn : b.ids.Nodup) {z : UnitId}
    (hz : b.ids[q]? = some z) :
    c.ids[grow p stmts.length q]? = some (rename u (b.fresh 0) z) := by
  have hp := lt_size_of_getElem? h.place
  have hl : (b.ids.take p).length = p := by
    rw [List.length_take, length_ids]
    omega
  have hk := h.nonempty
  rw [h.ids, List.append_assoc, grow]
  by_cases hlt : q < p
  · have hne : z ≠ u := by
      rintro rfl
      exact absurd (index_unique hn hz h.place) (by omega)
    rw [if_pos (by omega), List.getElem?_append_left (by omega), List.getElem?_take_of_lt hlt, hz,
      rename, if_neg hne]
  by_cases heq : q = p
  · subst heq
    obtain rfl : z = u := Option.some.inj (hz.symm.trans h.place)
    rw [if_pos (by omega), List.getElem?_append_right (by omega), hl, Nat.sub_self,
      List.getElem?_append_left (by simpa using hk), rename, if_pos rfl]
    simp [hk]
  · have hne : z ≠ u := by
      rintro rfl
      exact heq (index_unique hn hz h.place)
    rw [if_neg (by omega), List.getElem?_append_right (by omega), hl,
      List.getElem?_append_right (by simp; omega), List.length_map, List.length_range,
      List.getElem?_drop, show p + 1 + (q + stmts.length - 1 - p - stmts.length) = q by omega, hz,
      rename, if_neg hne]

theorem fresh_inj (h : b.Replaced u p stmts c) (hc : c.ids.Nodup) {i j : Nat}
    (hi : i < stmts.length) (hj : j < stmts.length) (he : b.fresh i = b.fresh j) : i = j :=
  Nat.add_left_cancel (index_unique hc (he ▸ h.getElem?_fresh hi) (h.getElem?_fresh hj))

/-- Where no identity comes twice in the end, the new ones are none of those that stay. -/
theorem ne_fresh (h : b.Replaced u p stmts c) (hn : b.ids.Nodup) (hc : c.ids.Nodup) {z : UnitId}
    (hz : z ∈ b.ids) (hne : z ≠ u) {i : Nat} (hi : i < stmts.length) : z ≠ b.fresh i := by
  obtain ⟨q, hq⟩ := List.getElem?_of_mem hz
  have hqp : q ≠ p := by
    rintro rfl
    exact hne (Option.some.inj (hq.symm.trans h.place))
  have hold := h.getElem?_grow hn hq
  rw [rename, if_neg hne] at hold
  rintro rfl
  have hplace := index_unique hc hold (h.getElem?_fresh hi)
  unfold grow at hplace
  split at hplace <;> omega

theorem mem_units (h : b.Replaced u p stmts c) (hn : b.ids.Nodup) {w : CodeUnit}
    (hw : w ∈ c.units) :
    (∃ v ∈ b.units, v.id ≠ u ∧ w = v.mapStmt (·.mapTargets (rename u (b.fresh 0)))) ∨
      ∃ s ∈ stmts, w.stmt = s.mapTargets (rename u (b.fresh 0)) := by
  rw [h.units] at hw
  obtain ⟨v, hv, rfl⟩ := List.mem_map.1 hw
  rw [List.mem_append, List.mem_append] at hv
  have hold {v : CodeUnit} (hv : v ∈ b.units.eraseIdx p) : v ∈ b.units ∧ v.id ≠ u := by
    obtain ⟨q, hq, hv⟩ := List.mem_eraseIdx_iff_getElem?.1 hv
    refine ⟨List.mem_of_getElem? hv, ?_⟩
    rintro rfl
    exact hq (index_unique hn (id_of_unit hv) h.place)
  rw [List.eraseIdx_eq_take_drop_succ] at hold
  obtain (hv | hv) | hv := hv
  · obtain ⟨hv, hne⟩ := hold (List.mem_append_left _ hv)
    exact .inl ⟨v, hv, hne, rfl⟩
  · exact .inr ⟨v.stmt, mem_number hv, rfl⟩
  · obtain ⟨hv, hne⟩ := hold (List.mem_append_right _ hv)
    exact .inl ⟨v, hv, hne, rfl⟩

theorem mem_old (h : b.Replaced u p stmts c) {v : CodeUnit} (hv : v ∈ b.units) (hne : v.id ≠ u) :
    v.mapStmt (·.mapTargets (rename u (b.fresh 0))) ∈ c.units := by
  obtain ⟨q, hq⟩ := List.getElem?_of_mem hv
  have hqp : q ≠ p := by
    rintro rfl
    have hvq : b.ids[q]? = some v.id := id_of_unit hq
    exact hne (Option.some.inj (hvq.symm.trans h.place))
  have hold : v ∈ b.units.take p ++ b.units.drop (p + 1) := by
    rw [← List.eraseIdx_eq_take_drop_succ]
    exact List.mem_eraseIdx_iff_getElem?.2 ⟨q, hqp, hq⟩
  rw [h.units]
  refine List.mem_map_of_mem ?_
  rw [List.mem_append] at hold
  rw [List.mem_append, List.mem_append]
  exact hold.imp_left .inl

theorem getLast? (h : b.Replaced u p stmts c) (hlt : p + 1 < b.size) : c.units.getLast? =
    b.units.getLast?.map (·.mapStmt (·.mapTargets (rename u (b.fresh 0)))) := by
  have hle : ¬ b.units.length ≤ p + 1 := Nat.not_le.2 hlt
  have hne : b.units.drop (p + 1) ≠ [] := by simpa using hle
  rw [h.units, List.getLast?_map, List.getLast?_append_of_ne_nil _ hne, List.getLast?_drop,
    if_neg hle]

theorem rename_mem (h : b.Replaced u p stmts c) (hn : b.ids.Nodup) {z : UnitId} (hz : z ∈ b.ids) :
    rename u (b.fresh 0) z ∈ c.ids := by
  obtain ⟨q, hq⟩ := List.getElem?_of_mem hz
  exact List.mem_of_getElem? (h.getElem?_grow hn hq)

/-- A valid body stays valid under statements that jump to what units there are in the end, and
mention its locals. -/
theorem valid_of_targets (h : b.Replaced u p stmts c) (hv : b.Valid) (hc : c.ids.Nodup)
    (ht : ∀ s ∈ stmts, ∀ t ∈ s.targets, rename u (b.fresh 0) t ∈ c.ids)
    (hl : ∀ s ∈ stmts, ∀ x ∈ s.locals, x ∈ b.locals.map (·.id)) : c.Valid := by
  have spans : ∀ t ∈ c.traps,
      ∃ i j : Nat, c.ids[i]? = some t.first ∧ c.ids[j]? = some t.last ∧ i < j := by
    rw [h.traps]
    intro t' ht'
    obtain ⟨t, hm, rfl⟩ := List.mem_map.1 ht'
    obtain ⟨i, j, hi, hj, hlt⟩ := hv.spans hm
    exact ⟨_, _, h.getElem?_grow hv.nodup hi, h.getElem?_grow hv.nodup hj,
      grow_strict h.nonempty hlt⟩
  refine Coherent.valid ⟨hc, ?_, ?_, ?_, ?_⟩ ?_ spans
  · intro w hw t hm
    obtain ⟨v, hvm, -, rfl⟩ | ⟨s, hs, he⟩ := h.mem_units hv.nodup hw
    · obtain ⟨z, hz, rfl⟩ : ∃ z ∈ v.stmt.targets, rename u (b.fresh 0) z = t := by simpa using hm
      exact h.rename_mem hv.nodup (hv.targets v hvm z hz)
    · obtain ⟨z, hz, rfl⟩ : ∃ z ∈ s.targets, rename u (b.fresh 0) z = t := by simpa [he] using hm
      exact ht s hs z hz
  · intro w hw x hx
    rw [h.locals]
    obtain ⟨v, hvm, -, rfl⟩ | ⟨s, hs, he⟩ := h.mem_units hv.nodup hw
    · exact hv.declared v hvm x (by simpa using hx)
    · exact hl s hs x (by simpa [he] using hx)
  · rw [h.traps]
    intro t' ht'
    obtain ⟨t, hm, rfl⟩ := List.mem_map.1 ht'
    exact h.rename_mem hv.nodup (hv.traps t hm).1
  · intro t hm
    obtain ⟨i, j, hi, hj, hlt⟩ := spans t hm
    exact ⟨i, j, hi, hj, Nat.le_of_lt hlt⟩
  · have := h.size_eq
    have := h.nonempty
    have := lt_size_of_getElem? h.place
    intro hnil
    have hz : c.size = 0 := by simp [size, hnil]
    omega

/-- A valid body stays valid under statements that jump to its units and mention its locals. -/
theorem valid (h : b.Replaced u p stmts c) (hv : b.Valid) (hc : c.ids.Nodup)
    (ht : ∀ s ∈ stmts, ∀ t ∈ s.targets, t ∈ b.ids)
    (hl : ∀ s ∈ stmts, ∀ x ∈ s.locals, x ∈ b.locals.map (·.id)) : c.Valid :=
  h.valid_of_targets hv hc (fun s hs t hm ↦ h.rename_mem hv.nodup (ht s hs t hm)) hl

end Replaced

end ThreeAddress.Body
