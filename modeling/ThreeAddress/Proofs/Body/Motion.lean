import ThreeAddress.Proofs.Body.Coverage

namespace ThreeAddress.Body

variable {b c d : Body} {f g : UnitId → UnitId} {keep keep' : UnitId → Prop} {u w : UnitId}
  {x : CodeUnit} {p i : Nat}

/-- The units to keep have the statements, the next units and the surrounding traps that they had,
with every reference to some `u` moved to `f u`. -/
structure Moved (keep : UnitId → Prop) (f : UnitId → UnitId) (b c : Body) : Prop where
  stmt : ∀ u, keep u → c.stmt? u = (b.stmt? u).map (·.mapTargets f)
  successor : ∀ u, keep u → c.successor? u = (b.successor? u).map f
  around : ∀ u, keep u → c.around u = (b.around u).map (·.mapRefs f)

namespace Moved

theorem mono (h : Moved keep f b c) (hk : ∀ u, keep' u → keep u) : Moved keep' f b c :=
  ⟨fun u hu ↦ h.stmt u (hk u hu), fun u hu ↦ h.successor u (hk u hu),
    fun u hu ↦ h.around u (hk u hu)⟩

theorem trans (h : Moved keep f b c) (h' : Moved keep g c d) : Moved keep (g ∘ f) b d where
  stmt u hu := by
    rw [h'.stmt u hu, h.stmt u hu, Option.map_map]
    exact congrArg (Option.map · _) (funext fun s ↦ s.mapTargets_mapTargets f g)
  successor u hu := by rw [h'.successor u hu, h.successor u hu, Option.map_map]
  around u hu := by
    rw [h'.around u hu, h.around u hu, List.map_map]
    rfl

/-- Where no unit comes or goes and no reference moves, it is enough that statements stay. -/
theorem of_ids (hi : c.ids = b.ids) (hn : b.ids.Nodup) (hs : ∀ u, keep u → c.stmt? u = b.stmt? u)
    (ha : ∀ u, c.around u = b.around u) : Moved keep (fun u ↦ u) b c where
  stmt u hu := by simp [hs u hu]
  successor u hu := by rw [successor?_congr hn hi, Option.map_id']
  around u hu := by simp [ha u]

end Moved

theorem first?_eq (b : Body) : b.first? = b.ids[0]? := by
  rw [first?, List.head?_eq_getElem?, getElem?_ids]

theorem successor?_removeAt_eq (hn : b.ids.Nodup) (hp : b.units[p]? = some x)
    (hlt : b.successor? w = some x.id → p + 1 < b.size) (hne : w ≠ x.id) :
    (b.removeAt p).successor? w = (b.successor? w).map (b.heir p) := by
  cases hs : b.successor? w with
  | some z => exact successor?_removeAt hn hp hne hs fun he ↦ hlt (he ▸ hs)
  | none =>
    refine Option.eq_none_iff_forall_ne_some.2 fun z hz ↦ ?_
    obtain ⟨q, hq, hnext⟩ := (successor?_eq_some (nodup_removeAt hn p)).1 hz
    have hw := ((mem_ids_removeAt hn (id_of_unit hp)).1 (List.mem_of_getElem? hq)).1
    obtain ⟨k, hk, hkp⟩ := exists_position_of_ne (id_of_unit hp) hw hne
    have hk' := getElem?_heir hn (id_of_unit hp) hk fun he ↦ absurd he hne
    rw [heir_of_ne (id_of_unit hp) hne] at hk'
    obtain rfl := index_unique (nodup_removeAt hn p) hq hk'
    -- the unit in last place stays in last place
    rw [successor?_of_getElem? hn hk, List.getElem?_eq_none_iff, length_ids] at hs
    have hlast := lt_size_of_getElem? hnext
    rw [← slide_succ hkp] at hlast
    have hsize := size_removeAt (lt_size_of_getElem? (id_of_unit hp))
    unfold slide at hlast
    split at hlast <;> omega

theorem stmt?_removeAt (hn : b.ids.Nodup) (hp : b.units[p]? = some x) (hne : w ≠ x.id) :
    (b.removeAt p).stmt? w = (b.stmt? w).map (·.mapTargets (b.heir p)) := by
  refine Option.ext fun s ↦ ?_
  rw [stmt?_eq_some (nodup_removeAt hn p), mem_removeAt, Option.map_eq_some_iff]
  constructor
  · rintro ⟨q, v, -, hv, he⟩
    obtain rfl : w = v.id := congrArg CodeUnit.id he
    exact ⟨v.stmt, (stmt?_eq_some hn).2 (List.mem_of_getElem? hv), (congrArg CodeUnit.stmt he).symm⟩
  · rintro ⟨s', hs', rfl⟩
    obtain ⟨q, hq⟩ := List.getElem?_of_mem ((stmt?_eq_some hn).1 hs')
    refine ⟨q, _, ?_, hq, rfl⟩
    rintro rfl
    exact hne (congrArg CodeUnit.id (Option.some.inj (hq.symm.trans hp)))

theorem moved_removeAt (hb : b.Coherent) (hp : b.units[p]? = some x) (hlt : p + 1 < b.size) :
    Moved (· ≠ x.id) (b.heir p) b (b.removeAt p) :=
  ⟨fun _ ↦ stmt?_removeAt hb.nodup hp, fun _ ↦ successor?_removeAt_eq hb.nodup hp fun _ ↦ hlt,
    fun _ ↦ around_removeAt hb (id_of_unit hp) (isRemovable_of_lt hb.nodup hp hlt)⟩

theorem first?_removeAt (hn : b.ids.Nodup) (hp : b.units[p]? = some x) (hlt : p + 1 < b.size) :
    (b.removeAt p).first? = b.first?.map (b.heir p) := by
  obtain ⟨y, hy⟩ := exists_id_of_lt (Nat.lt_of_le_of_lt (Nat.zero_le _) hlt)
  rw [first?_eq, first?_eq, hy]
  exact getElem?_heir hn (id_of_unit hp) hy fun _ ↦ hlt

namespace Replaced

variable {stmts : List Stmt}

theorem stmt?_old (h : b.Replaced u p stmts c) (hn : b.ids.Nodup) (hc : c.ids.Nodup)
    (hw : w ∈ b.ids) (hne : w ≠ u) :
    c.stmt? w = (b.stmt? w).map (·.mapTargets (rename u (b.fresh 0))) := by
  obtain ⟨v, hv, rfl⟩ := mem_ids.1 hw
  rw [(stmt?_eq_some hn).2 hv, Option.map_some, stmt?_eq_some hc]
  exact h.mem_old hv hne

theorem successor?_old (h : b.Replaced u p stmts c) (hn : b.ids.Nodup) (hc : c.ids.Nodup)
    (hw : w ∈ b.ids) (hne : w ≠ u) :
    c.successor? w = (b.successor? w).map (rename u (b.fresh 0)) := by
  obtain ⟨k, hk⟩ := List.getElem?_of_mem hw
  have hkp : k ≠ p := by
    rintro rfl
    exact hne (Option.some.inj (hk.symm.trans h.place))
  have hk' := h.getElem?_grow hn hk
  rw [rename, if_neg hne] at hk'
  rw [successor?_of_getElem? hn hk, successor?_of_getElem? hc hk',
    ← grow_succ h.nonempty hkp]
  cases hnext : b.ids[k + 1]? with
  | some z => exact h.getElem?_grow hn hnext
  | none =>
    have hsize := h.size_eq
    have hpos := h.nonempty
    have hp := lt_size_of_getElem? h.place
    rw [List.getElem?_eq_none_iff, length_ids] at hnext
    rw [Option.map_none, List.getElem?_eq_none_iff, length_ids, grow]
    split <;> omega

theorem moved (h : b.Replaced u p stmts c) (hb : b.Coherent) (hc : c.ids.Nodup) :
    Moved (fun w ↦ w ∈ b.ids ∧ w ≠ u) (rename u (b.fresh 0)) b c :=
  ⟨fun _ hw ↦ h.stmt?_old hb.nodup hc hw.1 hw.2,
    fun _ hw ↦ h.successor?_old hb.nodup hc hw.1 hw.2,
    fun _ hw ↦ h.around_old hb hc hw.1 hw.2⟩

theorem first? (h : b.Replaced u p stmts c) (hn : b.ids.Nodup) :
    c.first? = b.first?.map (rename u (b.fresh 0)) := by
  have hpos : 0 < b.size := Nat.lt_of_le_of_lt (Nat.zero_le p) (lt_size_of_getElem? h.place)
  obtain ⟨y, hy⟩ := exists_id_of_lt hpos
  rw [first?_eq, first?_eq, hy]
  exact h.getElem?_grow hn hy

/-- The new units hold the statements, with their references to the replaced unit moved. -/
theorem stmt?_fresh (h : b.Replaced u p stmts c) (hc : c.ids.Nodup) {s : Stmt}
    (hs : stmts[i]? = some s) :
    c.stmt? (b.fresh i) = some (s.mapTargets (rename u (b.fresh 0))) := by
  have hnumber : (number b.nextUnit stmts)[i]? = some ⟨b.fresh i, s⟩ := by
    rw [getElem?_number, hs, Option.map_some]
    rfl
  rw [stmt?_eq_some hc, h.units]
  refine List.mem_map.2 ⟨⟨b.fresh i, s⟩, ?_, rfl⟩
  exact List.mem_append_left _ (List.mem_append_right _ (List.mem_of_getElem? hnumber))

theorem successor?_fresh (h : b.Replaced u p stmts c) (hc : c.ids.Nodup)
    (hi : i + 1 < stmts.length) : c.successor? (b.fresh i) = some (b.fresh (i + 1)) := by
  rw [successor?_of_getElem? hc (h.getElem?_fresh (Nat.lt_of_succ_lt hi))]
  exact h.getElem?_fresh hi

/-- Behind the last of the new units stands what stood behind the unit that they replace. -/
theorem successor?_last (h : b.Replaced u p stmts c) (hn : b.ids.Nodup) (hc : c.ids.Nodup)
    (hu : b.successor? u = some w) (hi : i + 1 = stmts.length) :
    c.successor? (b.fresh i) = some (rename u (b.fresh 0) w) := by
  rw [successor?_of_getElem? hn h.place] at hu
  have hnext := h.getElem?_grow hn hu
  rw [grow, if_neg (Nat.not_succ_le_self p)] at hnext
  rw [successor?_of_getElem? hc (h.getElem?_fresh (by omega)), ← hnext]
  congr 1
  omega

theorem mem_ids (h : b.Replaced u p stmts c) (hn : b.ids.Nodup) :
    w ∈ c.ids ↔ (w ∈ b.ids ∧ w ≠ u) ∨ ∃ i < stmts.length, w = b.fresh i := by
  have hold : w ∈ b.ids.take p ∨ w ∈ b.ids.drop (p + 1) ↔ w ∈ b.ids ∧ w ≠ u := by
    rw [← List.mem_append, ← List.eraseIdx_eq_take_drop_succ, ← ids_removeAt,
      mem_ids_removeAt hn h.place]
  have hnew : w ∈ (List.range stmts.length).map b.fresh ↔
      ∃ i < stmts.length, w = b.fresh i := by
    simp [eq_comm]
  rw [h.ids, List.mem_append, List.mem_append, ← hold, hnew, or_right_comm]

end Replaced

end ThreeAddress.Body
