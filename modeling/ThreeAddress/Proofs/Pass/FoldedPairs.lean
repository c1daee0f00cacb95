import ThreeAddress.Proofs.Body.Motion
import ThreeAddress.Proofs.Flow.Paths
import ThreeAddress.Proofs.Pass.TemporaryFolding

namespace ThreeAddress

namespace Body

variable {b : Body} {u v : UnitId} {x : CodeUnit} {p : Nat}

theorem stmt?_modifyAt_of_ne (hn : b.ids.Nodup) (hp : b.units[p]? = some x) (f : Stmt → Stmt)
    (hv : v ≠ x.id) : (b.modifyAt p f).stmt? v = b.stmt? v := by
  refine Option.ext fun s ↦ ?_
  rw [stmt?_eq_some (by rwa [ids_modifyAt]), stmt?_eq_some hn]
  simp only [List.mem_iff_getElem?, modifyAt, List.getElem?_modify]
  refine exists_congr fun q ↦ ?_
  by_cases hpq : p = q
  · subst hpq
    have hother (y : CodeUnit) (hy : y.id = x.id) : some y ≠ some ⟨v, s⟩ := by
      intro he
      exact hv ((congrArg CodeUnit.id (Option.some.inj he)).symm.trans hy)
    simpa [hp] using iff_of_false (hother (x.mapStmt f) rfl) (hother x rfl)
  · simp [hpq]

theorem id_ne_of_adjacent {y : CodeUnit} (hn : b.ids.Nodup) (hx : b.units[p]? = some x)
    (hy : b.units[p + 1]? = some y) : x.id ≠ y.id := by
  intro he
  have hp := index_unique hn (id_of_unit hx) (he ▸ id_of_unit hy)
  exact Nat.succ_ne_self p hp.symm

/-- Two units become one: `u`, which gave a temporary its value, now writes the place that `w`, the
only unit to read the temporary, copied it to. All else stays. -/
structure Fused (b c : Body) (u w : UnitId) (x : LocalId) (e : Expr) (place : Place) : Prop where
  first : b.stmt? u = some (.assign (.var x) e)
  second : b.stmt? w = some (.assign place (.value (.var x)))
  fused : c.stmt? u = some (.assign place e)
  next : b.successor? u = some w
  after : c.successor? u = b.successor? w
  around_first : c.around u = b.around u
  around_second : b.around w = b.around u
  moved : Moved (fun v ↦ v ≠ u ∧ v ≠ w) (fun v ↦ v) b c
  mem_ids : ∀ v, v ∈ c.ids ↔ v ∈ b.ids ∧ v ≠ w
  entry : c.first? = b.first?
  entry_ne : b.first? ≠ some w
  not_target : ∀ v s, b.stmt? v = some s → w ∉ s.targets
  not_handler : ∀ t ∈ b.traps, t.handler ≠ w
  only_next : ∀ v, b.successor? v = some w → v = u
  temporary : ∀ v s, b.stmt? v = some s → v ≠ u → v ≠ w → x ∉ s.locals
  absent : x ∉ (Stmt.assign place e).locals

namespace Fused

variable {c : Body} {u w : UnitId} {y : LocalId} {e : Expr} {place : Place} {v : CodeUnit}

theorem unit_cases (h : b.Fused c u w y e place) (hn : c.ids.Nodup) (hv : v ∈ c.units) :
    v.stmt = .assign place e ∨ (v.id ≠ u ∧ v.id ≠ w ∧ b.stmt? v.id = some v.stmt) := by
  have hstmt : c.stmt? v.id = some v.stmt := (stmt?_eq_some hn).2 hv
  by_cases hu : v.id = u
  · rw [hu, h.fused] at hstmt
    exact .inl (Option.some.inj hstmt).symm
  · have hw : v.id ≠ w := ((h.mem_ids v.id).1 (id_mem_ids hv)).2
    rw [h.moved.stmt v.id ⟨hu, hw⟩] at hstmt
    simp only [Stmt.mapTargets_id, Option.map_id'] at hstmt
    exact .inr ⟨hu, hw, hstmt⟩

theorem not_mentioned (h : b.Fused c u w y e place) (hn : c.ids.Nodup) : y ∉ c.mentioned := by
  intro hy
  obtain ⟨v, hv, hy⟩ := mem_mentioned.1 hy
  obtain hs | ⟨hu, hw, hs⟩ := h.unit_cases hn hv
  · exact h.absent (hs ▸ hy)
  · exact h.temporary v.id v.stmt hs hu hw hy

theorem mentioned_subset (h : b.Fused c u w y e place) (hn : c.ids.Nodup) :
    c.mentioned ⊆ b.mentioned := by
  have hmention {a : UnitId} {s : Stmt} {z : LocalId} (hs : b.stmt? a = some s)
      (hz : z ∈ s.locals) : z ∈ b.mentioned := by
    obtain ⟨v, hv, -, rfl⟩ := exists_unit_of_stmt? hs
    exact mem_mentioned.2 ⟨v, hv, hz⟩
  intro z hz
  obtain ⟨v, hv, hz⟩ := mem_mentioned.1 hz
  obtain hs | ⟨-, -, hs⟩ := h.unit_cases hn hv
  · rw [hs, Stmt.locals_assign, List.mem_append, List.mem_append] at hz
    obtain (hz | hz) | hz := hz
    · refine hmention h.second ?_
      rw [Stmt.locals_assign]
      exact List.mem_append_left _ (List.mem_append_left _ hz)
    · refine hmention h.first ?_
      rw [Stmt.locals_assign]
      exact List.mem_append_left _ (List.mem_append_right _ hz)
    · refine hmention h.second ?_
      rw [Stmt.locals_assign]
      exact List.mem_append_right _ hz
  · exact hmention hs hz

end Fused

end Body

namespace TemporaryFolding

variable {b : Body} {p q : Nat} {x : LocalId} {e : Expr} {place : Place} {u w : CodeUnit}

/-- A pair that can become one unit. The pass asks for a mere value, too, where the place is no
local; what runs show does not depend on it. -/
structure Foldable (b : Body) (p : Nat) (x : LocalId) (e : Expr) (place : Place) : Prop
    extends Pair b p x e place where
  defined : ∀ q, b.Defines q x → q = p
  read : ∀ q, b.Reads q x → q = p + 1
  apart : x ∉ place.values.filterMap Value.var?
  covered : ∀ t ∈ b.traps, b.covers t p = b.covers t (p + 1)

theorem foldable_of_isFoldable (h : isFoldable b b.reaching p = true) :
    ∃ x e place, Foldable b p x e place := by
  obtain ⟨x, e, place, hpair⟩ := pair_of_isFoldable h
  obtain ⟨u, w, hu, hus, hw, hws⟩ := hpair.units
  simp only [isFoldable, hpair.first, hw, storeOf?_eq_some.2 hws, Bool.and_eq_true, beq_iff_eq,
    Bool.not_eq_true', List.all_eq_true] at h
  obtain ⟨⟨⟨⟨⟨⟨hdefined, hread⟩, -⟩, -⟩, hapart⟩, -⟩, hcovered⟩ := h
  refine ⟨x, e, place, hpair, fun q hq ↦ ?_, fun q hq ↦ ?_, fun hx ↦ ?_, hcovered⟩
  · simpa [hdefined] using Body.mem_definitionsOf.2 hq
  · simpa [hread] using Body.mem_readersOf.2 hq
  · obtain ⟨v, hv, hvx⟩ := List.mem_filterMap.1 hx
    rw [Value.var?_eq_some.1 hvx, ← List.contains_iff_mem, hapart] at hv
    exact Bool.false_ne_true hv

theorem foldable_of_find? (h : find? b = some p) : ∃ x e place, Foldable b p x e place :=
  foldable_of_isFoldable (List.find?_some h)

namespace Foldable

theorem temporary (h : Foldable b p x e place) {s : Stmt} (hs : b.stmtAt? q = some s)
    (hqp : q ≠ p) (hqn : q ≠ p + 1) : x ∉ s.locals := by
  intro hx
  obtain hx | hx := List.mem_append.1 hx
  · exact hqn (h.read q ⟨s, hs, hx⟩)
  · refine hqp (h.defined q ?_)
    rw [Body.Defines, hs, Option.bind_some]
    exact Option.mem_toList.1 hx

theorem absent (h : Foldable b p x e place) : x ∉ (Stmt.assign place e).locals := by
  rw [Stmt.locals_assign]
  intro hx
  obtain hx | hx := List.mem_append.1 hx
  · obtain hx | hx := List.mem_append.1 hx
    · exact h.apart hx
    · have hread : b.Reads p x :=
        ⟨_, h.first, by simpa [Stmt.uses, Stmt.values, Place.values, Expr.uses] using hx⟩
      exact absurd (h.read p hread) (Nat.ne_of_lt (Nat.lt_succ_self p))
  · have hdefined : b.Defines (p + 1) x := by
      rw [Body.Defines, h.second, Option.bind_some]
      exact Option.mem_toList.1 hx
    exact absurd (h.defined (p + 1) hdefined) (Nat.succ_ne_self p)

theorem not_referenced (h : Foldable b p x e place) (hw : b.units[p + 1]? = some w) :
    (∀ v ∈ b.units, w.id ∉ v.stmt.targets) ∧ ∀ t ∈ b.traps, w.id ∉ t.refs :=
  Body.isReferenced_eq_false.1 (h.hidden w.id (Body.id_of_unit hw))

/-- The second unit is reached from the first one, in sequence, and in no other way. -/
theorem only_next (h : Foldable b p x e place) (hn : b.ids.Nodup) (hu : b.units[p]? = some u)
    (hw : b.units[p + 1]? = some w) {v : UnitId} (hv : b.successor? v = some w.id) : v = u.id := by
  obtain ⟨q, hq, hnext⟩ := (Body.successor?_eq_some hn).1 hv
  obtain rfl := Nat.succ.inj (Body.index_unique hn hnext (Body.id_of_unit hw))
  exact Option.some.inj (hq.symm.trans (Body.id_of_unit hu))

/-- What the removal moves, moves nothing that there is: no reference names the unit that goes. -/
theorem around_merge (h : Foldable b p x e place) (hb : b.Coherent)
    (hw : b.units[p + 1]? = some w) {v : UnitId} (hv : v ≠ w.id) :
    (merge b p).around v = b.around v := by
  have hid : b.ids[p + 1]? = some w.id := Body.id_of_unit hw
  have hremovable := (Body.isRemovable_iff hb.nodup hid).2 (.inr (h.hidden w.id hid))
  rw [h.merge_eq, Body.around_congr (Body.ids_modifyAt _ _ _) rfl,
    Body.around_removeAt hb hid hremovable hv]
  refine (List.map_congr_left fun t ht ↦ ?_).trans (List.map_id _)
  have htrap := (h.not_referenced hw).2 t (List.mem_of_mem_filter ht)
  have hstay (z : UnitId) (hz : z ∈ t.refs) : b.heir (p + 1) z = z :=
    Body.heir_of_ne hid fun he ↦ htrap (he ▸ hz)
  rw [Trap.mapRefs, hstay _ (by simp [Trap.refs]), hstay _ (by simp [Trap.refs]),
    hstay _ (by simp [Trap.refs]), id_eq]

theorem moved (h : Foldable b p x e place) (hb : b.Coherent) (hu : b.units[p]? = some u)
    (hw : b.units[p + 1]? = some w) :
    Body.Moved (fun v ↦ v ≠ u.id ∧ v ≠ w.id) (fun v ↦ v) b (merge b p) where
  stmt v hv := by
    have hid : b.ids[p + 1]? = some w.id := Body.id_of_unit hw
    have hfirst := Body.getElem?_removeAt_of_lt (b := b) (Nat.lt_succ_self p)
    rw [hu] at hfirst
    rw [h.merge_eq, Body.stmt?_modifyAt_of_ne (Body.nodup_removeAt hb.nodup _) hfirst _ hv.1,
      Body.stmt?_removeAt hb.nodup hw hv.2]
    refine Option.map_congr fun s hs ↦ Stmt.mapTargets_congr fun t ht ↦ Body.heir_of_ne hid ?_
    rintro rfl
    exact (h.not_referenced hw).1 _ ((Body.stmt?_eq_some hb.nodup).1 hs) ht
  successor v hv := by
    rw [h.merge_eq, Body.successor?_congr (Body.nodup_removeAt hb.nodup _)
      (Body.ids_modifyAt _ _ _), Body.successor?_removeAt_eq hb.nodup hw (fun hnext ↦
        absurd (h.only_next hb.nodup hu hw hnext) hv.1) hv.2]
    refine Option.map_congr fun z hz ↦ Body.heir_of_ne (Body.id_of_unit hw) ?_
    rintro rfl
    exact hv.1 (h.only_next hb.nodup hu hw hz)
  around v hv := by
    rw [h.around_merge hb hw hv.2]
    exact (List.map_id _).symm

theorem fused {u w : UnitId} (h : Foldable b p x e place) (hb : b.Coherent)
    (hu : b.units[p]? = some ⟨u, .assign (.var x) e⟩)
    (hw : b.units[p + 1]? = some ⟨w, .assign place (.value (.var x))⟩) :
    Body.Fused b (merge b p) u w x e place where
  first := (Body.stmt?_eq_some hb.nodup).2 (List.mem_of_getElem? hu)
  second := (Body.stmt?_eq_some hb.nodup).2 (List.mem_of_getElem? hw)
  fused := (Body.stmt?_eq_some (nodup_merge hb.nodup p)).2 (h.mem_merge hu)
  next := by rw [Body.successor?_of_getElem? hb.nodup (Body.id_of_unit hu), Body.id_of_unit hw]
  after := by
    have hkept : (merge b p).ids[p]? = some u := by
      rw [h.ids_merge, List.getElem?_eraseIdx_of_lt (Nat.lt_succ_self p), Body.id_of_unit hu]
    rw [Body.successor?_of_getElem? (nodup_merge hb.nodup p) hkept,
      Body.successor?_of_getElem? hb.nodup (Body.id_of_unit hw), h.ids_merge,
      List.getElem?_eraseIdx_of_ge (Nat.le_refl _)]
  around_first := h.around_merge hb hw (Body.id_ne_of_adjacent hb.nodup hu hw)
  around_second := by
    refine List.filter_congr fun t ht ↦ ?_
    rw [(Body.position?_eq_some hb.nodup).2 (Body.id_of_unit hu),
      (Body.position?_eq_some hb.nodup).2 (Body.id_of_unit hw), Option.any_some, Option.any_some,
      h.covered t ht]
  moved := h.moved hb hu hw
  mem_ids v := by
    rw [h.ids_merge, ← Body.ids_removeAt, Body.mem_ids_removeAt hb.nodup (Body.id_of_unit hw)]
  entry := by
    rw [Body.first?_eq, Body.first?_eq, h.ids_merge,
      List.getElem?_eraseIdx_of_lt (Nat.succ_pos p)]
  entry_ne := by
    rw [Body.first?_eq]
    intro hfirst
    exact Nat.succ_ne_zero p (Body.index_unique hb.nodup (Body.id_of_unit hw) hfirst)
  not_target v s hs :=
    (h.not_referenced hw).1 _ ((Body.stmt?_eq_some hb.nodup).1 hs)
  not_handler t ht he := (h.not_referenced hw).2 t ht (by simp [Trap.refs, he])
  only_next v := h.only_next hb.nodup hu hw
  temporary v s hs hvu hvw := by
    obtain ⟨q, hq⟩ := List.getElem?_of_mem ((Body.stmt?_eq_some hb.nodup).1 hs)
    refine h.temporary (q := q) (Body.stmtAt?_of_unit hq) ?_ ?_
    · rintro rfl
      exact hvu (congrArg CodeUnit.id (Option.some.inj (hq.symm.trans hu)))
    · rintro rfl
      exact hvw (congrArg CodeUnit.id (Option.some.inj (hq.symm.trans hw)))
  absent := h.absent

theorem exists_fused (h : Foldable b p x e place) (hb : b.Coherent) :
    ∃ u w, Body.Fused b (merge b p) u w x e place := by
  obtain ⟨⟨u, s⟩, ⟨w, t⟩, hu, hs, hw, ht⟩ := h.units
  obtain rfl : s = _ := hs
  obtain rfl : t = _ := ht
  exact ⟨u, w, h.fused hb hu hw⟩

end Foldable

end TemporaryFolding

end ThreeAddress
