import ThreeAddress.Pass.TemporaryFolding
import ThreeAddress.Proofs.Candor
import ThreeAddress.Proofs.Readiness

namespace ThreeAddress

namespace TemporaryFolding

variable {b : Body} {i : Reaching} {p : Nat} {s : Stmt} {x : LocalId} {place : Place} {r : Revision}

theorem storeOf?_eq_some : storeOf? x s = some place ↔ s = .assign place (.value (.var x)) := by
  unfold storeOf?
  split
  · next z y =>
    split
    · next h => simp [h]
    · next h => simp [Ne.symm h]
  · next h =>
    simp only [reduceCtorEq, false_iff]
    rintro rfl
    exact h place x rfl

/-- Two units in sequence, of which the first gives a temporary its value, and the second, which
nothing refers to, stores it. -/
structure Pair (b : Body) (p : Nat) (x : LocalId) (e : Expr) (place : Place) : Prop where
  first : b.stmtAt? p = some (.assign (.var x) e)
  second : b.stmtAt? (p + 1) = some (.assign place (.value (.var x)))
  hidden : ∀ u, b.ids[p + 1]? = some u → b.isReferenced u = false

theorem pair_of_isFoldable (h : isFoldable b i p = true) : ∃ x e place, Pair b p x e place := by
  unfold isFoldable at h
  split at h
  · next x e next hs hn =>
    split at h
    · next place hp =>
      simp only [Bool.and_eq_true, Bool.not_eq_true'] at h
      refine ⟨x, e, place, hs, ?_, ?_⟩
      · rw [Body.stmtAt?_of_unit hn, storeOf?_eq_some.1 hp]
      · intro u hu
        rw [Body.getElem?_ids, hn, Option.map_some, Option.some.injEq] at hu
        rw [← hu]
        exact h.1.1.1.2
    · simp at h
  · simp at h

theorem pair_of_find? (h : find? b = some p) : ∃ x e place, Pair b p x e place :=
  pair_of_isFoldable (List.find?_some h)

variable {e : Expr}

theorem Pair.merge_eq (h : Pair b p x e place) :
    merge b p = (b.removeAt (p + 1)).modifyAt p (setPlace place) := by
  rw [merge, h.second]

theorem nodup_merge (hn : b.ids.Nodup) (p : Nat) : (merge b p).ids.Nodup := by
  unfold merge
  split
  · rw [Body.ids_modifyAt]
    exact Body.nodup_removeAt hn (p + 1)
  · exact Body.nodup_removeAt hn (p + 1)

theorem Pair.ids_merge (h : Pair b p x e place) : (merge b p).ids = b.ids.eraseIdx (p + 1) := by
  rw [h.merge_eq, Body.ids_modifyAt, Body.ids_removeAt]

theorem Pair.units (h : Pair b p x e place) : ∃ u next : CodeUnit, b.units[p]? = some u ∧
    u.stmt = .assign (.var x) e ∧ b.units[p + 1]? = some next ∧
    next.stmt = .assign place (.value (.var x)) := by
  obtain ⟨u, hu, hus⟩ := Option.map_eq_some_iff.1 h.first
  obtain ⟨next, hn, hns⟩ := Option.map_eq_some_iff.1 h.second
  exact ⟨u, next, hu, hus, hn, hns⟩

theorem Pair.mem_merge (h : Pair b p x e place) {u : CodeUnit}
    (hu : b.units[p]? = some u) :
    ⟨u.id, .assign place e⟩ ∈ (merge b p).units := by
  have hus : u.stmt = .assign (.var x) e :=
    Option.some.inj ((Body.stmtAt?_of_unit hu).symm.trans h.first)
  have hnew : (merge b p).units[p]? = some ⟨u.id, .assign place e⟩ := by
    rw [h.merge_eq, Body.modifyAt, List.getElem?_modify,
      Body.getElem?_removeAt_of_lt (Nat.lt_succ_self p), hu]
    simp [CodeUnit.mapStmt, hus, Stmt.mapTargets, setPlace]
  exact List.mem_of_getElem? hnew

theorem Pair.declared (h : Pair b p x e place) (hb : b.Valid) :
    ∀ y ∈ (Stmt.assign place e).locals, y ∈ (b.removeAt (p + 1)).locals.map (·.id) := by
  obtain ⟨u, next, hu, hus, hn, hns⟩ := h.units
  have hexpr := hb.declared u (List.mem_of_getElem? hu)
  have hplace := hb.declared next (List.mem_of_getElem? hn)
  rw [hus] at hexpr
  rw [hns] at hplace
  simp only [Stmt.locals_assign, List.mem_append] at hexpr hplace ⊢
  rw [Body.locals_removeAt]
  intro y hy
  rcases hy with (hy | hy) | hy
  · exact hplace y (.inl (.inl hy))
  · exact hexpr y (.inl (.inr hy))
  · exact hplace y (.inr hy)

theorem Pair.restated_merge (h : Pair b p x e place) :
    (b.removeAt (p + 1)).Restated (merge b p) := by
  obtain ⟨u, -, hu, hus, -⟩ := h.units
  rw [h.merge_eq]
  refine .modifyAt p fun w hw ↦ ?_
  rw [Body.getElem?_removeAt_of_lt (Nat.lt_succ_self p), hu] at hw
  obtain rfl := Option.some.inj hw
  rw [CodeUnit.stmt_mapStmt, hus]
  exact ⟨rfl, rfl, nofun⟩

theorem Pair.valid_merge (h : Pair b p x e place) (hb : b.Valid) : (merge b p).Valid := by
  obtain ⟨u, next, hu, hus, hn, -⟩ := h.units
  have hnext : b.ids[p + 1]? = some next.id := Body.id_of_unit hn
  have hlt := Body.lt_size_of_getElem? hnext
  have hremoved := hb.removeAt hnext (h.hidden _ hnext) (by omega)
  refine h.restated_merge.valid hremoved fun w hw y hy ↦ ?_
  obtain ⟨q, hq⟩ := List.getElem?_of_mem hw
  have hlocals : (merge b p).locals = (b.removeAt (p + 1)).locals := by
    rw [h.merge_eq]
    rfl
  rw [h.merge_eq, Body.modifyAt, List.getElem?_modify] at hq
  obtain ⟨v, hv, rfl⟩ := Option.map_eq_some_iff.1 hq
  rw [hlocals]
  by_cases hpq : p = q
  · subst hpq
    rw [Body.getElem?_removeAt_of_lt (Nat.lt_succ_self p), hu] at hv
    obtain rfl := Option.some.inj hv
    refine h.declared hb y ?_
    simpa [CodeUnit.mapStmt, hus, setPlace, Stmt.mapTargets] using hy
  · refine hremoved.declared v (List.mem_of_getElem? hv) y ?_
    simpa [hpq] using hy

theorem noFresh_merge (b : Body) (p : Nat) : b.NoFresh (merge b p) := by
  have hremoved := b.noFresh_removeAt (p + 1)
  unfold merge
  split
  · exact ⟨by simpa using hremoved.ids, hremoved.nextUnit⟩
  · exact hremoved

theorem Pair.ready_merge (h : Pair b p x e place) (hb : b.Ready) : (merge b p).Ready where
  valid := h.valid_merge hb.valid
  bounded := (noFresh_merge b p).bounded hb.bounded
  end_sealed := by
    obtain ⟨-, next, -, -, hn, hns⟩ := h.units
    have hlt : p + 1 + 1 < b.size :=
      hb.end_sealed.lt_of_fallsThrough hn (by rw [hns]; rfl) (by simp [hns])
    exact h.restated_merge.sealed (hb.end_sealed.removeAt hlt)

theorem weight_setPlace (place : Place) (s : Stmt) : (setPlace place s).weight = s.weight := by
  cases s <;> rfl

theorem Pair.weight_merge (h : Pair b p x e place) : (merge b p).weight < b.weight := by
  obtain ⟨u, next, -, -, hn, -⟩ := h.units
  rw [h.merge_eq, Body.weight_modifyAt (weight_setPlace place)]
  exact Body.weight_removeAt (List.getElem?_eq_some_iff.1 hn).1

theorem ready_mergeAll (hr : r.body.Ready) : (mergeAll r).body.Ready := by
  fun_induction mergeAll r with
  | case1 r h => exact hr
  | case2 r p h hlt ih =>
    obtain ⟨x, e, place, hp⟩ := pair_of_find? h
    exact ih (hp.ready_merge hr)
  | case3 r p h hlt => exact hr

theorem pays_mergeAll (r : Revision) : ∃ new, Revision.Pays r (mergeAll r) new := by
  fun_induction mergeAll r with
  | case1 r h => exact ⟨[], .refl r⟩
  | case2 r p h hlt ih =>
    obtain ⟨x, e, place, hp⟩ := pair_of_find? h
    obtain ⟨new, hnew⟩ := ih
    exact ⟨_, Revision.Pays.trans (.note rfl hp.weight_merge) hnew⟩
  | case3 r p h hlt => exact ⟨[], .refl r⟩

theorem noFresh_mergeAll (r : Revision) : r.body.NoFresh (mergeAll r).body := by
  fun_induction mergeAll r with
  | case1 r h => exact .of_units rfl rfl
  | case2 r p h hlt ih => exact (noFresh_merge r.body p).trans ih
  | case3 r p h hlt => exact .of_units rfl rfl

end TemporaryFolding

namespace Pass

theorem temporaryFolding_carries : temporaryFolding.Carries Body.Ready Body.Ready :=
  fun _ _ hb ↦ ⟨⟨_, rfl⟩, TemporaryFolding.ready_mergeAll hb⟩

theorem temporaryFolding_candid : temporaryFolding.Candid := by
  intro m b _ _
  obtain ⟨new, hp⟩ := TemporaryFolding.pays_mergeAll ⟨b, [], false⟩
  exact ((Revision.candid_start b).pays (Nat.le_refl _) hp).finish

theorem temporaryFolding_addsNoUnits : temporaryFolding.AddsNoUnits :=
  fun _ b _ ↦ TemporaryFolding.noFresh_mergeAll ⟨b, [], false⟩

end Pass

end ThreeAddress
