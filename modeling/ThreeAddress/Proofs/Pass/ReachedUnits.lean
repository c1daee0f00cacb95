import ThreeAddress.Proofs.Body.Skipping
import ThreeAddress.Proofs.Flow.Reached
import ThreeAddress.Proofs.Pass.UnreachableUnits

namespace ThreeAddress

namespace Body

variable {b c : Body} {u z : UnitId} {v : CodeUnit} {keep : UnitId → Prop}

theorem sublist_units {us : List CodeUnit} (hn : b.ids.Nodup) (hm : us ⊆ b.units)
    (hs : (us.map (·.id)).Sublist b.ids) : us.Sublist b.units := by
  have hback (vs : List CodeUnit) (hvs : vs ⊆ b.units) :
      (vs.map (·.id)).map (fun u ↦ ⟨u, (b.stmt? u).getD .nop⟩) = vs := by
    rw [List.map_map, map_eq_self_iff]
    intro v hv
    rw [Function.comp_apply, (stmt?_eq_some hn).2 (hvs hv), Option.getD_some]
  have hunits := hs.map fun u ↦ (⟨u, (b.stmt? u).getD .nop⟩ : CodeUnit)
  rwa [hback us hm, ids, hback b.units (List.Subset.refl _)] at hunits

theorem Spares.mem_units (h : Spares keep b c) (hn : b.ids.Nodup) (hv : keep v.id) :
    v ∈ c.units ↔ v ∈ b.units := by
  have hmem {d : Body} (hd : d.ids.Nodup) : v ∈ d.units ↔ d.stmt? v.id = some v.stmt :=
    (stmt?_eq_some hd).symm
  rw [hmem hn, hmem (hn.sublist h.order), h.stmt v.id hv]

theorem exists_init_of_last {α : Type} {P : α → Prop} {l : List α} (hn : l.Nodup)
    (h : ∀ a ∈ l, P a ∨ l.getLast? = some a) : ∃ kept rest, l = kept ++ rest ∧
      rest.length ≤ 1 ∧ (∀ a ∈ kept, P a) ∧ ∀ a ∈ rest, ¬ P a := by
  by_cases hall : ∀ a ∈ l, P a
  · exact ⟨l, [], by simp, Nat.zero_le 1, hall, by simp⟩
  · push Not at hall
    obtain ⟨z, hz, hnot⟩ := hall
    obtain ⟨front, hfront⟩ := List.getLast?_eq_some_iff.1 ((h z hz).resolve_left hnot)
    refine ⟨front, [z], hfront, Nat.le_refl 1, fun a ha ↦ ?_, by simpa using hnot⟩
    obtain hk | hlast := h a (hfront ▸ List.mem_append_left _ ha)
    · exact hk
    · obtain rfl : z = a := by simpa [hfront] using hlast
      have hapart := (List.nodup_append.1 (hfront ▸ hn)).2.2
      exact absurd rfl (hapart z ha z (by simp))

/-- If all units left but the last one are to be kept, they are these units in order, and there may
be one more behind them. -/
theorem Spares.exists_split (h : Spares keep b c) (hn : b.ids.Nodup)
    (hlast : ∀ v ∈ c.units, keep v.id ∨ c.units.getLast? = some v) :
    ∃ kept rest, c.units = kept ++ rest ∧ rest.length ≤ 1 ∧ kept.Sublist b.units ∧
      ∀ v ∈ b.units, v ∈ kept ↔ keep v.id := by
  have hcn : c.units.Nodup := .of_map _ (hn.sublist h.order)
  obtain ⟨kept, rest, hunits, hrest, hkept, hgone⟩ := exists_init_of_last hcn hlast
  refine ⟨kept, rest, hunits, hrest, sublist_units hn (fun v hv ↦ ?_) ?_, fun v hv ↦ ⟨?_, ?_⟩⟩
  · exact (h.mem_units hn (hkept v hv)).1 (hunits ▸ List.mem_append_left _ hv)
  · have horder := h.order
    rw [ids, hunits, List.map_append] at horder
    exact (List.sublist_append_left _ _).trans horder
  · exact hkept v
  · intro hk
    have hm := (h.mem_units hn hk).2 hv
    rw [hunits, List.mem_append] at hm
    exact hm.resolve_right fun hr ↦ hgone v hr hk

/-- References skip over what is removed. Where the units to keep and the traps refer to nothing of
that, these stay what they are. -/
theorem Skips.spares {f : UnitId → UnitId} (h : Skips f b c) (hn : b.ids.Nodup)
    (hkept : ∀ u, keep u → u ∈ c.ids)
    (htargets : ∀ v ∈ b.units, keep v.id → ∀ t ∈ v.stmt.targets, t ∈ c.ids)
    (hhandlers : ∀ t ∈ b.traps, t.handler ∈ c.ids) : Spares keep b c where
  order := h.units
  kept u _ hu := hkept u hu
  stmt u hu := by
    rw [h.moved.stmt u (hkept u hu)]
    cases hs : b.stmt? u with
    | none => rfl
    | some s =>
      have hv := (stmt?_eq_some hn).1 hs
      have hfixed : s.mapTargets f = s :=
        Stmt.mapTargets_eq_self_iff.2 fun t ht ↦ h.fixed t (htargets _ hv hu t ht)
      rw [Option.map_some, hfixed]
  clauses u hu _ := by
    rw [clauses, h.moved.around u (hkept u hu), List.map_map, clauses]
    refine List.map_congr_left fun t ht ↦ ?_
    exact congrArg (·, t.exception) (h.fixed _ (hhandlers t (List.mem_filter.1 ht).1))

theorem Spares.removeLast {p : Nat} (hb : b.Coherent) (hp : b.ids[p]? = some z)
    (hr : b.isRemovable z = true) (hlast : ¬ p + 1 < b.size) (hz : ¬ keep z) :
    Spares keep b (b.removeAt p) := by
  obtain ⟨x, hx, rfl⟩ := unit_of_id hp
  have hne {u : UnitId} (hu : keep u) : u ≠ x.id := fun he ↦ hz (he ▸ hu)
  have hheir : b.heir p = fun t ↦ t := by
    have hnone : b.units[p + 1]? = none := List.getElem?_eq_none (Nat.le_of_not_lt hlast)
    simp [heir, hx, hnone]
  refine ⟨by simpa using List.eraseIdx_sublist b.ids p, fun u hu hk ↦ ?_, fun u hk ↦ ?_,
    fun u hk _ ↦ ?_⟩
  · exact (mem_ids_removeAt hb.nodup hp).2 ⟨hu, hne hk⟩
  · simp [stmt?_removeAt hb.nodup hx (hne hk), hheir]
  · simp [Body.clauses, around_removeAt hb hp hr (hne hk), hheir]

theorem Spares.dropEmptyTraps (keep : UnitId → Prop) (b : Body) : Spares keep b b.dropEmptyTraps :=
  .of_ids rfl (fun _ _ ↦ rfl) b.clauses_dropEmptyTraps

theorem getLast?_units (hn : b.ids.Nodup) (hv : v ∈ b.units) (h : b.ids.getLast? = some v.id) :
    b.units.getLast? = some v := by
  rw [getLast?_ids, Option.map_eq_some_iff] at h
  obtain ⟨w, hw, he⟩ := h
  rw [hw, eq_of_id_eq hn (List.mem_of_getLast? hw) hv he]

end Body

namespace UnreachableUnits

variable {b e : Body} {r : Revision} {u z : UnitId} {x : CodeUnit} {t : Trap} {p k : Nat}

theorem mem_dead_iff (hn : b.ids.Nodup) :
    u ∈ (dead b).map (·.1) ↔ u ∈ b.ids ∧ ¬ b.Reached u := by
  rw [mem_dead]
  constructor
  · intro h
    obtain ⟨p, hp, hnot⟩ := h
    exact ⟨List.mem_of_getElem? hp, mt (Body.reached_iff_mem_reachable hn hp).1 hnot⟩
  · intro h
    obtain ⟨p, hp⟩ := List.getElem?_of_mem h.1
    exact ⟨p, hp, mt (Body.reached_iff_mem_reachable hn hp).2 h.2⟩

def guarded (b : Body) : Revision := dropHandlers ((dead b).map (·.1)) ⟨b, [], false⟩

theorem mem_traps_guarded (hb : b.Coherent) :
    t ∈ (guarded b).body.traps ↔ t ∈ b.traps ∧ b.Reached t.handler := by
  have hdead : t ∈ (guarded b).body.traps ↔ t ∈ b.traps ∧ t.handler ∉ (dead b).map (·.1) := by
    simp only [guarded, dropHandlers, Revision.withNotes, List.mem_filter, Bool.not_eq_true',
      List.contains_eq_mem, decide_eq_false_iff_not]
  rw [hdead, mem_dead_iff hb.nodup]
  exact and_congr_right fun ht ↦ by simp [hb.handlers t ht]

theorem coherent_guarded (hb : b.Coherent) : (guarded b).body.Coherent :=
  hb.subTraps (List.filter_subset_self _)

/-- The handler of a trap around a unit that may throw is reached when the unit is. -/
theorem spares_guarded (hb : b.Coherent) : b.Spares b.Reached (guarded b).body where
  order := .refl _
  kept _ hu _ := hu
  stmt _ _ := rfl
  clauses u hu hthrow := by
    refine congrArg (List.map Trap.clause) ?_
    refine (b.around_filter _ u).trans (List.filter_eq_self.2 fun t ht ↦ ?_)
    have hraises : b.RaisesTo u t.handler := by
      refine (Body.raisesTo_iff hb).2 ⟨hthrow, ?_⟩
      simp only [Body.clauses, List.map_map]
      exact List.mem_map_of_mem ht
    have hnot : t.handler ∉ (dead b).map (·.1) := fun hm ↦
      ((mem_dead_iff hb.nodup).1 hm).2 (hu.step (.inr hraises))
    simpa using hnot

theorem body_drop (hp : r.body.units[p]? = some x) (hn : r.body.ids.Nodup)
    (hr : r.body.isRemovable x.id = true) : (drop r x.id k).body = r.body.removeAt p := by
  have hpos := (Body.position?_eq_some hn).2 (Body.id_of_unit hp)
  simp only [drop, hr, if_true, Revision.removeUnit, hpos, Revision.withNote]

theorem drop_of_not_mem (hu : u ∉ r.body.ids) : drop r u k = r := by
  have hpos := Body.position?_eq_none.2 hu
  have hstmt := Body.stmt?_of_not_mem hu
  simp only [drop, Revision.removeUnit, hpos, hstmt, ite_self]

/-- The units of `us` are gone, and what referred to them skips to what is left, the ends of traps
included. -/
structure Stripped (us : List UnitId) (f : UnitId → UnitId) (b c : Body) : Prop where
  skips : Body.Skips f b c
  traps : c.traps = b.traps.map (·.mapRefs f)
  coherent : c.Coherent
  mem : ∀ u, u ∈ c.ids ↔ u ∈ b.ids ∧ u ∉ us

namespace Stripped

variable {c d : Body} {us us' : List UnitId} {f g : UnitId → UnitId}

theorem trans (h : Stripped us f b c) (h' : Stripped us' g c d) :
    Stripped (us ++ us') (g ∘ f) b d where
  skips := h.skips.trans h'.skips
  traps := by
    rw [h'.traps, h.traps, List.map_map]
    rfl
  coherent := h'.coherent
  mem u := by rw [h'.mem, h.mem, List.mem_append, not_or, and_assoc]

theorem refl (hb : b.Coherent) (hus : ∀ u ∈ us, u ∉ b.ids) : Stripped us (fun u ↦ u) b b where
  skips := .refl hb.nodup
  traps := by simp
  coherent := hb
  mem u := ⟨fun hu ↦ ⟨hu, fun hm ↦ hus u hm hu⟩, And.left⟩

theorem removeAt (hb : b.Coherent) (hp : b.units[p]? = some x) (hlt : p + 1 < b.size) :
    Stripped [x.id] (b.heir p) b (b.removeAt p) where
  skips := .removeAt hb hp hlt
  traps := by rw [Body.removeAt_eq]
  coherent := hb.removeAt (Body.id_of_unit hp) (Body.isRemovable_of_lt hb.nodup hp hlt)
  mem u := by rw [Body.mem_ids_removeAt hb.nodup (Body.id_of_unit hp), List.mem_singleton]

end Stripped

theorem stripped_drop (hr : r.body.Coherent) (hz : r.body.ids.getLast? = some z) (hu : u ≠ z) :
    ∃ f, Stripped [u] f r.body (drop r u k).body := by
  by_cases hm : u ∈ r.body.ids
  · obtain ⟨x, hx, rfl⟩ := Body.mem_ids.1 hm
    obtain ⟨p, hp⟩ := List.getElem?_of_mem hx
    have hlt : p + 1 < r.body.size := by
      refine Body.lt_of_getLast?_ne hp fun hlast ↦ hu ?_
      rw [Body.getLast?_ids, hlast] at hz
      exact Option.some.inj hz
    rw [body_drop hp hr.nodup (Body.isRemovable_of_lt hr.nodup hp hlt)]
    exact ⟨_, .removeAt hr hp hlt⟩
  · rw [drop_of_not_mem hm]
    exact ⟨_, .refl hr (by simpa using hm)⟩

theorem Stripped.getLast? {us : List UnitId} {f : UnitId → UnitId} {c : Body}
    (h : Stripped us f b c) (hn : b.ids.Nodup) (hz : b.ids.getLast? = some z) (hus : z ∉ us) :
    c.ids.getLast? = some z :=
  getLast?_of_sublist hn h.skips.units hz ((h.mem z).2 ⟨List.mem_of_getLast? hz, hus⟩)

theorem stripped_foldl (l : List (UnitId × Nat)) (r : Revision) (hr : r.body.Coherent)
    (hz : r.body.ids.getLast? = some z) (hl : z ∉ l.map (·.1)) :
    ∃ f, Stripped (l.map (·.1)) f r.body (l.foldl (fun r (u, p) ↦ drop r u p) r).body := by
  induction l generalizing r with
  | nil => exact ⟨_, .refl hr (by simp)⟩
  | cons a l ih =>
    rw [List.map_cons, List.mem_cons, not_or] at hl
    obtain ⟨f, hf⟩ : ∃ f, Stripped [a.1] f r.body (drop r a.1 a.2).body :=
      stripped_drop hr hz (Ne.symm hl.1)
    have hlast := hf.getLast? hr.nodup hz (by simpa using hl.1)
    obtain ⟨g, hg⟩ := ih (drop r a.1 a.2) hf.coherent hlast hl.2
    exact ⟨_, hf.trans hg⟩

/-- The body `e` that is left of `b` when only the last unit `z` has not been looked at. -/
structure Remnant (b : Body) (z : UnitId) (f : UnitId → UnitId) (e : Body) : Prop where
  last : b.ids.getLast? = some z
  skips : Body.Skips f (guarded b).body e
  traps : e.traps = (guarded b).body.traps.map (·.mapRefs f)
  coherent : e.Coherent
  mem : ∀ u, u ∈ e.ids ↔ b.Reached u ∨ u = z

theorem dead_split (hn : b.ids.Nodup) (hz : b.ids.getLast? = some z) :
    ∃ front, z ∉ front.map (·.1) ∧
      (b.Reached z ∧ dead b = front ∨ ¬ b.Reached z ∧ ∃ k, dead b = front ++ [(z, k)]) := by
  obtain ⟨us, hus⟩ := List.getLast?_eq_some_iff.1 hz
  have hzp : b.ids[us.length]? = some z := by simp [hus]
  have hzus : z ∉ us := by
    intro hm
    rw [hus] at hn
    exact (List.nodup_append.1 hn).2.2 z hm z (by simp) rfl
  refine ⟨us.zipIdx.filter fun (_, p) ↦ !b.flowGraph.reachable.contains p, ?_, ?_⟩
  · intro hm
    obtain ⟨a, ha, rfl⟩ := List.mem_map.1 hm
    exact hzus (List.fst_mem_of_mem_zipIdx (List.mem_filter.1 ha).1)
  · rw [Body.reached_iff_mem_reachable hn hzp, dead, hus, List.zipIdx_append, List.filter_append]
    by_cases hreached : us.length ∈ b.flowGraph.reachable
    · exact .inl ⟨hreached, by simp [hreached]⟩
    · exact .inr ⟨hreached, us.length, by simp [hreached]⟩

theorem exists_remnant (hb : b.Valid) : ∃ z f r, Remnant b z f r.body ∧
    (b.Reached z ∧ swept b = r ∨ ¬ b.Reached z ∧ ∃ k, swept b = drop r z k) := by
  have hc := hb.coherent
  have hn := hb.nodup
  obtain ⟨z, hz⟩ : ∃ z, b.ids.getLast? = some z := by
    have hne : b.ids ≠ [] := by simpa [Body.ids] using hb.nonempty
    exact ⟨_, List.getLast?_eq_some_getLast hne⟩
  obtain ⟨front, hfront, hdead⟩ := dead_split hn hz
  obtain ⟨f, hf⟩ := stripped_foldl front (guarded b) (coherent_guarded hc) hz hfront
  have hmem (u : UnitId) : u ∈ front.map (·.1) ↔ u ∈ b.ids ∧ ¬ b.Reached u ∧ u ≠ z := by
    have hall := mem_dead_iff hn (u := u)
    by_cases hu : u = z
    · subst hu
      simp [hfront]
    · obtain ⟨-, he⟩ | ⟨-, k, he⟩ := hdead <;> simpa [he, hu] using hall
  refine ⟨z, f, _, ⟨hz, hf.skips, hf.traps, hf.coherent, fun u ↦ ?_⟩, ?_⟩
  · rw [hf.mem, hmem]
    change u ∈ b.ids ∧ _ ↔ _
    have hin : b.Reached u → u ∈ b.ids := Body.Reached.mem_ids
    have hzin : u = z → u ∈ b.ids := fun he ↦ he ▸ List.mem_of_getLast? hz
    tauto
  · have hswept : swept b = (dead b).foldl (fun r (u, p) ↦ drop r u p) (guarded b) := rfl
    obtain ⟨hz, he⟩ | ⟨hz, k, he⟩ := hdead
    · exact .inl ⟨hz, by rw [hswept, he]⟩
    · refine .inr ⟨hz, k, ?_⟩
      rw [hswept, he, List.foldl_append]
      rfl

theorem Remnant.spares {f : UnitId → UnitId} (h : Remnant b z f e) (hb : b.Coherent) :
    b.Spares b.Reached e := by
  refine (spares_guarded hb).trans (h.skips.spares hb.nodup ?_ ?_ ?_) hb.nodup
  · exact fun u hu ↦ (h.mem u).2 (.inl hu)
  · exact fun v hv hu t ht ↦ (h.mem t).2 (.inl (hu.target hb hv ht))
  · exact fun t ht ↦ (h.mem _).2 (.inl ((mem_traps_guarded hb).1 ht).2)

theorem Remnant.getLast? {f : UnitId → UnitId} (h : Remnant b z f e) (hn : b.ids.Nodup) :
    e.ids.getLast? = some z :=
  getLast?_of_sublist hn h.skips.units h.last ((h.mem z).2 (.inr rfl))

/-- Nothing stands behind the last unit, so it goes only if nothing refers to it. -/
theorem isRemovable_last (hn : b.ids.Nodup) (hz : b.ids.getLast? = some z) :
    b.isRemovable z = !b.isReferenced z := by
  have hnone := (Body.successor?_eq_none_iff hn (List.mem_of_getLast? hz)).2 hz
  simp [Body.isRemovable, hnone]

theorem body_drop_unreferenced (hn : r.body.ids.Nodup) (hz : r.body.ids.getLast? = some z)
    (href : r.body.isReferenced z = false) : ∃ p : Nat, r.body.ids[p]? = some z ∧
      ¬ p + 1 < r.body.size ∧ (drop r z k).body = r.body.removeAt p := by
  obtain ⟨x, hx, rfl⟩ := Body.mem_ids.1 (List.mem_of_getLast? hz)
  obtain ⟨p, hp⟩ := List.getElem?_of_mem hx
  have hid := Body.id_of_unit hp
  have hremovable : r.body.isRemovable x.id = true := by
    rw [isRemovable_last hn hz, href, Bool.not_false]
  refine ⟨p, hid, ?_, body_drop hp hn hremovable⟩
  have hnone := (Body.successor?_eq_none_iff hn (List.mem_of_getLast? hz)).2 hz
  rw [Body.successor?_of_getElem? hn hid, List.getElem?_eq_none_iff, Body.length_ids] at hnone
  exact Nat.not_lt_of_le hnone

theorem body_drop_referenced (hn : r.body.ids.Nodup) (hz : r.body.ids.getLast? = some z)
    (href : r.body.isReferenced z = true) : (drop r z k).body = r.body.setStmt z .nop := by
  obtain ⟨x, hx, rfl⟩ := Body.mem_ids.1 (List.mem_of_getLast? hz)
  have hstmt := (Body.stmt?_eq_some hn).2 hx
  have hremovable : r.body.isRemovable x.id = false := by
    rw [isRemovable_last hn hz, href, Bool.not_true]
  rw [drop, hremovable, hstmt]
  by_cases hnop : x.stmt = .nop
  · have hsame := Body.setStmt_eq_self hn (hnop ▸ hstmt)
    simp [hnop, hsame]
  · simp [Revision.withNote]

theorem traps_drop (hn : r.body.ids.Nodup) (hz : r.body.ids.getLast? = some z) :
    (drop r z k).body.traps = r.body.traps := by
  cases href : r.body.isReferenced z with
  | false =>
    obtain ⟨p, -, hlast, he⟩ := body_drop_unreferenced (k := k) hn hz href
    rw [he, Body.removeAt_last hlast]
    rfl
  | true =>
    rw [body_drop_referenced hn hz href]
    rfl

theorem spares_drop {keep : UnitId → Prop} (hr : r.body.Coherent)
    (hz : r.body.ids.getLast? = some z) (hk : ¬ keep z) :
    r.body.Spares keep (drop r z k).body := by
  cases href : r.body.isReferenced z with
  | false =>
    obtain ⟨p, hp, hlast, he⟩ := body_drop_unreferenced (k := k) hr.nodup hz href
    rw [he]
    refine .removeLast hr hp ?_ hlast hk
    rw [isRemovable_last hr.nodup hz, href, Bool.not_false]
  | true =>
    rw [body_drop_referenced hr.nodup hz href]
    refine .of_ids (Body.ids_setStmt r.body z .nop) (fun u hu ↦ ?_) fun u ↦ ?_
    · rw [Body.stmt?_setStmt, if_neg fun he : u = z ↦ hk (he ▸ hu)]
    · exact congrArg _ (Body.around_congr (Body.ids_setStmt r.body z .nop) rfl u)

theorem spares_swept (hb : b.Valid) : b.Spares b.Reached (swept b).body ∧
    ∀ u ∈ (swept b).body.ids, b.Reached u ∨ b.ids.getLast? = some u := by
  obtain ⟨z, f, r, hrem, hswept⟩ := exists_remnant hb
  have hspares := hrem.spares hb.coherent
  have hmem (u : UnitId) (hu : u ∈ r.body.ids) : b.Reached u ∨ b.ids.getLast? = some u := by
    obtain hr | rfl := (hrem.mem u).1 hu
    · exact .inl hr
    · exact .inr hrem.last
  obtain ⟨-, he⟩ | ⟨hz, k, he⟩ := hswept
  · rw [he]
    exact ⟨hspares, hmem⟩
  · have hdrop : r.body.Spares b.Reached (drop r z k).body :=
      spares_drop hrem.coherent (hrem.getLast? hb.nodup) hz
    rw [he]
    exact ⟨hspares.trans hdrop hb.nodup, fun u hu ↦ hmem u (hdrop.order.subset hu)⟩

/-- Where there is nothing to remove, the loop and the look at empty traps change nothing. -/
theorem revise_eq_of_valid (hb : b.Valid) : revise b = (swept b).dropEmptyTraps := by
  by_cases h : dead b = []
  · have hswept : swept b = ⟨b, [], false⟩ := by
      simp [swept, h, dropHandlers, Revision.withNotes]
    rw [revise_of_no_dead h, hswept]
    exact (Revision.dropEmptyTraps_eq_self hb).symm
  · exact revise_eq h

theorem valid_revise (hb : b.Valid) : (revise b).body.Valid := by
  rw [revise_eq_of_valid hb]
  exact (coherent_swept hb).valid_dropEmptyTraps (nonempty_swept hb)

theorem spares_revise (hb : b.Valid) : b.Spares b.Reached (revise b).body := by
  rw [revise_eq_of_valid hb]
  exact (spares_swept hb).1.trans (.dropEmptyTraps b.Reached (swept b).body) hb.nodup

theorem reached_or_blank (hb : b.Valid) {v : CodeUnit} (hv : v ∈ (revise b).body.units) :
    b.Reached v.id ∨ (revise b).body.units.getLast? = some v ∧ v.stmt = .nop := by
  have hspares := spares_revise hb
  have hids := Body.id_mem_ids hv
  refine or_iff_not_imp_left.2 fun hnot ↦ ⟨?_, ?_⟩
  · have hlast : b.ids.getLast? = some v.id := by
      rw [revise_eq_of_valid hb] at hids
      exact ((spares_swept hb).2 v.id hids).resolve_left hnot
    exact Body.getLast?_units (hb.nodup.sublist hspares.order) hv
      (getLast?_of_sublist hb.nodup hspares.order hlast hids)
  · have hdead : IsDead b v := (mem_dead_iff hb.nodup).2 ⟨hspares.order.subset hids, hnot⟩
    rw [revise_eq_of_valid hb] at hv
    exact blank_swept hb.nodup hv hdead

end UnreachableUnits

namespace Pass

/-- The removal of unreached units leaves a valid body that begins with the units that control
reached, in order, and has at most one unit more. From each of the units reached, control goes in
the normal course where it went, and those that may throw are under the same traps, in order. -/
theorem reached_units_kept (m : Signature) {b : Body} (hb : b.validate = .ok ()) :
    ∃ c notes changed, unreachableUnits.run m b = ⟨c, notes, .ok changed⟩ ∧ c.validate = .ok () ∧
      (∃ kept rest, c.units = kept ++ rest ∧ rest.length ≤ 1 ∧ kept.Sublist b.units ∧
        ∀ v ∈ b.units, v ∈ kept ↔ b.Reached v.id) ∧
      ∀ u, b.Reached u → (∀ w, c.FlowsTo u w ↔ b.FlowsTo u w) ∧
        (b.Throws u → c.clauses u = b.clauses u) := by
  have hv := Body.validate_eq_ok.1 hb
  have hc := UnreachableUnits.valid_revise hv
  have hspares := UnreachableUnits.spares_revise hv
  refine ⟨_, _, _, rfl, Body.validate_eq_ok.2 hc, ?_, fun u hu ↦ ⟨fun w ↦ ?_, ?_⟩⟩
  · exact hspares.exists_split hv.nodup fun v hm ↦
      (UnreachableUnits.reached_or_blank hv hm).imp_right And.left
  · exact hspares.flowsTo_iff hv.coherent hc.coherent hu
  · exact hspares.clauses u hu

def choosing : Signature where
  declaringType := "Demo"
  name := "choose"
  isStatic := true
  parameters := [⟨some "n", .int⟩]
  returnType := .void

/-- Control does not reach the first unit of a trap, the unit behind that trap, a handler, and the
last unit, where another trap ends. -/
def patchy : Body where
  locals := [⟨⟨0⟩, "n", .int⟩]
  units :=
    [⟨⟨0⟩, .branch ⟨.eq, .var ⟨0⟩, .const (.int 0)⟩ ⟨4⟩⟩,
      ⟨⟨1⟩, .goto ⟨3⟩⟩,
      ⟨⟨2⟩, .invoke ⟨.static, ⟨"Demo", "skip", [], .void⟩, none, []⟩⟩,
      ⟨⟨3⟩, .invoke ⟨.static, ⟨"Demo", "work", [], .void⟩, none, []⟩⟩,
      ⟨⟨4⟩, .ret none⟩,
      ⟨⟨5⟩, .goto ⟨0⟩⟩,
      ⟨⟨6⟩, .ret none⟩,
      ⟨⟨7⟩, .ret none⟩,
      ⟨⟨8⟩, .ret none⟩,
      ⟨⟨9⟩, .goto ⟨2⟩⟩]
  traps := [⟨⟨2⟩, ⟨5⟩, ⟨6⟩, .object "E"⟩, ⟨⟨0⟩, ⟨2⟩, ⟨7⟩, .object "E"⟩,
    ⟨⟨3⟩, ⟨4⟩, ⟨8⟩, .object "F"⟩, ⟨⟨8⟩, ⟨9⟩, ⟨6⟩, .object "E"⟩]
  nextUnit := 10

theorem reached_units_kept_patchy :
    (patchy.validate = .ok () ∧ patchy.Reached ⟨3⟩ ∧ patchy.Throws ⟨3⟩) ∧
    (unreachableUnits.run choosing patchy).body.ids =
      [⟨0⟩, ⟨1⟩, ⟨3⟩, ⟨4⟩, ⟨6⟩, ⟨8⟩, ⟨9⟩] ∧
    (unreachableUnits.run choosing patchy).body.FlowsTo ⟨3⟩ ⟨4⟩ ∧
    (unreachableUnits.run choosing patchy).body.clauses ⟨3⟩ =
      [(⟨6⟩, .object "E"), (⟨8⟩, .object "F")] := by
  have hb : patchy.validate = .ok () := by decide +kernel
  have hreached : patchy.Reached ⟨3⟩ := by
    have hsearch : patchy.flowGraph.reachable = [0, 1, 3, 4, 6, 8] := by cbv
    exact (Body.reached_iff_mem_reachable (by decide) (p := 3) rfl).2 (by simp [hsearch])
  have hthrows : patchy.Throws ⟨3⟩ := (Body.throws_iff (by decide)).2 ⟨_, rfl, rfl⟩
  have hflows : patchy.FlowsTo ⟨3⟩ ⟨4⟩ := ⟨3, 4, rfl, rfl, by decide⟩
  obtain ⟨c, notes, changed, hrun, -, -, hsame⟩ := reached_units_kept choosing hb
  obtain ⟨hflow, hclauses⟩ := hsame ⟨3⟩ hreached
  refine ⟨⟨hb, hreached, hthrows⟩, by cbv, ?_⟩
  rw [hrun]
  exact ⟨(hflow ⟨4⟩).2 hflows, (hclauses hthrows).trans (by decide)⟩

end Pass

end ThreeAddress
