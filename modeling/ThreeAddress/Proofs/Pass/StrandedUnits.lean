import ThreeAddress.Proofs.Pass.ReachedUnits

namespace ThreeAddress

namespace Body

variable {b : Body} {u w z : UnitId} {t : Trap} {p q : Nat}

/-- Control reaches no unit at the unit or behind it. -/
def Trails (b : Body) (u : UnitId) : Prop :=
  ∀ (p q : Nat) w, b.ids[p]? = some u → b.ids[q]? = some w → p ≤ q → ¬ b.Reached w

/-- Control reaches every unit, but perhaps the last one, which is empty then, and the end of a
trap. -/
def Trimmed (b : Body) : Prop :=
  ∀ v ∈ b.units, b.Reached v.id ∨
    b.units.getLast? = some v ∧ v.stmt = .nop ∧ ∃ t ∈ b.traps, t.last = v.id

/-- Of the units at the end that control does not reach, one is the target of the last of them, or
the beginning of a trap with a handler that control reaches, and of no such trap one of them is the
end alone. -/
def Strands (b : Body) : Prop :=
  ((∃ v, b.units.getLast? = some v ∧ ∃ t ∈ v.stmt.targets, b.Trails t) ∨
    ∃ t ∈ b.traps, b.Reached t.handler ∧ b.Trails t.first) ∧
  ∀ t ∈ b.traps, b.Reached t.handler → b.Trails t.last → b.Trails t.first

theorem Trails.not_reached (h : b.Trails u) (hu : u ∈ b.ids) : ¬ b.Reached u := by
  obtain ⟨p, hp⟩ := List.getElem?_of_mem hu
  exact h p p u hp hp (Nat.le_refl p)

theorem Trails.mono (hn : b.ids.Nodup) (h : b.Trails u) (hp : b.ids[p]? = some u)
    (hq : b.ids[q]? = some w) (hle : p ≤ q) : b.Trails w := by
  intro q' r v hq' hr hle'
  obtain rfl := index_unique hn hq hq'
  exact h p r v hp hr (Nat.le_trans hle hle')

theorem Trails.last (hb : b.Valid) (ht : t ∈ b.traps) (h : b.Trails t.first) :
    b.Trails t.last := by
  obtain ⟨p, q, hp, hq, hlt⟩ := hb.spans ht
  exact h.mono hb.nodup hp hq (Nat.le_of_lt hlt)

theorem trails_iff_of_next (hn : b.ids.Nodup) (hp : b.ids[p]? = some u)
    (hq : b.ids[p + 1]? = some w) : b.Trails u ↔ ¬ b.Reached u ∧ b.Trails w := by
  constructor
  · exact fun h ↦ ⟨h.not_reached (List.mem_of_getElem? hp), h.mono hn hp hq (Nat.le_succ p)⟩
  · intro h p' r v hp' hr hle
    obtain rfl := index_unique hn hp hp'
    obtain rfl | hlt := Nat.eq_or_lt_of_le hle
    · obtain rfl := Option.some.inj (hp.symm.trans hr)
      exact h.1
    · exact h.2 (p + 1) r v hq hr hlt

theorem getElem?_last (hz : b.ids.getLast? = some z) : b.ids[b.size - 1]? = some z := by
  rw [← hz, List.getLast?_eq_getElem?, length_ids]

theorem trails_last_iff (hn : b.ids.Nodup) (hz : b.ids.getLast? = some z) :
    b.Trails z ↔ ¬ b.Reached z := by
  refine ⟨fun h ↦ h.not_reached (List.mem_of_getLast? hz), fun hnot p q w hp hq hle ↦ ?_⟩
  have hp' := index_unique hn hp (getElem?_last hz)
  have hlt := lt_size_of_getElem? hq
  obtain rfl : p = q := by omega
  obtain rfl := Option.some.inj (hp.symm.trans hq)
  exact hnot

theorem not_trails (hz : b.ids.getLast? = some z) (hreached : b.Reached z) (hu : u ∈ b.ids) :
    ¬ b.Trails u := by
  intro h
  obtain ⟨p, hp⟩ := List.getElem?_of_mem hu
  have hlt := lt_size_of_getElem? hp
  exact h p _ z hp (getElem?_last hz) (by omega) hreached

end Body

namespace UnreachableUnits

variable {b e : Body} {r : Revision} {u z : UnitId} {f : UnitId → UnitId} {t : Trap}

namespace Remnant

theorem fixed (h : Remnant b z f e) (hu : b.Reached u) : f u = u :=
  h.skips.fixed u ((h.mem u).2 (.inl hu))

section

variable (h : Remnant b z f e) (hb : b.Valid)

include h hb

theorem mem_traps : t ∈ e.traps ↔ ∃ t' ∈ b.traps, b.Reached t'.handler ∧ t'.mapRefs f = t := by
  rw [h.traps, List.mem_map]
  simp only [mem_traps_guarded hb.coherent, and_assoc]

variable (hz : ¬ b.Reached z)

include hz

/-- What referred to a unit refers to the last one when nothing else is left from there on. -/
theorem skip_eq_iff (hu : u ∈ b.ids) : f u = z ↔ b.Trails u := by
  obtain ⟨p, hp⟩ := List.getElem?_of_mem hu
  induction hm : b.size - p generalizing p u with
  | zero =>
    have := Body.lt_size_of_getElem? hp
    omega
  | succ m ih =>
    by_cases hkept : b.Reached u ∨ u = z
    · rw [h.skips.fixed u ((h.mem u).2 hkept)]
      obtain hreached | rfl := hkept
      · refine iff_of_false ?_ fun htrails ↦ htrails.not_reached hu hreached
        rintro rfl
        exact hz hreached
      · exact iff_of_true rfl ((Body.trails_last_iff hb.nodup h.last).2 hz)
    · obtain ⟨w, hw, he⟩ := h.skips.skipped u hu (mt (h.mem u).1 hkept)
      have hnext : b.ids[p + 1]? = some w := by
        rw [← Body.successor?_of_getElem? hb.nodup hp]
        exact hw
      rw [he, ih (List.mem_of_getElem? hnext) (p + 1) hnext (by omega),
        Body.trails_iff_of_next hb.nodup hp hnext]
      exact (and_iff_right fun hreached ↦ hkept (.inl hreached)).symm

theorem isTarget_iff : (∃ v ∈ e.units, z ∈ v.stmt.targets) ↔
    ∃ v, b.units.getLast? = some v ∧ ∃ t ∈ v.stmt.targets, b.Trails t := by
  obtain ⟨v, hv, rfl⟩ : ∃ v, b.units.getLast? = some v ∧ v.id = z := by
    simpa [Body.getLast?_ids] using h.last
  have hvm := List.mem_of_getLast? hv
  have hlast : e.stmt? v.id = some (v.stmt.mapTargets f) := by
    rw [h.skips.moved.stmt v.id ((h.mem v.id).2 (.inr rfl))]
    change (b.stmt? v.id).map _ = _
    rw [(Body.stmt?_eq_some hb.nodup).2 hvm, Option.map_some]
  have hown : v.id ∈ (v.stmt.mapTargets f).targets ↔ ∃ t ∈ v.stmt.targets, b.Trails t := by
    rw [Stmt.targets_mapTargets, List.mem_map]
    exact exists_congr fun t ↦ and_congr_right fun ht ↦
      h.skip_eq_iff hb hz (hb.targets v hvm t ht)
  constructor
  · intro htarget
    obtain ⟨w, hw, ht⟩ := htarget
    refine ⟨v, hv, hown.1 ?_⟩
    obtain hreached | he := (h.mem w.id).1 (Body.id_mem_ids hw)
    · have hwb := ((h.spares hb.coherent).mem_units hb.nodup hreached).1 hw
      exact absurd (hreached.target hb.coherent hwb ht) hz
    · have hstmt := (Body.stmt?_eq_some h.coherent.nodup).2 hw
      rw [he, hlast] at hstmt
      exact Option.some.inj hstmt ▸ ht
  · intro htrails
    obtain ⟨v', hv', htrails⟩ := htrails
    obtain rfl := Option.some.inj (hv.symm.trans hv')
    exact ⟨_, (Body.stmt?_eq_some h.coherent.nodup).1 hlast, hown.2 htrails⟩

theorem isTrapRef_iff : (∃ t ∈ e.traps, z ∈ t.refs) ↔
    ∃ t ∈ b.traps, b.Reached t.handler ∧ b.Trails t.last := by
  have hrefs {t : Trap} (ht : t ∈ b.traps) (hh : b.Reached t.handler) :
      z ∈ (t.mapRefs f).refs ↔ b.Trails t.last := by
    obtain ⟨p, q, hp, hq, -⟩ := hb.spans ht
    have hfirst := h.skip_eq_iff hb hz (List.mem_of_getElem? hp)
    have hlast := h.skip_eq_iff hb hz (List.mem_of_getElem? hq)
    have hhandler : ¬ z = f t.handler := by
      rw [h.fixed hh]
      rintro rfl
      exact hz hh
    simp only [Trap.refs, Trap.mapRefs, List.mem_cons, List.not_mem_nil, or_false, hhandler,
      eq_comm (a := z), hfirst, hlast]
    exact or_iff_right_of_imp (·.last hb ht)
  constructor
  · intro href
    obtain ⟨_, ht', hm⟩ := href
    obtain ⟨t, ht, hh, rfl⟩ := (h.mem_traps hb).1 ht'
    exact ⟨t, ht, hh, (hrefs ht hh).1 hm⟩
  · intro htrails
    obtain ⟨t, ht, hh, htrails⟩ := htrails
    exact ⟨_, (h.mem_traps hb).2 ⟨t, ht, hh, rfl⟩, (hrefs ht hh).2 htrails⟩

/-- The last unit is referred to in the end by itself or by the end of a trap. -/
theorem isReferenced_iff : e.isReferenced z = true ↔
    (∃ v, b.units.getLast? = some v ∧ ∃ t ∈ v.stmt.targets, b.Trails t) ∨
      ∃ t ∈ b.traps, b.Reached t.handler ∧ b.Trails t.last := by
  rw [← h.isTarget_iff hb hz, ← h.isTrapRef_iff hb hz]
  simp [Body.isReferenced, Body.isJumpTarget]

theorem isReferenced_of_strands (hs : b.Strands) : e.isReferenced z = true := by
  refine (h.isReferenced_iff hb hz).2 (hs.1.imp_right fun hbegins ↦ ?_)
  obtain ⟨t, ht, hh, htrails⟩ := hbegins
  exact ⟨t, ht, hh, htrails.last hb ht⟩

/-- Given that the last unit is referred to, it is stranded where no trap ends there that begins
before the units at the end. -/
theorem strands_iff (href : e.isReferenced z = true) : b.Strands ↔
    ∀ t ∈ b.traps, b.Reached t.handler → b.Trails t.last → b.Trails t.first := by
  refine and_iff_right_of_imp fun hends ↦ ?_
  refine ((h.isReferenced_iff hb hz).1 href).imp_right fun hlast ↦ ?_
  obtain ⟨t, ht, hh, htrails⟩ := hlast
  exact ⟨t, ht, hh, hends t ht hh htrails⟩

theorem exists_end_iff : (∃ t ∈ e.traps, t.last = z ∧ t.first ≠ t.last) ↔
    ∃ t ∈ b.traps, b.Reached t.handler ∧ b.Trails t.last ∧ ¬ b.Trails t.first := by
  have hends {t : Trap} (ht : t ∈ b.traps) :
      (f t.last = z ∧ f t.first ≠ f t.last) ↔ (b.Trails t.last ∧ ¬ b.Trails t.first) := by
    obtain ⟨p, q, hp, hq, -⟩ := hb.spans ht
    rw [← h.skip_eq_iff hb hz (List.mem_of_getElem? hp),
      ← h.skip_eq_iff hb hz (List.mem_of_getElem? hq)]
    exact and_congr_right fun he ↦ by rw [he]
  constructor
  · intro hend
    obtain ⟨_, ht', hm⟩ := hend
    obtain ⟨t, ht, hh, rfl⟩ := (h.mem_traps hb).1 ht'
    exact ⟨t, ht, hh, (hends ht).1 hm⟩
  · intro htrails
    obtain ⟨t, ht, hh, htrails⟩ := htrails
    exact ⟨_, (h.mem_traps hb).2 ⟨t, ht, hh, rfl⟩, (hends ht).2 htrails⟩

end

end Remnant

theorem mem_traps_revise (hb : b.Valid) : t ∈ (revise b).body.traps ↔
    t ∈ (swept b).body.traps ∧ t.first ≠ t.last := by
  rw [revise_eq_of_valid hb]
  change t ∈ (swept b).body.traps.filter _ ↔ _
  rw [List.mem_filter, Bool.not_eq_true', Bool.eq_false_iff, Ne]
  exact and_congr_right fun ht ↦ not_congr ((coherent_swept hb).isEmptyTrap_iff ht)

theorem units_revise (hb : b.Valid) : (revise b).body.units = (swept b).body.units := by
  rw [revise_eq_of_valid hb]
  rfl

theorem reached_revise_iff (hb : b.Valid) : (revise b).body.Reached u ↔ b.Reached u :=
  (spares_revise hb).reached_iff hb.coherent (valid_revise hb).coherent

theorem trimmed_of_reached (hb : b.Valid) (h : ∀ u ∈ (swept b).body.ids, b.Reached u) :
    (revise b).body.Trimmed := by
  intro v hv
  rw [reached_revise_iff hb]
  rw [units_revise hb] at hv
  exact .inl (h v.id (Body.id_mem_ids hv))

theorem trimmed_iff_exists_end (hb : b.Valid) (hz : ¬ b.Reached z)
    (hids : ∀ u, u ∈ (swept b).body.ids ↔ b.Reached u ∨ u = z) : (revise b).body.Trimmed ↔
      ∃ t ∈ (swept b).body.traps, t.last = z ∧ t.first ≠ t.last := by
  constructor
  · intro htrimmed
    obtain ⟨v, hv, rfl⟩ := Body.mem_ids.1 ((hids z).2 (.inr rfl))
    rw [← units_revise hb] at hv
    obtain ⟨-, -, t, ht, hend⟩ :=
      (htrimmed v hv).resolve_left fun hr ↦ hz ((reached_revise_iff hb).1 hr)
    obtain ⟨ht, hne⟩ := (mem_traps_revise hb).1 ht
    exact ⟨t, ht, hend, hne⟩
  · intro hend v hv
    obtain ⟨t, ht, hend, hne⟩ := hend
    rw [reached_revise_iff hb]
    refine or_iff_not_imp_left.2 fun hnot ↦ ?_
    obtain ⟨hlast, hnop⟩ := (reached_or_blank hb hv).resolve_left hnot
    refine ⟨hlast, hnop, t, (mem_traps_revise hb).2 ⟨ht, hne⟩, hend.trans ?_⟩
    rw [units_revise hb] at hv
    exact (((hids v.id).1 (Body.id_mem_ids hv)).resolve_left hnot).symm

theorem not_strands_of_last (hb : b.Valid) (hlast : b.ids.getLast? = some z) (hz : b.Reached z) :
    ¬ b.Strands := by
  intro hstrands
  obtain ⟨⟨v, hv, t, ht, htrails⟩ | ⟨t, ht, -, htrails⟩, -⟩ := hstrands
  · exact Body.not_trails hlast hz (hb.targets v (List.mem_of_getLast? hv) t ht) htrails
  · obtain ⟨p, -, hp, -⟩ := hb.spans ht
    exact Body.not_trails hlast hz (List.mem_of_getElem? hp) htrails

theorem trimmed_revise_iff (hb : b.Valid) : (revise b).body.Trimmed ↔ ¬ b.Strands := by
  obtain ⟨z, f, r, hrem, ⟨hz, he⟩ | ⟨hz, k, he⟩⟩ := exists_remnant hb
  · refine iff_of_true (trimmed_of_reached hb fun u hu ↦ ?_) (not_strands_of_last hb hrem.last hz)
    rw [he, hrem.mem] at hu
    exact hu.elim id (· ▸ hz)
  have hn := hrem.coherent.nodup
  have hlast := hrem.getLast? hb.nodup
  cases href : r.body.isReferenced z with
  | false =>
    refine iff_of_true (trimmed_of_reached hb fun u hu ↦ ?_) ?_
    · obtain ⟨p, hp, -, hbody⟩ := body_drop_unreferenced (k := k) hn hlast href
      rw [he, hbody, Body.mem_ids_removeAt hn hp, hrem.mem] at hu
      exact hu.1.resolve_right hu.2
    · exact fun hstrands ↦ absurd (hrem.isReferenced_of_strands hb hz hstrands) (by simp [href])
  | true =>
    have hids (u : UnitId) : u ∈ (swept b).body.ids ↔ b.Reached u ∨ u = z := by
      rw [he, body_drop_referenced hn hlast href, Body.ids_setStmt, hrem.mem]
    rw [trimmed_iff_exists_end hb hz hids, he, traps_drop hn hlast, hrem.exists_end_iff hb hz,
      hrem.strands_iff hb hz href]
    push Not
    rfl

theorem handlers_revise (hb : b.Valid) (ht : t ∈ (revise b).body.traps) : b.Reached t.handler := by
  obtain ⟨ht, -⟩ := (mem_traps_revise hb).1 ht
  obtain ⟨z, f, r, hrem, hswept⟩ := exists_remnant hb
  have htraps : (swept b).body.traps = r.body.traps := by
    obtain ⟨-, he⟩ | ⟨-, k, he⟩ := hswept
    · rw [he]
    · rw [he, traps_drop hrem.coherent.nodup (hrem.getLast? hb.nodup)]
  obtain ⟨t, -, hh, rfl⟩ := (hrem.mem_traps hb).1 (htraps ▸ ht)
  change b.Reached (f t.handler)
  rwa [hrem.fixed hh]

/-- An empty last unit strands nothing: it has no targets, and no trap begins there. -/
theorem not_strands_of_blank (hb : b.Valid) (hblank : ∀ v ∈ b.units, b.Reached v.id ∨
    b.units.getLast? = some v ∧ v.stmt = .nop) : ¬ b.Strands := by
  obtain ⟨z, hz⟩ : ∃ z, b.units.getLast? = some z :=
    ⟨_, List.getLast?_eq_some_getLast hb.nonempty⟩
  have hlast : b.ids.getLast? = some z.id := by
    rw [Body.getLast?_ids, hz, Option.map_some]
  obtain hreached | ⟨-, hnop⟩ := hblank z (List.mem_of_getLast? hz)
  · exact not_strands_of_last hb hlast hreached
  · intro hstrands
    obtain ⟨⟨v, hv, t, ht, -⟩ | ⟨t, ht, -, htrails⟩, -⟩ := hstrands
    · obtain rfl := Option.some.inj (hz.symm.trans hv)
      rw [hnop] at ht
      cases ht
    · obtain ⟨p, q, hp, hq, hlt⟩ := hb.spans ht
      obtain ⟨v, hv, hfirst⟩ := Body.mem_ids.1 (List.mem_of_getElem? hp)
      have hnot : ¬ b.Reached v.id := hfirst ▸ htrails.not_reached (List.mem_of_getElem? hp)
      obtain ⟨hvlast, -⟩ := (hblank v hv).resolve_left hnot
      obtain rfl := Option.some.inj (hz.symm.trans hvlast)
      have hend := Body.index_unique hb.nodup hp (hfirst ▸ Body.getElem?_last hlast)
      have hlt' := Body.lt_size_of_getElem? hq
      omega

theorem guarded_eq_self (hb : b.Coherent) (h : ∀ t ∈ b.traps, b.Reached t.handler) :
    guarded b = ⟨b, [], false⟩ := by
  have hnot (t : Trap) (ht : t ∈ b.traps) : t.handler ∉ (dead b).map (·.1) := fun hm ↦
    ((mem_dead_iff hb.nodup).1 hm).2 (h t ht)
  have hkept : b.traps.filter (fun t ↦ !((dead b).map (·.1)).contains t.handler) = b.traps :=
    List.filter_eq_self.2 fun t ht ↦ by simpa using hnot t ht
  have hgone : b.traps.filter (fun t ↦ ((dead b).map (·.1)).contains t.handler) = [] :=
    List.filter_eq_nil_iff.2 fun t ht ↦ by simpa using hnot t ht
  rw [guarded, dropHandlers, hkept, hgone]
  rfl

theorem foldl_drop_eq_self (l : List (UnitId × Nat)) (h : ∀ a ∈ l, drop r a.1 a.2 = r) :
    l.foldl (fun r (u, p) ↦ drop r u p) r = r := by
  induction l with
  | nil => rfl
  | cons a l ih =>
    change l.foldl (fun r (u, p) ↦ drop r u p) (drop r a.1 a.2) = r
    rw [h a List.mem_cons_self]
    exact ih fun a' ha' ↦ h a' (List.mem_cons_of_mem a ha')

theorem drop_eq_self {k : Nat} (hn : r.body.ids.Nodup) (hz : r.body.ids.getLast? = some z)
    (hs : r.body.stmt? z = some .nop) (href : r.body.isReferenced z = true) : drop r z k = r := by
  have hremovable : r.body.isRemovable z = false := by
    rw [isRemovable_last hn hz, href, Bool.not_true]
  simp [drop, hremovable, hs]

theorem revise_eq_self (hb : b.Valid) (hh : ∀ t ∈ b.traps, b.Reached t.handler)
    (htrimmed : b.Trimmed) : revise b = ⟨b, [], false⟩ := by
  have hswept : swept b = ⟨b, [], false⟩ := by
    have he : swept b = (dead b).foldl (fun r (u, p) ↦ drop r u p) (guarded b) := rfl
    rw [he, guarded_eq_self hb.coherent hh]
    refine foldl_drop_eq_self _ fun a ha ↦ ?_
    obtain ⟨hin, hnot⟩ := (mem_dead_iff hb.nodup).1 (List.mem_map_of_mem ha)
    obtain ⟨v, hv, hid⟩ := Body.mem_ids.1 hin
    obtain ⟨hlast, hnop, t, ht, hend⟩ := (htrimmed v hv).resolve_left (hid ▸ hnot)
    apply drop_eq_self hb.nodup
    · change b.ids.getLast? = some a.1
      rw [Body.getLast?_ids, hlast, Option.map_some, hid]
    · change b.stmt? a.1 = some .nop
      rw [← hid, (Body.stmt?_eq_some hb.nodup).2 hv, hnop]
    · change b.isReferenced a.1 = true
      rw [← hid, ← hend]
      simp only [Body.isReferenced, Bool.or_eq_true, List.any_eq_true, decide_eq_true_eq]
      exact .inr ⟨t, ht, by simp [Trap.refs]⟩
  rw [revise_eq_of_valid hb, hswept]
  exact Revision.dropEmptyTraps_eq_self hb

/-- Another run completes what the pass leaves, and has nothing to do exactly if this is
complete. -/
theorem revise_again (hb : b.Valid) : (revise (revise b).body).body.Trimmed ∧
    ((revise (revise b).body).body = (revise b).body ↔ (revise b).body.Trimmed) := by
  have hc := valid_revise hb
  have hagain : (revise (revise b).body).body.Trimmed := by
    refine (trimmed_revise_iff hc).2 (not_strands_of_blank hc fun v hv ↦ ?_)
    exact (reached_or_blank hb hv).imp_left (reached_revise_iff hb).2
  refine ⟨hagain, fun he ↦ he ▸ hagain, fun htrimmed ↦ ?_⟩
  rw [revise_eq_self hc (fun t ht ↦ (reached_revise_iff hb).2 (handlers_revise hb ht)) htrimmed]

end UnreachableUnits

namespace Pass

/-- The removal of unreached units leaves a valid body where control reaches every unit but perhaps
an empty one in last place. This is the end of a trap, and another run changes nothing and says so,
exactly if nothing was stranded. In any case that run leaves nothing to do for a third one. -/
theorem unreached_units_gone_iff (m : Signature) {b : Body} (hb : b.validate = .ok ()) :
    ∃ c notes changed, unreachableUnits.run m b = ⟨c, notes, .ok changed⟩ ∧ c.validate = .ok () ∧
      (∀ v ∈ c.units, c.Reached v.id ∨ c.units.getLast? = some v ∧ v.stmt = .nop) ∧
      (c.Trimmed ↔ ¬ b.Strands) ∧
      ((unreachableUnits.run m c).result = .ok false ↔ ¬ b.Strands) ∧
      ((unreachableUnits.run m c).body = c ↔ ¬ b.Strands) ∧
      ∃ d notes' changed', unreachableUnits.run m c = ⟨d, notes', .ok changed'⟩ ∧ d.Trimmed ∧
        unreachableUnits.run m d = ⟨d, [], .ok false⟩ := by
  have hv := Body.validate_eq_ok.1 hb
  have hc := UnreachableUnits.valid_revise hv
  have htrimmed := UnreachableUnits.trimmed_revise_iff hv
  obtain ⟨hagain, hsame⟩ := UnreachableUnits.revise_again hv
  have hmoved := (Revision.Steps.candid (UnreachableUnits.stable_isDead _) hc.nodup
    (UnreachableUnits.revise_steps hc.nodup)).moved
  refine ⟨_, _, _, rfl, Body.validate_eq_ok.2 hc, fun v hm ↦ ?_, htrimmed, ?_,
    hsame.trans htrimmed, _, _, _, rfl, hagain, ?_⟩
  · exact (UnreachableUnits.reached_or_blank hv hm).imp_left
      (UnreachableUnits.reached_revise_iff hv).2
  · rw [← htrimmed, ← hsame]
    simpa [unreachableUnits, Revision.finish] using not_congr hmoved
  · have hd := UnreachableUnits.valid_revise hc
    refine congrArg Revision.finish (UnreachableUnits.revise_eq_self hd (fun t ht ↦ ?_) hagain)
    exact (UnreachableUnits.reached_revise_iff hc).2 (UnreachableUnits.handlers_revise hc ht)

theorem unreached_units_gone_patchy : patchy.validate = .ok () ∧
    (unreachableUnits.run choosing patchy).body.Trimmed ∧
    (unreachableUnits.run choosing (unreachableUnits.run choosing patchy).body).result = .ok false ∧
    (unreachableUnits.run choosing (unreachableUnits.run choosing patchy).body).body =
      (unreachableUnits.run choosing patchy).body := by
  have hb : patchy.validate = .ok () := by decide +kernel
  have hn : patchy.ids.Nodup := by decide
  have hsearch : patchy.flowGraph.reachable = [0, 1, 3, 4, 6, 8] := by cbv
  have hreached (p : Nat) (u : UnitId) (hp : patchy.ids[p]? = some u) :
      patchy.Reached u ↔ p ∈ [0, 1, 3, 4, 6, 8] := by
    rw [Body.reached_iff_mem_reachable hn hp, hsearch]
  have hstrands : ¬ patchy.Strands := by
    intro h
    have hend : patchy.Trails ⟨9⟩ :=
      (Body.trails_last_iff hn rfl).2 (mt (hreached 9 ⟨9⟩ rfl).1 (by decide))
    have hbegin := h.2 ⟨⟨8⟩, ⟨9⟩, ⟨6⟩, .object "E"⟩ (by decide)
      ((hreached 6 ⟨6⟩ rfl).2 (by decide)) hend
    exact hbegin.not_reached (by decide) ((hreached 8 ⟨8⟩ rfl).2 (by decide))
  obtain ⟨c, notes, changed, hrun, -, -, htrimmed, hresult, hbody, -⟩ :=
    unreached_units_gone_iff choosing hb
  rw [hrun]
  exact ⟨hb, htrimmed.2 hstrands, hresult.2 hstrands, hbody.2 hstrands⟩

def selfJump : Body where
  units := [⟨⟨0⟩, .ret none⟩, ⟨⟨1⟩, .goto ⟨1⟩⟩]
  nextUnit := 2

def selfJumpBlanked : Body where
  units := [⟨⟨0⟩, .ret none⟩, ⟨⟨1⟩, .nop⟩]
  nextUnit := 2

/-- The goto is blanked and not removed, though no trap ends there. Another run removes it. -/
theorem unreached_unit_left_selfJump : selfJump.validate = .ok () ∧
    (unreachableUnits.run choosing selfJump).body = selfJumpBlanked ∧
    ¬ selfJumpBlanked.Trimmed ∧
    (unreachableUnits.run choosing selfJumpBlanked).result = .ok true ∧
    (unreachableUnits.run choosing selfJumpBlanked).body.ids = [⟨0⟩] := by
  refine ⟨by decide +kernel, by cbv, fun h ↦ ?_, by cbv, by cbv⟩
  obtain hreached | ⟨-, -, t, ht, -⟩ := h ⟨⟨1⟩, .nop⟩ (by decide)
  · have hsearch : selfJumpBlanked.flowGraph.reachable = [0] := by cbv
    rw [Body.reached_iff_mem_reachable (by decide) (p := 1) rfl, hsearch] at hreached
    simp at hreached
  · cases ht

end Pass

end ThreeAddress
