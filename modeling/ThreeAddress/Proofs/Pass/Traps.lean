import Mathlib.Data.List.TakeWhile
import ThreeAddress.Pass.TrapMerging
import ThreeAddress.Pass.TrapTightening
import ThreeAddress.Proofs.Candor
import ThreeAddress.Proofs.Readiness
import ThreeAddress.Proofs.Repetition

namespace ThreeAddress

theorem filterMap_eq_self_iff {α : Type} {f : α → Option α} {l : List α} :
    l.filterMap f = l ↔ ∀ a ∈ l, f a = some a := by
  induction l with
  | nil => simp
  | cons a l ih =>
    cases h : f a with
    | none =>
      have hle := List.length_filterMap_le f l
      have hne : l.filterMap f ≠ a :: l := by
        intro he
        rw [he, List.length_cons] at hle
        omega
      simp [h, hne]
    | some a' => simp [h, ih]

namespace TrapTightening

variable {b : Body} {t t' : Trap} {p q : Nat}

theorem mem_throwing (h : p ∈ throwing b t) : p < b.size ∧ b.covers t p = true := by
  obtain ⟨hp, ht⟩ := List.mem_filter.1 h
  rw [Bool.and_eq_true] at ht
  exact ⟨List.mem_range.1 hp, ht.1⟩

theorem throwing_bounds (hp : (throwing b t).head? = some p)
    (hq : (throwing b t).getLast? = some q) : ∀ k ∈ throwing b t, p ≤ k ∧ k ≤ q := by
  have hsorted : (throwing b t).Pairwise (· < ·) := List.pairwise_lt_range.filter _
  obtain ⟨rest, hr⟩ := List.head?_eq_some_iff.1 hp
  obtain ⟨init, hi⟩ := List.getLast?_eq_some_iff.1 hq
  intro k hk
  constructor
  · rw [hr] at hsorted hk
    rcases List.mem_cons.1 hk with rfl | hk
    · exact Nat.le_refl k
    · exact Nat.le_of_lt (List.rel_of_pairwise_cons hsorted hk)
  · rw [hi] at hsorted hk
    rcases List.mem_append.1 hk with hk | hk
    · exact Nat.le_of_lt ((List.pairwise_append.1 hsorted).2.2 k hk q (List.mem_singleton_self q))
    · exact Nat.le_of_eq (List.mem_singleton.1 hk)

theorem idAt_eq {u default : UnitId} (h : b.ids[p]? = some u) : idAt b p default = u := by
  rw [Body.getElem?_ids] at h
  rw [idAt, h, Option.getD_some]

/-- What is left of a trap begins at its first throwing unit, and ends after the last. -/
theorem tighten?_spec (hn : b.ids.Nodup) (h : tighten? b t = some (p, t')) :
    t'.handler = t.handler ∧ p ∈ throwing b t ∧ ∃ q ∈ throwing b t,
      (∀ k ∈ throwing b t, p ≤ k ∧ k ≤ q) ∧
      b.ids[p]? = some t'.first ∧ b.ids[q + 1]? = some t'.last := by
  unfold tighten? at h
  split at h
  · next p' q hp hq =>
    cases h
    obtain ⟨hps, -⟩ := mem_throwing (List.mem_of_head? hp)
    obtain ⟨-, hc⟩ := mem_throwing (List.mem_of_getLast? hq)
    obtain ⟨first, last, hspan, -, hlt⟩ := Body.covers_iff.1 hc
    have hlast := Body.lt_size_of_getElem? ((Body.trapSpan?_eq_some hn).1 hspan).2
    obtain ⟨v, hpi⟩ := Body.exists_id_of_lt hps
    obtain ⟨w, hqi⟩ : ∃ w, b.ids[q + 1]? = some w := Body.exists_id_of_lt (by omega)
    refine ⟨rfl, List.mem_of_head? hp, q, List.mem_of_getLast? hq, throwing_bounds hp hq, ?_, ?_⟩
    · rw [hpi, idAt_eq hpi]
    · rw [hqi, idAt_eq hqi]
  · simp at h

theorem guards_tighten? (hb : b.Valid) (ht : t ∈ b.traps) (h : tighten? b t = some (p, t')) :
    b.Guards t' := by
  obtain ⟨hh, hmem, q, -, hbounds, hp, hq⟩ := tighten?_spec hb.nodup h
  exact ⟨hh ▸ (hb.traps t ht).1, p, q + 1, hp, hq, Nat.lt_succ_of_le (hbounds p hmem).2⟩

def revision (b : Body) : Revision where
  body := { b with traps := b.traps.filterMap fun t ↦ (tighten? b t).map (·.2) }
  notes := b.traps.filterMap (note? b)
  changed := b.traps.any fun t ↦ (tighten? b t).map (·.2) ≠ some t

theorem run_of_spans (h : ∀ t ∈ b.traps, (b.trapSpan? t).isSome = true) :
    run b = (revision b).finish := by
  have hd : b.traps.dropWhile (fun t ↦ (b.trapSpan? t).isSome) = [] :=
    List.dropWhile_eq_nil_iff.2 h
  rw [run, hd]
  rfl

theorem ready_revision (hb : b.Ready) : (revision b).body.Ready := by
  refine hb.withTraps ?_
  intro t' ht'
  obtain ⟨t, ht, hm⟩ := List.mem_filterMap.1 ht'
  obtain ⟨⟨p, t''⟩, hp, he⟩ := Option.map_eq_some_iff.1 hm
  cases he
  exact guards_tighten? hb.valid ht hp

theorem note?_eq_none : note? b t = none ↔ (tighten? b t).map (·.2) = some t := by
  unfold note?
  cases h : tighten? b t with
  | none => simp
  | some pt => simp

theorem kind_note? {n : Note} (h : note? b t = some n) : n.kind.isChange = true := by
  unfold note? at h
  split at h
  · cases h
    rfl
  · split at h
    · simp at h
    · cases h
      rfl

theorem candid_revision (b : Body) : (revision b).Candid b := by
  have hchanged : (revision b).changed = false ↔
      ∀ t ∈ b.traps, (tighten? b t).map (·.2) = some t := by
    simp [revision]
  have hnotes : (revision b).notes = [] ↔
      ∀ t ∈ b.traps, (tighten? b t).map (·.2) = some t := by
    simp only [revision, List.filterMap_eq_nil_iff, note?_eq_none]
  have hbody : (revision b).body = b ↔
      ∀ t ∈ b.traps, (tighten? b t).map (·.2) = some t := by
    rw [← filterMap_eq_self_iff]
    refine ⟨congrArg Body.traps, fun ht ↦ ?_⟩
    simp only [revision, ht]
  refine ⟨?_, ?_, ?_⟩
  · intro n hn
    obtain ⟨t, -, ht⟩ := List.mem_filterMap.1 hn
    exact kind_note? ht
  · rw [← Bool.not_eq_false, not_iff_not, hchanged, hnotes]
  · rw [← Bool.not_eq_false, not_iff_not, hchanged, hbody]

theorem candid_run (b : Body) : (run b).Candid b := by
  by_cases h : ∀ t ∈ b.traps, (b.trapSpan? t).isSome = true
  · rw [run_of_spans h]
    exact (candid_revision b).finish
  · unfold run
    split
    · next hd => exact absurd (List.dropWhile_eq_nil_iff.1 hd) h
    · intro changed hok
      simp at hok

theorem units_run (b : Body) : (run b).body.units = b.units ∧
    (run b).body.nextUnit = b.nextUnit := by
  unfold run
  split <;> exact ⟨rfl, rfl⟩

end TrapTightening

namespace TrapMerging

variable {b : Body} {s t u : Trap} {between ts : List Trap} {i j p q : Nat} {r : Revision}

theorem repeated_eq (ts : List Trap) :
    repeated ts = (ts.zipIdx.filter fun q ↦ (ts.take q.2).contains q.1).map (·.1) := rfl

theorem repeated_concat (ts : List Trap) (t : Trap) :
    repeated (ts ++ [t]) = if t ∈ ts then repeated ts ++ [t] else repeated ts := by
  have hold : (ts.zipIdx.filter fun q ↦ ((ts ++ [t]).take q.2).contains q.1) =
      ts.zipIdx.filter fun q ↦ (ts.take q.2).contains q.1 := by
    refine List.filter_congr fun q hq ↦ ?_
    have hlt : q.2 < ts.length := by simpa using List.snd_lt_of_mem_zipIdx hq
    simp only [List.take_append_of_le_length (Nat.le_of_lt hlt)]
  simp only [repeated_eq, List.zipIdx_append, List.filter_append, hold]
  by_cases h : t ∈ ts <;> simp [h]

theorem length_eraseDups (ts : List Trap) :
    ts.eraseDups.length + (repeated ts).length = ts.length := by
  induction ts using List.reverseRecOn with
  | nil => rfl
  | append_singleton ts t ih =>
    rw [eraseDups_concat, repeated_concat]
    split <;> simp <;> omega

theorem dropRepeated_step {gone : CodeUnit → Prop} {put : Stmt → Prop} (r : Revision) :
    Revision.Step gone put r (dropRepeated r) := by
  refine .dropTraps r _ _ (eraseDups_sublist _) ?_ ?_
  · rw [List.length_map]
    exact length_eraseDups _
  · intro n hn
    obtain ⟨t, -, rfl⟩ := List.mem_map.1 hn
    rfl

/-- The union reaches from the earlier of the two beginnings to the later of the two ends. -/
theorem guards_union? (hs : b.Guards s) (ht : b.Guards t) (hn : b.ids.Nodup)
    (h : union? b s t between = some u) : b.Guards u := by
  obtain ⟨hh, p, q, hp, hq, hpq⟩ := hs
  obtain ⟨-, p', q', hp', hq', hpq'⟩ := ht
  have hs := (Body.trapSpan?_eq_some hn).2 ⟨hp, hq⟩
  have ht := (Body.trapSpan?_eq_some hn).2 ⟨hp', hq'⟩
  simp only [union?, hs, ht] at h
  split at h
  · split at h
    · simp at h
    split at h
    · simp at h
    cases h
    refine ⟨hh, min p p', max q q', ?_, ?_, by omega⟩
    · by_cases hle : p ≤ p'
      · simpa [hle] using hp
      · simpa [hle, Nat.le_of_not_le hle] using hp'
    · by_cases hle : q' ≤ q
      · simpa [hle] using hq
      · simpa [hle, Nat.le_of_not_le hle] using hq'
  · simp at h

theorem unionAt?_spec (h : unionAt? b i j = some (p, q, u)) : p = i ∧ q = j ∧ i < j ∧
    ∃ s t, b.traps[i]? = some s ∧ b.traps[j]? = some t ∧
      union? b s t ((b.traps.take j).drop (i + 1)) = some u := by
  unfold unionAt? at h
  split at h
  · next hij =>
    split at h
    · next s t hs ht =>
      obtain ⟨u', hu, he⟩ := Option.map_eq_some_iff.1 h
      cases he
      exact ⟨rfl, rfl, hij, s, t, hs, ht, hu⟩
    · simp at h
  · simp at h

theorem findUnion?_spec (h : findUnion? b = some (i, j, u)) : i < j ∧
    ∃ s t, b.traps[i]? = some s ∧ b.traps[j]? = some t ∧
      union? b s t ((b.traps.take j).drop (i + 1)) = some u := by
  obtain ⟨i', -, h⟩ := List.exists_of_findSome?_eq_some h
  obtain ⟨j', -, h⟩ := List.exists_of_findSome?_eq_some h
  obtain ⟨rfl, rfl, hu⟩ := unionAt?_spec h
  exact hu

theorem valid_mergeAll (hr : r.body.Valid) : (mergeAll r).body.Valid := by
  fun_induction mergeAll r with
  | case1 r h => exact hr
  | case2 r i j t h hlt ih =>
    refine ih (hr.withTraps ?_)
    obtain ⟨-, s, t', hs, ht', hu⟩ := findUnion?_spec h
    intro v hv
    rcases List.mem_or_eq_of_mem_set (List.mem_of_mem_eraseIdx hv) with hv | rfl
    · exact hr.guards hv
    · exact guards_union? (hr.guards (List.mem_of_getElem? hs))
        (hr.guards (List.mem_of_getElem? ht')) hr.nodup hu
  | case3 r i j t h hlt => exact hr

theorem pays_mergeAll (r : Revision) : ∃ new, Revision.Pays r (mergeAll r) new := by
  fun_induction mergeAll r with
  | case1 r h => exact ⟨[], .refl r⟩
  | case2 r i j t h hlt ih =>
    obtain ⟨new, hp⟩ := ih
    refine ⟨_, Revision.Pays.trans (.note rfl ?_) hp⟩
    simp only [Body.weight, List.length_eraseIdx, List.length_set, if_pos hlt]
    omega
  | case3 r i j t h hlt => exact ⟨[], .refl r⟩

theorem body_mergeAll (r : Revision) : (mergeAll r).body.units = r.body.units ∧
    (mergeAll r).body.nextUnit = r.body.nextUnit := by
  fun_induction mergeAll r with
  | case1 r h => exact ⟨rfl, rfl⟩
  | case2 r i j t h hlt ih => exact ih
  | case3 r i j t h hlt => exact ⟨rfl, rfl⟩

theorem valid_revise (hb : b.Valid) : (revise b).body.Valid := by
  have hdrop : (dropRepeated (⟨b, [], false⟩ : Revision).dropEmptyTraps).body.Valid := by
    refine hb.withTraps fun t ht ↦ hb.guards ?_
    exact List.mem_of_mem_filter (List.mem_eraseDups.1 ht)
  exact valid_mergeAll hdrop

theorem ready_revise (hb : b.Ready) : (revise b).body.Ready := by
  obtain ⟨hunits, hnext⟩ : (revise b).body.units = b.units ∧
      (revise b).body.nextUnit = b.nextUnit := body_mergeAll _
  refine ⟨valid_revise hb.valid, ?_, ?_⟩
  · rw [Body.Bounded, Body.ids, hunits, hnext]
    exact hb.bounded
  · rw [Body.Sealed, hunits]
    exact hb.end_sealed

theorem candid_revise (hn : b.ids.Nodup) : (revise b).Candid b := by
  have hstart : Revision.Steps (fun _ ↦ False) (fun _ ↦ False) ⟨b, [], false⟩
      (dropRepeated (⟨b, [], false⟩ : Revision).dropEmptyTraps) :=
    .tail (.single (Revision.dropEmptyTraps_step _)) (dropRepeated_step _)
  obtain ⟨new, hp⟩ := Revision.Steps.pays (fun _ _ ↦ Iff.rfl) hstart hn
  obtain ⟨new', hp'⟩ := pays_mergeAll (dropRepeated (⟨b, [], false⟩ : Revision).dropEmptyTraps)
  exact (Revision.candid_start b).pays (Nat.le_refl _) (hp.trans hp')

end TrapMerging

namespace Pass

theorem trapTightening_carries : trapTightening.Carries Body.Ready Body.Ready := by
  intro m b hb
  have hspans : ∀ t ∈ b.traps, (b.trapSpan? t).isSome = true := by
    intro t ht
    obtain ⟨-, p, q, hs, -⟩ := hb.valid.traps t ht
    rw [hs]
    rfl
  have hrun : trapTightening.run m b = (TrapTightening.revision b).finish :=
    TrapTightening.run_of_spans hspans
  rw [hrun]
  exact ⟨⟨_, rfl⟩, TrapTightening.ready_revision hb⟩

theorem trapTightening_candid : trapTightening.Candid :=
  fun _ b _ _ ↦ TrapTightening.candid_run b

theorem trapTightening_addsNoUnits : trapTightening.AddsNoUnits :=
  fun _ b _ ↦ .of_units (TrapTightening.units_run b).1 (TrapTightening.units_run b).2

theorem trapMerging_carries : trapMerging.Carries Body.Ready Body.Ready :=
  fun _ _ hb ↦ ⟨⟨_, rfl⟩, TrapMerging.ready_revise hb⟩

theorem trapMerging_candid : trapMerging.Candid :=
  fun _ _ hn _ ↦ (TrapMerging.candid_revise hn).finish

theorem trapMerging_addsNoUnits : trapMerging.AddsNoUnits :=
  fun _ _ _ ↦ .of_units (TrapMerging.body_mergeAll _).1 (TrapMerging.body_mergeAll _).2

end Pass

end ThreeAddress
