import ThreeAddress.Proofs.Pass.TrapDispatch

namespace ThreeAddress

namespace Body

variable {b : Body} {u : UnitId} {h : UnitId × Ty} {s t : Trap} {k : Nat}

/-- Two different traps of the clause overlap, and so do one of the clause and one of another. -/
def Contested (b : Body) (h : UnitId × Ty) : Prop :=
  (∃ u ∈ b.ids, ∃ s ∈ b.around u, ∃ t ∈ b.around u, s ≠ t ∧ s.clause = h ∧ t.clause = h) ∧
    ∃ u ∈ b.ids, h ∈ b.clauses u ∧ ∃ h' ∈ b.clauses u, h' ≠ h

instance : Decidable (b.Contested h) :=
  inferInstanceAs (Decidable (_ ∧ _))

/-- The units of two traps overlap or meet. -/
def Touch (b : Body) (s t : Trap) : Prop :=
  ∃ p q p' q', b.trapSpan? s = some (p, q) ∧ b.trapSpan? t = some (p', q') ∧ p ≤ q' ∧ p' ≤ q

theorem mem_around_of_covers (hn : b.ids.Nodup) (hk : b.ids[k]? = some u) (ht : t ∈ b.traps)
    (hc : b.covers t k = true) : t ∈ b.around u := by
  refine List.mem_filter.2 ⟨ht, ?_⟩
  rw [(position?_eq_some hn).2 hk, Option.any_some, hc]

theorem mem_ids_of_mem_around (hn : b.ids.Nodup) (ht : t ∈ b.around u) : u ∈ b.ids :=
  ((mem_around hn).1 ht).2.mem_ids

theorem Valid.mem_around_first (hb : b.Valid) (ht : t ∈ b.traps) : t ∈ b.around t.first := by
  obtain ⟨-, p, q, hspan, hlt⟩ := hb.traps t ht
  obtain ⟨hp, -⟩ := (trapSpan?_eq_some hb.nodup).1 hspan
  exact mem_around_of_covers hb.nodup hp ht (covers_iff.2 ⟨p, q, hspan, Nat.le_refl p, hlt⟩)

theorem touch_of_mem_around (hn : b.ids.Nodup) (hs : s ∈ b.around u) (ht : t ∈ b.around u) :
    b.Touch s t := by
  obtain ⟨i, k, j, hi, hk, hj, hik, hkj⟩ := ((mem_around hn).1 hs).2
  obtain ⟨i', k', j', hi', hk', hj', hik', hkj'⟩ := ((mem_around hn).1 ht).2
  obtain rfl := index_unique hn hk hk'
  exact ⟨i, j, i', j', (trapSpan?_eq_some hn).2 ⟨hi, hj⟩, (trapSpan?_eq_some hn).2 ⟨hi', hj'⟩,
    by omega, by omega⟩

theorem Condensed.mem_clauses {c : Body} (hc : b.Condensed c) :
    h ∈ c.clauses u ↔ h ∈ b.clauses u := by
  have hb : h ∈ b.dispatch u ↔ h ∈ b.clauses u := List.mem_eraseDups
  have hc' : h ∈ c.dispatch u ↔ h ∈ c.clauses u := List.mem_eraseDups
  rw [← hb, ← hc', hc.dispatch]

end Body

namespace TrapMerging

variable {b c : Body} {s t : Trap} {i j k : Nat} {h : UnitId × Ty} {r : Revision}

theorem union?_of_findUnion? (h : findUnion? c = none) (hij : i < j) (hs : c.traps[i]? = some s)
    (ht : c.traps[j]? = some t) : union? c s t ((c.traps.take j).drop (i + 1)) = none := by
  obtain ⟨hi, -⟩ := List.getElem?_eq_some_iff.1 hs
  obtain ⟨hj, -⟩ := List.getElem?_eq_some_iff.1 ht
  have hrow := List.findSome?_eq_none_iff.1 h i (List.mem_range.2 hi)
  have hcell := List.findSome?_eq_none_iff.1 hrow j (List.mem_range.2 hj)
  simpa [unionAt?, hij, hs, ht] using hcell

theorem exists_index_of_mem_between {ts : List Trap} (h : t ∈ (ts.take j).drop (i + 1)) :
    ∃ k, i < k ∧ k < j ∧ ts[k]? = some t := by
  obtain ⟨n, hn⟩ := List.mem_iff_getElem?.1 h
  rw [List.getElem?_drop, List.getElem?_take] at hn
  split at hn
  · next hlt => exact ⟨i + 1 + n, by omega, hlt, hn⟩
  · cases hn

/-- Where two traps of one clause touch and are not merged, a trap between them overlaps one of
them. -/
theorem exists_intruder (hc : c.Valid) (hnone : findUnion? c = none) (hij : i < j)
    (hs : c.traps[i]? = some s) (ht : c.traps[j]? = some t) (hclause : s.clause = t.clause)
    (htouch : c.Touch s t) : ∃ k v, i < k ∧ k < j ∧ c.traps[k]? = some v ∧
      ∃ u, v ∈ c.around u ∧ (s ∈ c.around u ∨ t ∈ c.around u) := by
  obtain ⟨p, q, p', q', hspan, hspan', hpq', hp'q⟩ := htouch
  obtain ⟨-, _, _, hst, hlt⟩ := hc.traps s (List.mem_of_getElem? hs)
  cases hspan.symm.trans hst
  obtain ⟨-, _, _, hst, hlt'⟩ := hc.traps t (List.mem_of_getElem? ht)
  cases hspan'.symm.trans hst
  have hblocked := union?_of_findUnion? hnone hij hs ht
  rw [union?_of_spans hclause hspan hspan', if_neg (by omega)] at hblocked
  obtain ⟨v, hv, hintrudes⟩ : ∃ v ∈ (c.traps.take j).drop (i + 1),
      intrudes c (min p p') (max q q') v = true := by
    by_contra hclear
    rw [if_neg (by simpa using hclear)] at hblocked
    cases hblocked
  obtain ⟨k, hik, hkj, hk⟩ := exists_index_of_mem_between hv
  obtain ⟨-, first, last, hvspan, hvlt⟩ := hc.traps v (List.mem_of_getElem? hk)
  rw [intrudes, hvspan, decide_eq_true_eq] at hintrudes
  -- the first position of the intruder that is in the union of the two
  obtain ⟨n, hn⟩ : ∃ n, n = max first (min p p') := ⟨_, rfl⟩
  have hvn : c.covers v n = true := by
    rw [covers_eq_decide hvspan, decide_eq_true_eq]
    omega
  have hstn : c.covers s n = true ∨ c.covers t n = true := by
    rw [covers_eq_decide hspan, covers_eq_decide hspan', decide_eq_true_eq, decide_eq_true_eq]
    omega
  have hsize := Body.lt_size_of_getElem? ((Body.trapSpan?_eq_some hc.nodup).1 hvspan).2
  obtain ⟨u, hu⟩ := Body.exists_id_of_lt (show n < c.size by
    rw [covers_eq_decide hvspan, decide_eq_true_eq] at hvn
    omega)
  have haround {w : Trap} {m : Nat} (hw : c.traps[m]? = some w) (hcovers : c.covers w n = true) :
      w ∈ c.around u :=
    Body.mem_around_of_covers hc.nodup hu (List.mem_of_getElem? hw) hcovers
  exact ⟨k, v, hik, hkj, hk, u, haround hk hvn, hstn.imp (haround hs) (haround ht)⟩

/-- Where all traps around a unit are of one clause, merging leaves no two of them. -/
theorem not_touch_of_unmixed (hc : c.Valid) (hnone : findUnion? c = none)
    (hunmixed : ∀ u, h ∈ c.clauses u → ∀ h' ∈ c.clauses u, h' = h) (hij : i < j)
    (hs : c.traps[i]? = some s) (ht : c.traps[j]? = some t) (hsh : s.clause = h)
    (hth : t.clause = h) : ¬ c.Touch s t := by
  -- on the distance of the two traps: what is between them is nearer to one of them
  induction hd : j - i using Nat.strong_induction_on generalizing i j s t with
  | _ d ih =>
    intro htouch
    obtain ⟨k, v, hik, hkj, hk, u, hv, hstu⟩ :=
      exists_intruder hc hnone hij hs ht (hsh.trans hth.symm) htouch
    have hmem {w : Trap} (hw : w ∈ c.around u) : w.clause ∈ c.clauses u := List.mem_map_of_mem hw
    have hh : h ∈ c.clauses u := hstu.elim (fun hs ↦ hsh ▸ hmem hs) fun ht ↦ hth ▸ hmem ht
    have hvh : v.clause = h := hunmixed u hh _ (hmem hv)
    obtain hsu | htu := hstu
    · exact ih (k - i) (by omega) hik hs hk hsh hvh rfl (Body.touch_of_mem_around hc.nodup hsu hv)
    · exact ih (j - k) (by omega) hkj hk ht hvh hth rfl (Body.touch_of_mem_around hc.nodup hv htu)

theorem findUnion?_mergeAll (r : Revision) : findUnion? (mergeAll r).body = none := by
  fun_induction mergeAll r with
  | case1 r h => exact h
  | case2 r i j t h hlt ih => exact ih
  | case3 r i j t h hlt =>
    obtain ⟨-, -, t, -, ht, -⟩ := findUnion?_spec h
    obtain ⟨hj, -⟩ := List.getElem?_eq_some_iff.1 ht
    exact absurd hj hlt

theorem length_mergeAll_le (r : Revision) :
    (mergeAll r).body.traps.length ≤ r.body.traps.length := by
  fun_induction mergeAll r with
  | case1 r h => exact Nat.le_refl _
  | case2 r i j t h hlt ih =>
    refine ih.trans ?_
    dsimp only [Revision.withNote]
    exact (List.length_eraseIdx_le _ _).trans (Nat.le_of_eq List.length_set)
  | case3 r i j t h hlt => exact Nat.le_refl _

theorem twice_sublist {α : Type} {l : List α} {a : α} (hij : i < j) (hi : l[i]? = some a)
    (hj : l[j]? = some a) : [a, a].Sublist l := by
  obtain ⟨before, after, hl, -⟩ := merge_eq hij hi hj a
  rw [hl]
  refine ((List.singleton_sublist.2 ?_).cons_cons a).trans (List.sublist_append_right _ _)
  simp

theorem exists_overlap {d : Body} (hd : d.traps.Nodup) (hdc : d.Condensed c) {u : UnitId}
    (htwice : [t, t].Sublist c.traps) (ht : t ∈ c.around u) :
    ∃ s ∈ d.around u, ∃ s' ∈ d.around u, s ≠ s' ∧ s.clause = t.clause ∧ s'.clause = t.clause := by
  have haround : [t, t].Sublist (c.around u) := by
    have hfilter := htwice.filter fun t ↦ (c.position? u).any (c.covers t)
    rwa [List.filter_eq_self.2 fun s hs ↦ ?_] at hfilter
    obtain rfl : s = t := by simpa using hs
    exact (List.mem_filter.1 ht).2
  have hclauses := (haround.map Trap.clause).trans (hdc.sublist u)
  obtain ⟨ss, hss, he⟩ := List.sublist_map_iff.1 hclauses
  obtain ⟨s, s', rfl⟩ : ∃ s s', ss = [s, s'] :=
    List.length_eq_two.1 (by simpa using (congrArg List.length he).symm)
  have hne : s ≠ s' := by simpa using (hd.filter _).sublist hss
  simp only [List.map_cons, List.map_nil, List.cons.injEq, and_true] at he
  exact ⟨s, hss.subset (by simp), s', hss.subset (by simp), hne, he.1.symm, he.2.symm⟩

/-- What merging leaves has no repetition, unless the clause of the trap was contested. -/
theorem nodup_revise (hb : b.Valid) (hfree : ∀ t ∈ b.traps, ¬ b.Contested t.clause) :
    (revise b).body.traps.Nodup := by
  have hc := valid_revise hb
  have hbc := condensed_revise b
  rw [List.nodup_iff_getElem?_ne_getElem?]
  intro i j hij hj he
  obtain ⟨t, htj⟩ : ∃ t, (revise b).body.traps[j]? = some t := ⟨_, List.getElem?_eq_getElem hj⟩
  have hti := he.trans htj
  have htu : t ∈ (revise b).body.around t.first :=
    hc.mem_around_first (List.mem_of_getElem? htj)
  obtain ⟨s, hs, hst⟩ := List.mem_map.1 (hbc.mem_clauses.1 (List.mem_map_of_mem htu))
  obtain hlone | hunmixed := not_and_or.1 (hfree s (List.mem_filter.1 hs).1)
  · have hsub {u : UnitId} {v : Trap}
        (hv : v ∈ (dropRepeated (⟨b, [], false⟩ : Revision).dropEmptyTraps).body.around u) :
        v ∈ b.around u := by
      obtain ⟨hv, hu⟩ := List.mem_filter.1 hv
      exact List.mem_filter.2 ⟨(List.mem_filter.1 (List.mem_eraseDups.1 hv)).1, hu⟩
    obtain ⟨v, hv, w, hw, hne, hvt, hwt⟩ := exists_overlap (nodup_eraseDups b.dropEmptyTraps.traps)
      (condensed_mergeAll (dropRepeated (⟨b, [], false⟩ : Revision).dropEmptyTraps))
      (twice_sublist hij hti htj) htu
    exact hlone ⟨t.first, Body.mem_ids_of_mem_around hb.nodup (hsub hv), v, hsub hv, w, hsub hw,
      hne, hvt.trans hst.symm, hwt.trans hst.symm⟩
  · refine not_touch_of_unmixed hc (findUnion?_mergeAll _) (fun u hu h' hh' ↦ ?_) hij hti htj
      hst.symm hst.symm (Body.touch_of_mem_around hc.nodup htu htu)
    by_contra hne
    have hub := hbc.mem_clauses.1 hu
    obtain ⟨v, hv, -⟩ := List.mem_map.1 hub
    exact hunmixed ⟨u, Body.mem_ids_of_mem_around hb.nodup hv, hub, h', hbc.mem_clauses.1 hh', hne⟩

theorem mergeAll_of_findUnion? (h : findUnion? r.body = none) : mergeAll r = r := by
  rw [mergeAll, h]

theorem revise_eq_self_iff (hc : c.Valid) (hnone : findUnion? c = none) :
    (revise c).body = c ↔ c.traps.Nodup := by
  have hdrop : (dropRepeated (⟨c, [], false⟩ : Revision).dropEmptyTraps).body =
      { c with traps := c.traps.eraseDups } := by
    conv_rhs => rw [← hc.dropEmptyTraps_eq_self]
    rfl
  rw [revise, ← eraseDups_eq_self_iff]
  constructor
  · intro he
    have hle := length_mergeAll_le (dropRepeated (⟨c, [], false⟩ : Revision).dropEmptyTraps)
    rw [he, hdrop] at hle
    exact (eraseDups_sublist c.traps).eq_of_length_le hle
  · intro he
    rw [he] at hdrop
    rw [mergeAll_of_findUnion? (hdrop ▸ hnone), hdrop]

end TrapMerging

namespace Pass

/-- Merging succeeds on a valid body. No trap that it leaves is empty, and between two equal ones is
one that overlaps them. Another run changes nothing, and says so, exactly if there are no two equal
traps, and there are none unless traps of one clause overlap each other and a trap of another. -/
theorem rerun_iff (m : Signature) {b : Body} (hb : b.validate = .ok ()) :
    ∃ c notes changed, trapMerging.run m b = ⟨c, notes, .ok changed⟩ ∧
      (∀ t ∈ c.traps, c.isEmptyTrap t = false) ∧
      (∀ (i j : Nat) t, i < j → c.traps[i]? = some t → c.traps[j]? = some t →
        ∃ (k : Nat) (v : Trap), i < k ∧ k < j ∧ c.traps[k]? = some v ∧
          ∃ u, v ∈ c.around u ∧ t ∈ c.around u) ∧
      ((trapMerging.run m c).result = .ok false ↔ c.traps.Nodup) ∧
      ((trapMerging.run m c).body = c ↔ c.traps.Nodup) ∧
      ((∀ t ∈ b.traps, ¬ b.Contested t.clause) → c.traps.Nodup) := by
  have hv := Body.validate_eq_ok.1 hb
  have hc := TrapMerging.valid_revise hv
  have hnone : TrapMerging.findUnion? (TrapMerging.revise b).body = none :=
    TrapMerging.findUnion?_mergeAll _
  have hself := TrapMerging.revise_eq_self_iff hc hnone
  have hmoved := (TrapMerging.candid_revise hc.nodup).moved
  refine ⟨_, _, _, rfl, fun t ht ↦ ?_, fun i j t hij hi hj ↦ ?_, ?_, hself,
    TrapMerging.nodup_revise hv⟩
  · obtain ⟨-, p, q, hspan, hlt⟩ := hc.traps t ht
    simpa [Body.isEmptyTrap, hspan] using hlt
  · have htu := hc.mem_around_first (List.mem_of_getElem? hi)
    obtain ⟨k, v, hik, hkj, hk, u, hvu, hu⟩ := TrapMerging.exists_intruder hc hnone hij hi hj rfl
      (Body.touch_of_mem_around hc.nodup htu htu)
    exact ⟨k, v, hik, hkj, hk, u, hvu, hu.elim id id⟩
  · rw [← hself]
    simpa [trapMerging, Revision.finish] using not_congr hmoved

def twoCallsUnmixed : Body :=
  { twoCallsBody with traps := twoCallsBody.traps.filter (·.handler = ⟨3⟩) }

theorem rerun_iff_twoCallsUnmixed :
    (twoCallsUnmixed.validate = .ok () ∧
      ∀ t ∈ twoCallsUnmixed.traps, ¬ twoCallsUnmixed.Contested t.clause) ∧
    ∃ c notes changed, trapMerging.run twoCalls twoCallsUnmixed = ⟨c, notes, .ok changed⟩ ∧
      c.traps.Nodup ∧ (trapMerging.run twoCalls c).result = .ok false ∧
      (trapMerging.run twoCalls c).body = c := by
  have hb : twoCallsUnmixed.validate = .ok () := by decide +kernel
  have hfree : ∀ t ∈ twoCallsUnmixed.traps, ¬ twoCallsUnmixed.Contested t.clause := by decide
  obtain ⟨c, notes, changed, hrun, -, -, hresult, hbody, hnodup⟩ := rerun_iff twoCalls hb
  exact ⟨⟨hb, hfree⟩, c, notes, changed, hrun, hnodup hfree, hresult.2 (hnodup hfree),
    hbody.2 (hnodup hfree)⟩

/-- The two traps that meet become equal to the fourth one when they are merged. The trap between
keeps these two apart, and another run drops the second. -/
theorem repeated_twoCalls : twoCallsBody.validate = .ok () ∧
    ¬ (trapMerging.run twoCalls twoCallsBody).body.traps.Nodup ∧
    (trapMerging.run twoCalls (trapMerging.run twoCalls twoCallsBody).body).result = .ok true ∧
    (trapMerging.run twoCalls (trapMerging.run twoCalls twoCallsBody).body).body ≠
      (trapMerging.run twoCalls twoCallsBody).body := by
  exact ⟨by decide +kernel, by decide_cbv, by decide_cbv, by decide_cbv⟩

end Pass

end ThreeAddress
