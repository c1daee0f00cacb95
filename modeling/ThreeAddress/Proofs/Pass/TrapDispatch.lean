import ThreeAddress.Proofs.Body.Coverage
import ThreeAddress.Proofs.Pass.Traps

namespace ThreeAddress

namespace Body

variable {b c d : Body} {u : UnitId} {s : Stmt} {t : Trap} {k : Nat}

/-- What may become of an exception that a unit throws: the clauses of the traps around it, in trap
order, each where it comes first. -/
def dispatch (b : Body) (u : UnitId) : List (UnitId × Ty) := (b.clauses u).eraseDups

structure Condensed (b c : Body) : Prop where
  sublist : ∀ u, (c.clauses u).Sublist (b.clauses u)
  dispatch : ∀ u, c.dispatch u = b.dispatch u

theorem Condensed.refl (b : Body) : Condensed b b := ⟨fun _ ↦ .refl _, fun _ ↦ rfl⟩

theorem Condensed.trans (h : Condensed b c) (h' : Condensed c d) : Condensed b d :=
  ⟨fun u ↦ (h'.sublist u).trans (h.sublist u), fun u ↦ (h'.dispatch u).trans (h.dispatch u)⟩

theorem condensed_dropEmptyTraps (b : Body) : Condensed b b.dropEmptyTraps := by
  exact ⟨fun u ↦ b.clauses_dropEmptyTraps u ▸ .refl _,
    fun u ↦ congrArg _ (b.clauses_dropEmptyTraps u)⟩

theorem trapSpan?_iff {p q : Nat} : b.trapSpan? t = some (p, q) ↔
    b.position? t.first = some p ∧ b.position? t.last = some q := by
  cases hf : b.position? t.first <;> cases hl : b.position? t.last <;> simp [trapSpan?, hf, hl]

end Body

namespace TrapMerging

variable {b : Body} {u : UnitId} {s t w : Trap} {between ts : List Trap} {i j k : Nat}
  {test : Trap → Bool} {r : Revision}

theorem clauses_eraseDups (ts : List Trap) (test : Trap → Bool) :
    ((ts.eraseDups.filter test).map Trap.clause).eraseDups =
      ((ts.filter test).map Trap.clause).eraseDups := by
  induction ts using List.reverseRecOn with
  | nil => rfl
  | append_singleton ts t ih =>
    rw [List.filter_append, List.map_append, eraseDups_concat]
    split
    · next hmem =>
      rw [ih]
      cases ht : test t with
      | false => simp [ht]
      | true =>
        have hclause : t.clause ∈ (ts.filter test).map Trap.clause :=
          List.mem_map_of_mem (List.mem_filter.2 ⟨hmem, ht⟩)
        have hconcat := eraseDups_concat ((ts.filter test).map Trap.clause) t.clause
        rw [if_pos hclause] at hconcat
        simpa [ht] using hconcat.symm
    · rw [List.filter_append, List.map_append]
      exact eraseDups_append_congr ih _

theorem condensed_dropRepeated (r : Revision) : r.body.Condensed (dropRepeated r).body where
  sublist _ := ((eraseDups_sublist r.body.traps).filter _).map _
  dispatch _ := clauses_eraseDups _ _

theorem union?_of_spans {p q p' q' : Nat} (hc : s.clause = t.clause)
    (hs : b.trapSpan? s = some (p, q)) (ht : b.trapSpan? t = some (p', q')) :
    union? b s t between = if q' < p ∨ q < p' then none
      else if between.any (intrudes b (min p p') (max q q')) then none
      else some { s with
        first := if p ≤ p' then s.first else t.first
        last := if q' ≤ q then s.last else t.last } := by
  rw [union?, if_pos ⟨congrArg Prod.fst hc, congrArg Prod.snd hc⟩, hs, ht]

theorem spans_of_union? (h : union? b s t between = some w) : s.clause = t.clause ∧
    ∃ p q p' q', b.trapSpan? s = some (p, q) ∧ b.trapSpan? t = some (p', q') := by
  unfold union? at h
  split at h
  next hsame =>
    split at h
    next p q p' q' hs ht => exact ⟨Prod.ext hsame.1 hsame.2, p, q, p', q', hs, ht⟩
    next => simp at h
  next => simp at h

/-- What the two traps cover is one range, which no trap in between covers any unit of. -/
theorem union?_spec (h : union? b s t between = some w) : s.clause = t.clause ∧
    w.clause = s.clause ∧ ∃ p q p' q', b.trapSpan? s = some (p, q) ∧ b.trapSpan? t = some (p', q') ∧
      p ≤ q' ∧ p' ≤ q ∧ b.trapSpan? w = some (min p p', max q q') ∧
      ∀ v ∈ between, intrudes b (min p p') (max q q') v = false := by
  obtain ⟨hc, p, q, p', q', hs, ht⟩ := spans_of_union? h
  rw [union?_of_spans hc hs ht] at h
  split at h
  next => simp at h
  next htouch =>
    split at h
    next => simp at h
    next hclear =>
      obtain ⟨hp, hq⟩ := Body.trapSpan?_iff.1 hs
      obtain ⟨hp', hq'⟩ := Body.trapSpan?_iff.1 ht
      cases h
      refine ⟨hc, rfl, p, q, p', q', hs, ht, by omega, by omega, Body.trapSpan?_iff.2 ⟨?_, ?_⟩,
        by simpa using hclear⟩
      · dsimp only
        split
        next hle => rw [Nat.min_eq_left hle, hp]
        next hlt => rw [Nat.min_eq_right (Nat.le_of_not_le hlt), hp']
      · dsimp only
        split
        next hle => rw [Nat.max_eq_left hle, hq]
        next hlt => rw [Nat.max_eq_right (Nat.le_of_not_le hlt), hq']

theorem covers_eq_decide {p q : Nat} (ht : b.trapSpan? t = some (p, q)) (k : Nat) :
    b.covers t k = decide (p ≤ k ∧ k < q) := by
  rw [Body.covers, ht]

theorem covers_of_intrudes {p q : Nat} (h : intrudes b p q t = false) (hp : p ≤ k) (hq : k < q) :
    b.covers t k = false := by
  unfold intrudes at h
  split at h
  · next p' q' ht =>
    rw [decide_eq_false_iff_not] at h
    rw [covers_eq_decide ht, decide_eq_false_iff_not]
    omega
  · simp at h

/-- The union of two traps covers what they cover, and no trap in between covers any of it. -/
theorem covers_union? (h : union? b s t between = some w) :
    (∀ k, b.covers w k = (b.covers s k || b.covers t k)) ∧
    ∀ v ∈ between, ∀ k, b.covers w k = true → b.covers v k = false := by
  obtain ⟨-, -, p, q, p', q', hs, ht, hpq', hp'q, hw, hclear⟩ := union?_spec h
  constructor
  · intro k
    rw [covers_eq_decide hw, covers_eq_decide hs, covers_eq_decide ht, Bool.eq_iff_iff]
    simp only [Bool.or_eq_true, decide_eq_true_eq]
    omega
  · intro v hv k hk
    rw [covers_eq_decide hw, decide_eq_true_eq] at hk
    exact covers_of_intrudes (hclear v hv) hk.1 hk.2

theorem split_at {α : Type} {l : List α} {a : α} (h : l[k]? = some a) :
    l = l.take k ++ a :: l.drop (k + 1) := by
  obtain ⟨hk, rfl⟩ := List.getElem?_eq_some_iff.1 h
  rw [List.getElem_cons_drop, List.take_append_drop]

/-- A list with two of its members in view, before and after the later one gives way to a change of
the earlier one. -/
theorem merge_eq {α : Type} {l : List α} {x y : α} (hij : i < j) (hx : l[i]? = some x)
    (hy : l[j]? = some y) (z : α) :
    ∃ before after, l = before ++ x :: ((l.take j).drop (i + 1) ++ y :: after) ∧
      (l.set i z).eraseIdx j = before ++ z :: ((l.take j).drop (i + 1) ++ after) := by
  have hx' : (l.take j)[i]? = some x := by rw [List.getElem?_take_of_lt hij, hx]
  obtain ⟨hi, -⟩ := List.getElem?_eq_some_iff.1 hx'
  refine ⟨(l.take j).take i, l.drop (j + 1), ?_, ?_⟩
  · calc l = l.take j ++ y :: l.drop (j + 1) := split_at hy
      _ = _ := by rw [← List.cons_append, ← List.append_assoc, ← split_at hx']
  · rw [List.eraseIdx_eq_take_drop_succ, List.take_set, List.drop_set_of_lt (by omega),
      List.set_eq_take_append_cons_drop, if_pos hi, List.append_assoc, List.cons_append]

/-- Where a trap gives way to a wider one before it, only clauses that come a second time go. -/
theorem clauses_merge (test : Trap → Bool) (before after : List Trap) (hst : s.clause = t.clause)
    (hws : w.clause = s.clause) (hw : test w = (test s || test t))
    (hbetween : test w = true → ∀ v ∈ between, test v = false) :
    (((before ++ w :: (between ++ after)).filter test).map Trap.clause).Sublist
      (((before ++ s :: (between ++ t :: after)).filter test).map Trap.clause) ∧
    (((before ++ w :: (between ++ after)).filter test).map Trap.clause).eraseDups =
      (((before ++ s :: (between ++ t :: after)).filter test).map Trap.clause).eraseDups := by
  cases hwt : test w with
  | false =>
    obtain ⟨hs, ht⟩ := Bool.or_eq_false_iff.1 (hw.symm.trans hwt)
    simp [hwt, hs, ht]
  | true =>
    have hnone : between.filter test = [] :=
      List.filter_eq_nil_iff.2 fun v hv ↦ by simp [hbetween hwt v hv]
    cases hs : test s with
    | false =>
      have ht : test t = true := by simpa [hwt, hs] using hw.symm
      simp [hwt, hs, ht, hnone, hws, hst]
    | true =>
      cases ht : test t with
      | false => simp [hwt, hs, ht, hnone, hws]
      | true =>
        simp only [List.filter_append, List.filter_cons_of_pos, hwt, hs, ht, hnone, List.map_append,
          List.map_cons, hws, hst, List.nil_append]
        refine ⟨((List.sublist_cons_self ..).cons_cons _).append_left _, ?_⟩
        have htwice : t.clause ∈ (before.filter test).map Trap.clause ++ [t.clause] := by simp
        simpa using (eraseDups_append_cons htwice).symm

theorem condensed_merge {b : Body} (h : findUnion? b = some (i, j, w)) :
    b.Condensed { b with traps := (b.traps.set i w).eraseIdx j } := by
  obtain ⟨hij, s, t, hs, ht, hu⟩ := findUnion?_spec h
  obtain ⟨hst, hws, -⟩ := union?_spec hu
  obtain ⟨hcovers, hclear⟩ := covers_union? hu
  obtain ⟨before, after, hold, hnew⟩ := merge_eq hij hs ht w
  have hkey (u : UnitId) := clauses_merge (fun t ↦ (b.position? u).any (b.covers t)) before after
    hst hws
    (by cases b.position? u <;> simp [hcovers])
    (by
      cases b.position? u with
      | none => simp
      | some k => exact fun hk v hv ↦ hclear v hv k hk)
  rw [← hold, ← hnew] at hkey
  exact ⟨fun u ↦ (hkey u).1, fun u ↦ (hkey u).2⟩

theorem condensed_mergeAll (r : Revision) : r.body.Condensed (mergeAll r).body := by
  fun_induction mergeAll r with
  | case1 r h => exact .refl r.body
  | case2 r i j t h hlt ih => exact (condensed_merge h).trans ih
  | case3 r i j t h hlt => exact .refl r.body

theorem condensed_revise (b : Body) : b.Condensed (revise b).body :=
  ((Body.condensed_dropEmptyTraps b).trans
    (condensed_dropRepeated (⟨b, [], false⟩ : Revision).dropEmptyTraps)).trans
    (condensed_mergeAll _)

end TrapMerging

namespace TrapTightening

variable {b : Body} {u : UnitId} {s : Stmt} {t t' : Trap} {p k : Nat}

theorem clause_tighten? (h : tighten? b t = some (p, t')) : t'.clause = t.clause := by
  unfold tighten? at h
  split at h
  · cases h
    rfl
  · simp at h

theorem covers_of_tighten? (hn : b.ids.Nodup) (h : tighten? b t = some (p, t'))
    (hk : b.covers t' k = true) : b.covers t k = true := by
  obtain ⟨-, hp, q, hq, -, hfirst, hlast⟩ := tighten?_spec hn h
  obtain ⟨first, last, hspan, hle, -⟩ := Body.covers_iff.1 (mem_throwing hp).2
  obtain ⟨first', last', hspan', -, hlt⟩ := Body.covers_iff.1 (mem_throwing hq).2
  cases hspan.symm.trans hspan'
  rw [TrapMerging.covers_eq_decide ((Body.trapSpan?_eq_some hn).2 ⟨hfirst, hlast⟩),
    decide_eq_true_eq] at hk
  exact Body.covers_iff.2 ⟨first, last, hspan, by omega, by omega⟩

theorem exists_tighten? (hn : b.ids.Nodup) (hk : k ∈ throwing b t) :
    ∃ p t', tighten? b t = some (p, t') ∧ b.covers t' k = true := by
  have hne : throwing b t ≠ [] := List.ne_nil_of_mem hk
  obtain ⟨⟨p, t'⟩, h⟩ : ∃ r, tighten? b t = some r := by
    rw [tighten?, List.head?_eq_some_head hne, List.getLast?_eq_some_getLast hne]
    exact ⟨_, rfl⟩
  obtain ⟨-, -, q, -, hbounds, hfirst, hlast⟩ := tighten?_spec hn h
  have hspan := (Body.trapSpan?_eq_some hn).2 ⟨hfirst, hlast⟩
  exact ⟨p, t', h, Body.covers_iff.2
    ⟨p, q + 1, hspan, (hbounds k hk).1, Nat.lt_succ_of_le (hbounds k hk).2⟩⟩

/-- Where what passes the test comes to something that does, and nothing else does, a list shows no
difference behind the test. -/
theorem map_filter_filterMap {α β : Type} {f : α → Option α} {test : α → Bool} {g : α → β}
    {l : List α}
    (hkeep : ∀ a ∈ l, test a = true → ∃ a', f a = some a' ∧ test a' = true ∧ g a' = g a)
    (hdrop : ∀ a ∈ l, ∀ a', f a = some a' → test a' = true → test a = true) :
    ((l.filterMap f).filter test).map g = (l.filter test).map g := by
  induction l with
  | nil => rfl
  | cons a l ih =>
    have ih := ih (fun a ha ↦ hkeep a (List.mem_cons_of_mem _ ha))
      fun a ha ↦ hdrop a (List.mem_cons_of_mem _ ha)
    cases ht : test a with
    | true =>
      obtain ⟨a', ha, ht', hg⟩ := hkeep a List.mem_cons_self ht
      simp [ha, ht, ht', hg, ih]
    | false =>
      cases ha : f a with
      | none => simpa [ha, ht] using ih
      | some a' =>
        have ht' : test a' = false := by
          simpa [ht] using hdrop a List.mem_cons_self a' ha
        simpa [ha, ht, ht'] using ih

theorem clauses_revision (hn : b.ids.Nodup) (hs : b.stmt? u = some s) (hthrow : s.mayThrow = true) :
    (revision b).body.clauses u = b.clauses u := by
  obtain ⟨k, hk⟩ := List.getElem?_of_mem (Body.mem_ids_of_stmt? hs)
  have hat : b.stmtAt? k = some s := (Body.stmt?_of_id hn hk).symm.trans hs
  have hpos : b.position? u = some k := (Body.position?_eq_some hn).2 hk
  have hclauses (c : Body) (hc : c.units = b.units) :
      c.clauses u = (c.traps.filter fun t ↦ b.covers t k).map Trap.clause := by
    have hi : c.ids = b.ids := by rw [Body.ids, hc, Body.ids]
    simp only [Body.clauses, Body.around, Body.position?_congr hi, Body.covers_congr hi, hpos,
      Option.any_some]
  rw [hclauses b rfl, hclauses (revision b).body rfl]
  refine map_filter_filterMap (fun t _ ht ↦ ?_) fun t _ t' ht' hc ↦ ?_
  · have hmem : k ∈ throwing b t := by
      refine List.mem_filter.2 ⟨List.mem_range.2 (Body.lt_size_of_getElem? hk), ?_⟩
      simp [ht, hat, hthrow]
    obtain ⟨p, t', hp, hc⟩ := exists_tighten? hn hmem
    exact ⟨t', by rw [hp, Option.map_some], hc, clause_tighten? hp⟩
  · obtain ⟨⟨p, _⟩, hp, rfl⟩ := Option.map_eq_some_iff.1 ht'
    exact covers_of_tighten? hn hp hc

end TrapTightening

namespace Pass

/-- Merging traps and tightening them leave the units alone, and leave what may become of the
exceptions that these throw: of those of any unit the one, and of those of a unit that may throw the
other. -/
theorem dispatch_kept (m : Signature) {b : Body} (hb : b.validate = .ok ()) :
    ((∃ changed, (trapMerging.run m b).result = .ok changed) ∧
      (trapMerging.run m b).body.units = b.units ∧
      ∀ u, (trapMerging.run m b).body.dispatch u = b.dispatch u) ∧
    (∃ changed, (trapTightening.run m b).result = .ok changed) ∧
    (trapTightening.run m b).body.units = b.units ∧
    ∀ u s, b.stmt? u = some s → s.mayThrow = true →
      (trapTightening.run m b).body.dispatch u = b.dispatch u := by
  have hv := Body.validate_eq_ok.1 hb
  have hspans : ∀ t ∈ b.traps, (b.trapSpan? t).isSome = true := by
    intro t ht
    obtain ⟨-, p, q, hs, -⟩ := hv.traps t ht
    rw [hs, Option.isSome_some]
  have hrun : trapTightening.run m b = (TrapTightening.revision b).finish :=
    TrapTightening.run_of_spans hspans
  have hcondensed := TrapMerging.condensed_revise b
  refine ⟨⟨⟨_, rfl⟩, (TrapMerging.body_mergeAll _).1, hcondensed.dispatch⟩, ?_⟩
  rw [hrun]
  refine ⟨⟨_, rfl⟩, rfl, fun u s hs hthrow ↦ ?_⟩
  exact congrArg List.eraseDups (TrapTightening.clauses_revision hv.nodup hs hthrow)

def twoCalls : Signature where
  declaringType := "A"
  name := "m"
  isStatic := true
  parameters := []
  returnType := .void

def guardedCall (name : String) : Stmt := .invoke ⟨.static, ⟨"A", name, [], .void⟩, none, []⟩

/-- Its body: two calls under two traps that meet, a third trap for the exceptions that these let
pass from the first call, and a fourth over both calls. -/
def twoCallsBody : Body where
  units :=
    [⟨⟨0⟩, guardedCall "f"⟩, ⟨⟨1⟩, .nop⟩, ⟨⟨2⟩, guardedCall "g"⟩, ⟨⟨3⟩, .ret none⟩,
      ⟨⟨4⟩, .ret none⟩]
  traps := [⟨⟨0⟩, ⟨1⟩, ⟨3⟩, .object "E"⟩, ⟨⟨1⟩, ⟨3⟩, ⟨3⟩, .object "E"⟩,
    ⟨⟨0⟩, ⟨1⟩, ⟨4⟩, .object "F"⟩, ⟨⟨0⟩, ⟨3⟩, ⟨3⟩, .object "E"⟩]
  nextUnit := 5

/-- An exception of the first call goes to one of two handlers, before and after. -/
theorem dispatch_kept_twoCalls :
    (twoCallsBody.validate = .ok () ∧
      twoCallsBody.stmt? ⟨0⟩ = some (guardedCall "f") ∧ (guardedCall "f").mayThrow = true) ∧
    (trapMerging.run twoCalls twoCallsBody).body.dispatch ⟨0⟩ =
      [(⟨3⟩, .object "E"), (⟨4⟩, .object "F")] ∧
    (trapTightening.run twoCalls twoCallsBody).body.dispatch ⟨0⟩ =
      [(⟨3⟩, .object "E"), (⟨4⟩, .object "F")] := by
  have hb : twoCallsBody.validate = .ok () := by decide +kernel
  have hbefore : twoCallsBody.dispatch ⟨0⟩ = [(⟨3⟩, .object "E"), (⟨4⟩, .object "F")] := by decide
  obtain ⟨⟨-, -, hmerged⟩, -, -, htight⟩ := dispatch_kept twoCalls hb
  exact ⟨⟨hb, rfl, rfl⟩, (hmerged ⟨0⟩).trans hbefore, (htight ⟨0⟩ _ rfl rfl).trans hbefore⟩

end Pass

end ThreeAddress
