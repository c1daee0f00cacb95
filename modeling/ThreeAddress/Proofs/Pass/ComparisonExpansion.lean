import ThreeAddress.Proofs.Body.Motion
import ThreeAddress.Proofs.Pass.StoredComparisons

namespace ThreeAddress

namespace Body

variable {b c d : Body} {f g : UnitId → UnitId} {keep done : UnitId → Prop} {u w : UnitId}
  {place : Place} {cond : Comparison} {next : UnitId} {ts : List Trap} {n : Nat}

/-- From `n` on stand the branch, the two stores and the goto between them, inside the given traps,
and control leaves them for `next`. -/
structure Diamond (c : Body) (n : Nat) (place : Place) (cond : Comparison) (next : UnitId)
    (ts : List Trap) : Prop where
  test : c.stmt? ⟨n⟩ = some (.branch cond ⟨n + 3⟩)
  whenFalse : c.stmt? ⟨n + 1⟩ = some (.assign place (.value (.const (.bool false))))
  leave : c.stmt? ⟨n + 2⟩ = some (.goto next)
  whenTrue : c.stmt? ⟨n + 3⟩ = some (.assign place (.value (.const (.bool true))))
  row : ∀ i < 3, c.successor? ⟨n + i⟩ = some ⟨n + i + 1⟩
  last : c.successor? ⟨n + 3⟩ = some next
  around : ∀ i < 4, c.around ⟨n + i⟩ = ts

theorem Diamond.moved (h : c.Diamond n place cond next ts) (hm : Moved keep g c d)
    (hk : ∀ i < 4, keep ⟨n + i⟩) (hg : ∀ i < 4, g ⟨n + i⟩ = ⟨n + i⟩) :
    d.Diamond n place cond (g next) (ts.map (·.mapRefs g)) where
  test := by
    rw [hm.stmt ⟨n⟩ (hk 0 (by omega)), h.test, Option.map_some, Stmt.mapTargets, hg 3 (by omega)]
  whenFalse := by
    rw [hm.stmt _ (hk 1 (by omega)), h.whenFalse]
    rfl
  leave := by
    rw [hm.stmt _ (hk 2 (by omega)), h.leave]
    rfl
  whenTrue := by
    rw [hm.stmt _ (hk 3 (by omega)), h.whenTrue]
    rfl
  row i hi := by
    rw [hm.successor _ (hk i (by omega)), h.row i hi, Option.map_some, Nat.add_assoc,
      hg (i + 1) (by omega)]
  last := by rw [hm.successor _ (hk 3 (by omega)), h.last, Option.map_some]
  around i hi := by rw [hm.around _ (hk i hi), h.around i hi]

theorem mem_of_successor? (h : b.successor? u = some w) : u ∈ b.ids := by
  cases hp : b.position? u with
  | none => simp [successor?, hp] at h
  | some p => exact List.mem_of_getElem? (getElem?_of_position? hp)

theorem Diamond.mem_ids (h : c.Diamond n place cond next ts) {i : Nat} (hi : i < 4) :
    (⟨n + i⟩ : UnitId) ∈ c.ids := by
  obtain hlt | rfl := Nat.lt_succ_iff_lt_or_eq.1 hi
  · exact mem_of_successor? (h.row i hlt)
  · exact mem_of_successor? h.last

def Compares (b : Body) (u : UnitId) : Prop :=
  ∃ place cond, b.stmt? u = some (.assign place (.compare cond))

/-- `c` is `b` with the comparisons in `done` expanded: each reference to some `u` goes to
`image u`, the first of the four units if `u` is expanded, and `u` itself if it is not. -/
structure Expanded (done : UnitId → Prop) (image : UnitId → UnitId) (b c : Body) : Prop where
  locals : c.locals = b.locals
  grown : b.nextUnit ≤ c.nextUnit
  first : c.first? = b.first?.map image
  traps : c.traps = b.traps.map (·.mapRefs image)
  units : ∀ w ∈ c.ids, (w ∈ b.ids ∧ ¬ done w) ∨
    ∃ u, done u ∧ ∃ i < 4, w = ⟨(image u).index + i⟩
  kept : ∀ u ∈ b.ids, ¬ done u → u ∈ c.ids ∧ image u = u
  moved : Moved (fun u ↦ u ∈ b.ids ∧ ¬ done u) image b c
  opened : ∀ u, done u → ∃ place cond next, b.stmt? u = some (.assign place (.compare cond)) ∧
    b.successor? u = some next ∧
    c.Diamond (image u).index place cond (image next) ((b.around u).map (·.mapRefs image))
  fresh : ∀ u, done u → b.nextUnit ≤ (image u).index ∧ (image u).index + 4 ≤ c.nextUnit
  apart : ∀ u w, done u → done w → u ≠ w →
    (image u).index + 4 ≤ (image w).index ∨ (image w).index + 4 ≤ (image u).index

namespace Expanded

variable {image : UnitId → UnitId}

theorem ne_of_done (h : Expanded done image b c) (hbound : b.Bounded) (hu : u ∈ b.ids)
    (hw : done w) (i : Nat) : (⟨(image w).index + i⟩ : UnitId) ≠ u := by
  intro he
  have hlow := (h.fresh w hw).1
  have hlt := hbound u hu
  rw [← he] at hlt
  exact Nat.not_lt_of_le (Nat.le_trans hlow (Nat.le_add_right _ i)) hlt

theorem rename_done (h : Expanded done image b c) (hbound : b.Bounded) (hu : u ∈ b.ids)
    (hw : done w) : rename u ⟨c.nextUnit⟩ (image w) = image w :=
  if_neg (h.ne_of_done hbound hu hw 0)

theorem rename_self (h : Expanded done image b c) (hu : u ∈ b.ids) (hk : ¬ done u) :
    rename u ⟨c.nextUnit⟩ (image u) = ⟨c.nextUnit⟩ := by
  rw [(h.kept u hu hk).2, rename, if_pos rfl]

end Expanded

end Body

namespace StoredComparisons

variable {b c d : Body} {image : UnitId → UnitId} {done : UnitId → Prop} {u next : UnitId}
  {place : Place} {cond : Comparison}

theorem fresh_eq_of_hasRoom (hroom : b.HasRoom 4) {i : Nat} (hi : i < 4) :
    b.fresh i = ⟨b.nextUnit + i⟩ :=
  Body.fresh_eq (hroom.mono (Nat.le_of_lt hi))

theorem expand_moved (hb : b.Coherent) (hbound : b.Bounded) (hroom : b.HasRoom 4)
    (hn : c.ids.Nodup) (h : expand b u = .ok c) :
    Body.Moved (fun w ↦ w ∈ b.ids ∧ w ≠ u) (Body.rename u ⟨b.nextUnit⟩) b c := by
  have hfirst : b.fresh 0 = ⟨b.nextUnit⟩ := fresh_eq_of_hasRoom hroom (Nat.succ_pos 3)
  obtain ⟨next, place, cond, p, d, -, -, hd, hdn, rfl⟩ := expand_ok_of_nodup h hn
  have hids := Body.ids_setStmt d (b.fresh 0) (.branch cond (b.fresh 3))
  have hset : Body.Moved (· ∈ b.ids) (fun w ↦ w) d
      (d.setStmt (b.fresh 0) (.branch cond (b.fresh 3))) := by
    refine .of_ids hids hdn (fun w hw ↦ ?_) (Body.around_congr hids rfl)
    rw [Body.stmt?_setStmt, if_neg]
    rintro rfl
    exact hbound.fresh_not_mem (hroom.mono (Nat.zero_le 4)) hw
  rw [← hfirst]
  exact (hd.moved hb hdn).trans (hset.mono fun w hw ↦ hw.1)

theorem expand_diamond (hb : b.Coherent) (hroom : b.HasRoom 4) (hn : c.ids.Nodup)
    (hs : b.stmt? u = some (.assign place (.compare cond))) (hnext : b.successor? u = some next)
    (h : expand b u = .ok c) :
    c.Diamond b.nextUnit place cond (Body.rename u ⟨b.nextUnit⟩ next)
      ((b.around u).map (·.mapRefs (Body.rename u ⟨b.nextUnit⟩))) := by
  have hfresh {i : Nat} (hi : i < 4) := fresh_eq_of_hasRoom hroom hi
  obtain ⟨next', place', cond', p, d, hnext', hs', hd, hdn, rfl⟩ := expand_ok_of_nodup h hn
  obtain rfl := Option.some.inj (hnext'.symm.trans hnext)
  cases hs'.symm.trans hs
  have hids := Body.ids_setStmt d (b.fresh 0) (.branch cond (b.fresh 3))
  have hstmt {i : Nat} {s : Stmt} := hd.stmt?_fresh hdn (i := i) (s := s)
  have hset {i : Nat} {s : Stmt} (hi : i < 4) (hpos : i ≠ 0)
      (hs : (diamond place cond next')[i]? = some s) :
      (d.setStmt (b.fresh 0) (.branch cond (b.fresh 3))).stmt? ⟨b.nextUnit + i⟩ =
        some (s.mapTargets (Body.rename u (b.fresh 0))) := by
    rw [← hfresh hi, Body.stmt?_setStmt, if_neg, hstmt hs]
    rw [hfresh hi, hfresh (Nat.succ_pos 3)]
    simpa using hpos
  have hfirst : b.fresh 0 = ⟨b.nextUnit⟩ := hfresh (Nat.succ_pos 3)
  rw [← hfirst]
  refine ⟨?_, hset (by omega) Nat.one_ne_zero rfl, hset (by omega) (Nat.succ_ne_zero 1) rfl,
    hset (by omega) (Nat.succ_ne_zero 2) rfl, fun i hi ↦ ?_, ?_, fun i hi ↦ ?_⟩
  · rw [← hfirst, Body.stmt?_setStmt, if_pos rfl, hstmt (i := 0) rfl, Option.map_some,
      hfresh (Nat.lt_succ_self 3)]
  · have hi' : i + 1 < 4 := Nat.succ_lt_succ hi
    rw [Nat.add_assoc, ← hfresh (Nat.lt_of_succ_lt hi'), ← hfresh hi',
      Body.successor?_congr hdn hids]
    exact hd.successor?_fresh hdn hi'
  · rw [← hfresh (Nat.lt_succ_self 3), Body.successor?_congr hdn hids]
    exact hd.successor?_last hb.nodup hdn hnext rfl
  · rw [← hfresh hi, Body.around_congr hids rfl]
    exact hd.around_fresh hb hdn hi

structure Grows (b : Body) (u : UnitId) (c : Body) : Prop where
  locals : c.locals = b.locals
  first : c.first? = b.first?.map (Body.rename u ⟨b.nextUnit⟩)
  traps : c.traps = b.traps.map (·.mapRefs (Body.rename u ⟨b.nextUnit⟩))
  nextUnit : c.nextUnit = b.nextUnit + 4
  units : ∀ w, w ∈ c.ids ↔ (w ∈ b.ids ∧ w ≠ u) ∨ ∃ i < 4, w = ⟨b.nextUnit + i⟩

theorem grows_expand (hn : b.ids.Nodup) (hroom : b.HasRoom 4) (hcn : c.ids.Nodup)
    (h : expand b u = .ok c) : Grows b u c := by
  have hfirst : b.fresh 0 = ⟨b.nextUnit⟩ := fresh_eq_of_hasRoom hroom (Nat.succ_pos 3)
  obtain ⟨next, place, cond, p, d, -, -, hd, -, rfl⟩ := expand_ok_of_nodup h hcn
  have hids := Body.ids_setStmt d (b.fresh 0) (.branch cond (b.fresh 3))
  refine ⟨hd.locals, ?_, hfirst ▸ hd.traps, hd.nextUnit_eq hroom, fun w ↦ ?_⟩
  · rw [Body.first?_eq, hids, ← Body.first?_eq, hd.first? hn, hfirst]
  · rw [hids, hd.mem_ids hn]
    refine or_congr_right (exists_congr fun i ↦ and_congr_right fun hi ↦ ?_)
    rw [fresh_eq_of_hasRoom hroom hi]

theorem expanded_refl (hn : b.ids.Nodup) : Body.Expanded (fun _ ↦ False) (fun w ↦ w) b b where
  locals := rfl
  grown := Nat.le_refl _
  first := by rw [Option.map_id']
  traps := by simp
  units w hw := .inl ⟨hw, not_false⟩
  kept u hu _ := ⟨hu, rfl⟩
  moved := .of_ids rfl hn (fun _ _ ↦ rfl) fun _ ↦ rfl
  opened _ hu := hu.elim
  fresh _ hu := hu.elim
  apart _ _ hu := hu.elim

/-- With the four units of one more comparison, every reference to it goes on to the first of them.
What was made for other comparisons stays. -/
theorem expanded_grow (h : Body.Expanded done image b c) (hbound : b.Bounded)
    (hs : b.stmt? u = some (.assign place (.compare cond))) (hnext : b.successor? u = some next)
    (hu : ¬ done u) (hgrows : Grows c u d)
    (hmoved : Body.Moved (fun w ↦ w ∈ c.ids ∧ w ≠ u) (Body.rename u ⟨c.nextUnit⟩) c d)
    (hdia : d.Diamond c.nextUnit place cond (Body.rename u ⟨c.nextUnit⟩ (image next))
      ((c.around u).map (·.mapRefs (Body.rename u ⟨c.nextUnit⟩)))) :
    Body.Expanded (fun w ↦ done w ∨ w = u) (Body.rename u ⟨c.nextUnit⟩ ∘ image) b d where
  locals := hgrows.locals.trans h.locals
  grown := by
    rw [hgrows.nextUnit]
    exact Nat.le_trans h.grown (Nat.le_add_right _ _)
  first := by rw [hgrows.first, h.first, Option.map_map]
  traps := by
    rw [hgrows.traps, h.traps, List.map_map]
    rfl
  units w hw := by
    have hub := Body.mem_of_successor? hnext
    obtain ⟨hwc, hne⟩ | ⟨i, hi, rfl⟩ := (hgrows.units w).1 hw
    · obtain ⟨hwb, hk⟩ | ⟨v, hv, i, hi, rfl⟩ := h.units w hwc
      · exact .inl ⟨hwb, not_or.2 ⟨hk, hne⟩⟩
      · exact .inr ⟨v, .inl hv, i, hi, by rw [Function.comp_apply, h.rename_done hbound hub hv]⟩
    · exact .inr ⟨u, .inr rfl, i, hi, by rw [Function.comp_apply, h.rename_self hub hu]⟩
  kept w hw hk := by
    obtain ⟨hk, hne⟩ := not_or.1 hk
    obtain ⟨hwc, hfix⟩ := h.kept w hw hk
    refine ⟨(hgrows.units w).2 (.inl ⟨hwc, hne⟩), ?_⟩
    rw [Function.comp_apply, hfix, Body.rename, if_neg hne]
  moved := by
    refine (h.moved.mono fun w hw ↦ ⟨hw.1, fun hk ↦ hw.2 (.inl hk)⟩).trans (hmoved.mono ?_)
    exact fun w hw ↦ ⟨(h.kept w hw.1 fun hk ↦ hw.2 (.inl hk)).1, fun he ↦ hw.2 (.inr he)⟩
  opened w hw := by
    have hub := Body.mem_of_successor? hnext
    obtain hw | rfl := hw
    · obtain ⟨place', cond', next', hs', hnext', hdia'⟩ := h.opened w hw
      have hne (i : Nat) := h.ne_of_done hbound hub hw i
      have hstays := hdia'.moved hmoved (fun i hi ↦ ⟨hdia'.mem_ids hi, hne i⟩)
        fun i _ ↦ if_neg (hne i)
      refine ⟨place', cond', next', hs', hnext', ?_⟩
      rw [Function.comp_apply, h.rename_done hbound hub hw]
      rwa [List.map_map] at hstays
    · refine ⟨place, cond, next, hs, hnext, ?_⟩
      rw [Function.comp_apply, h.rename_self hub hu]
      rwa [h.moved.around w ⟨hub, hu⟩, List.map_map] at hdia
  fresh w hw := by
    have hub := Body.mem_of_successor? hnext
    rw [Function.comp_apply, hgrows.nextUnit]
    obtain hw | rfl := hw
    · rw [h.rename_done hbound hub hw]
      exact ⟨(h.fresh w hw).1, Nat.le_trans (h.fresh w hw).2 (Nat.le_add_right _ _)⟩
    · rw [h.rename_self hub hu]
      exact ⟨h.grown, Nat.le_refl _⟩
  apart w w' hw hw' hne := by
    have hub := Body.mem_of_successor? hnext
    rw [Function.comp_apply, Function.comp_apply]
    obtain hw | rfl := hw <;> obtain hw' | rfl := hw'
    · rw [h.rename_done hbound hub hw, h.rename_done hbound hub hw']
      exact h.apart w w' hw hw' hne
    · rw [h.rename_done hbound hub hw, h.rename_self hub hu]
      exact .inl (h.fresh w hw).2
    · rw [h.rename_self hub hu, h.rename_done hbound hub hw']
      exact .inr (h.fresh w' hw').2
    · exact absurd rfl hne

theorem expanded_expand (h : Body.Expanded done image b c) (hbound : b.Bounded) (hc : c.Valid)
    (hcb : c.Bounded) (hroom : c.HasRoom 4) (hs : b.stmt? u = some (.assign place (.compare cond)))
    (hnext : b.successor? u = some next) (hu : ¬ done u) :
    ∃ d, expand c u = .ok d ∧ d.Valid ∧ d.Bounded ∧ d.nextUnit = c.nextUnit + 4 ∧
      Body.Expanded (fun w ↦ done w ∨ w = u) (Body.rename u ⟨c.nextUnit⟩ ∘ image) b d := by
  have hub := Body.mem_of_successor? hnext
  have hcs : c.stmt? u = some (.assign place (.compare cond)) := by
    rw [h.moved.stmt u ⟨hub, hu⟩, hs]
    rfl
  have hcnext : c.successor? u = some (image next) := by
    rw [h.moved.successor u ⟨hub, hu⟩, hnext, Option.map_some]
  obtain ⟨p, hp, hp'⟩ := (Body.successor?_eq_some hc.nodup).1 hcnext
  obtain ⟨d, hd⟩ := exists_expand hcs hp hc.nodup (Body.lt_size_of_getElem? hp')
  obtain ⟨hdv, hdb, hdnext⟩ := valid_expand hc hcb hroom hd
  exact ⟨d, hd, hdv, hdb, hdnext,
    expanded_grow h hbound hs hnext hu (grows_expand hc.nodup hroom hdv.nodup hd)
      (expand_moved hc.coherent hcb hroom hdv.nodup hd)
      (expand_diamond hc.coherent hroom hdv.nodup hcs hcnext hd)⟩

theorem expanded_expandAll (hbound : b.Bounded) (l : List UnitId)
    (r : Revision) (h : Body.Expanded done image b r.body) (hr : r.body.Valid)
    (hrb : r.body.Bounded) (hroom : r.body.HasRoom (4 * l.length)) (hn : l.Nodup)
    (hl : ∀ u ∈ l, b.Compares u ∧ (∃ next, b.successor? u = some next) ∧ ¬ done u) :
    (∃ changed, (expandAll r l).result = .ok changed) ∧ (expandAll r l).body.Valid ∧
      ∃ image', Body.Expanded (fun u ↦ done u ∨ u ∈ l) image' b (expandAll r l).body := by
  induction l generalizing r done image with
  | nil =>
    refine ⟨⟨_, rfl⟩, hr, image, ?_⟩
    simpa [expandAll, Revision.finish] using h
  | cons u l ih =>
    obtain ⟨⟨place, cond, hs⟩, ⟨next, hnext⟩, hu⟩ := hl u List.mem_cons_self
    obtain ⟨hfresh, hn⟩ := List.nodup_cons.1 hn
    obtain ⟨d, hd, hdv, hdb, hdnext, hexp⟩ :=
      expanded_expand h hbound hr hrb (hasRoom_first hroom) hs hnext hu
    have hcons : (fun w ↦ done w ∨ w ∈ u :: l) = fun w ↦ (done w ∨ w = u) ∨ w ∈ l := by
      funext w
      rw [List.mem_cons, or_assoc]
    rw [expandAll, hd, hcons]
    refine ih _ hexp hdv hdb (hasRoom_rest hroom hdnext) hn fun w hw ↦ ?_
    obtain ⟨hs', hnext', hdone⟩ := hl w (List.mem_cons_of_mem u hw)
    refine ⟨hs', hnext', not_or.2 ⟨hdone, ?_⟩⟩
    rintro rfl
    exact hfresh hw

theorem mem_found_iff (hn : b.ids.Nodup) : u ∈ found b ↔ b.Compares u := by
  rw [mem_found]
  constructor
  · rintro ⟨v, hv, rfl, hc⟩
    obtain ⟨⟨place, cond⟩, hc⟩ := Option.isSome_iff_exists.1 hc
    exact ⟨place, cond, (Body.stmt?_eq_some hn).2 (comparison?_eq_some.1 hc ▸ hv)⟩
  · rintro ⟨place, cond, hs⟩
    exact ⟨_, (Body.stmt?_eq_some hn).1 hs, rfl, rfl⟩

/-- While there is room, every stored comparison is expanded unless there is one in last place. -/
theorem expanded_run (hb : b.Valid) (hbound : b.Bounded) (hroom : HasRoom b)
    (hlast : ∀ u, b.units.getLast? = some u → comparison? u.stmt = none) :
    (∃ changed, (run b).result = .ok changed) ∧ (run b).body.Valid ∧
      ∃ image, Body.Expanded b.Compares image b (run b).body := by
  have hl : ∀ u ∈ found b, b.Compares u ∧ (∃ next, b.successor? u = some next) ∧ ¬ False := by
    intro u hu
    have hcompares := (mem_found_iff hb.nodup).1 hu
    refine ⟨hcompares, ?_, not_false⟩
    obtain ⟨place, cond, hs⟩ := hcompares
    obtain ⟨p, hp⟩ := List.getElem?_of_mem ((Body.stmt?_eq_some hb.nodup).1 hs)
    have hlt : p + 1 < b.size := Body.lt_of_getLast?_ne hp fun hend ↦ by
      have hnone := hlast _ hend
      rw [comparison?_eq_some.2 rfl] at hnone
      cases hnone
    obtain ⟨next, hnext⟩ := Body.exists_id_of_lt hlt
    exact ⟨next, by rw [Body.successor?_of_getElem? hb.nodup (Body.id_of_unit hp), hnext]⟩
  have hdone : (fun u ↦ False ∨ u ∈ found b) = b.Compares := by
    funext u
    rw [false_or, mem_found_iff hb.nodup]
  have hrun := expanded_expandAll hbound (found b) ⟨b, [], !(found b).isEmpty⟩
    (expanded_refl hb.nodup) hb hbound hroom (nodup_found hb.nodup) hl
  rwa [hdone] at hrun

end StoredComparisons

end ThreeAddress
