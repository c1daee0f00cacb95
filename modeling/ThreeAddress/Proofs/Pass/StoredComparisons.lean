import ThreeAddress.Pass.StoredComparisons
import ThreeAddress.Proofs.Body.Motion
import ThreeAddress.Proofs.Candor
import ThreeAddress.Proofs.Readiness

namespace ThreeAddress

namespace StoredComparisons

variable {b b' : Body} {u : UnitId} {place : Place} {c : Comparison} {p : Nat} {r : Revision}
  {l : List UnitId}

theorem comparison?_eq_some {s : Stmt} :
    comparison? s = some (place, c) ↔ s = .assign place (.compare c) := by
  unfold comparison?
  split <;> simp_all

@[simp] theorem comparison?_mapTargets (f : UnitId → UnitId) (s : Stmt) :
    comparison? (s.mapTargets f) = comparison? s := by
  cases s <;> rfl

@[simp] theorem comparison?_aimBranch (t : UnitId) (s : Stmt) :
    comparison? (aimBranch t s) = comparison? s := by
  cases s <;> rfl

/-- An expansion that succeeds replaces a comparison, and points the branch of the replacement. -/
theorem expand_ok (h : expand b u = .ok b') : ∃ next place c p d,
    b.successor? u = some next ∧ b.stmt? u = some (.assign place (.compare c)) ∧
      b.Replaced u p (diamond place c next) d ∧
      b' = d.modifyStmt (b.fresh 0) (aimBranch (b.fresh 3)) := by
  unfold expand at h
  split at h
  · cases h
  · next next hnext =>
    split at h
    · cases h
    · next place c hc =>
      obtain ⟨s, hs, hc⟩ := Option.bind_eq_some_iff.1 hc
      rw [comparison?_eq_some] at hc
      cases hr : b.replace u (diamond place c next) with
      | error e =>
        rw [hr] at h
        cases h
      | ok out =>
        obtain ⟨is, d⟩ := out
        obtain ⟨rfl, p, hd⟩ := Body.replace_ok hr
        rw [hr] at h
        exact ⟨next, place, c, p, d, hnext, hc ▸ hs, hd, (Except.ok.inj h).symm⟩

/-- Where no identity comes twice, the branch that is pointed is the one of the replacement. -/
theorem expand_ok_of_nodup (h : expand b u = .ok b') (hn : b'.ids.Nodup) : ∃ next place c p d,
    b.successor? u = some next ∧ b.stmt? u = some (.assign place (.compare c)) ∧
      b.Replaced u p (diamond place c next) d ∧ d.ids.Nodup ∧
      b' = d.setStmt (b.fresh 0) (.branch c (b.fresh 3)) := by
  obtain ⟨next, place, c, p, d, hnext, hs, hd, rfl⟩ := expand_ok h
  rw [Body.ids_modifyStmt] at hn
  have hbranch := hd.stmt?_fresh hn (i := 0) rfl
  exact ⟨next, place, c, p, d, hnext, hs, hd, hn, Body.modifyStmt_eq_setStmt hn hbranch _⟩

theorem exists_expand (hs : b.stmt? u = some (.assign place (.compare c)))
    (hu : b.ids[p]? = some u) (hn : b.ids.Nodup) (hlt : p + 1 < b.size) :
    ∃ b', expand b u = .ok b' := by
  obtain ⟨next, hnext⟩ := Body.exists_id_of_lt hlt
  rw [← Body.successor?_of_getElem? hn hu] at hnext
  simp only [expand, hnext, hs, Option.bind_some, comparison?, Body.replace, diamond,
    (Body.position?_eq_some hn).2 hu]
  exact ⟨_, rfl⟩

theorem locals_branch (place : Place) (c : Comparison) (t : UnitId) :
    (Stmt.branch c t).locals ⊆ (Stmt.assign place (.compare c)).locals := by
  intro x hx
  have hc : x ∈ (Expr.compare c).uses := by
    simpa [Stmt.locals, Stmt.uses, Stmt.values, Stmt.def?, Expr.uses, Expr.values] using hx
  rw [Stmt.locals_assign, List.mem_append, List.mem_append]
  exact .inl (.inr hc)

theorem locals_store (place : Place) (c : Comparison) (k : Constant) :
    (Stmt.assign place (.value (.const k))).locals ⊆
      (Stmt.assign place (.compare c)).locals := by
  intro x hx
  rw [Stmt.locals_assign, List.mem_append, List.mem_append] at hx ⊢
  rcases hx with (hx | hx) | hx
  · exact .inl (.inl hx)
  · simp [Expr.uses, Expr.values, List.filterMap_cons, Value.var?] at hx
  · exact .inr hx

theorem locals_diamond {next : UnitId} {s : Stmt} (hs : s ∈ diamond place c next) :
    s.locals ⊆ (Stmt.assign place (.compare c)).locals := by
  simp only [diamond, List.mem_cons, List.not_mem_nil, or_false] at hs
  rcases hs with rfl | rfl | rfl | rfl
  · exact locals_branch place c next
  · exact locals_store place c _
  · simp [Stmt.locals, Stmt.uses, Stmt.values, Stmt.def?]
  · exact locals_store place c _

theorem targets_diamond {next t : UnitId} {s : Stmt} (hs : s ∈ diamond place c next)
    (ht : t ∈ s.targets) : t = next := by
  simp only [diamond, List.mem_cons, List.not_mem_nil, or_false] at hs
  rcases hs with rfl | rfl | rfl | rfl
  · simpa [Stmt.targets] using ht
  · simp [Stmt.targets] at ht
  · simpa [Stmt.targets] using ht
  · simp [Stmt.targets] at ht

theorem valid_expand (hb : b.Valid) (hbound : b.Bounded) (hroom : b.HasRoom 4)
    (h : expand b u = .ok b') :
    b'.Valid ∧ b'.Bounded ∧ b'.nextUnit = b.nextUnit + 4 := by
  have hn : b'.ids.Nodup := by
    obtain ⟨next, place, c, p, d, -, -, hd, rfl⟩ := expand_ok h
    rw [Body.ids_modifyStmt]
    exact hd.nodup hb.nodup hbound hroom
  obtain ⟨next, place, c, p, d, hnext, hs, hd, hdn, rfl⟩ := expand_ok_of_nodup h hn
  have hlocals := hb.declared _ ((Body.stmt?_eq_some hb.nodup).1 hs)
  have hnextm : next ∈ b.ids := by
    rw [Body.successor?_of_getElem? hb.nodup hd.place] at hnext
    exact List.mem_of_getElem? hnext
  have hvalid : d.Valid := by
    refine hd.valid hb hdn ?_ ?_
    · intro s hs t ht
      exact targets_diamond hs ht ▸ hnextm
    · intro s hs x hx
      exact hlocals x (locals_diamond hs hx)
  have hfresh : b.fresh 3 ∈ d.ids :=
    List.mem_of_getElem? (hd.getElem?_fresh (i := 3) (Nat.lt_succ_self 3))
  refine ⟨?_, ?_, hd.nextUnit_eq hroom⟩
  · refine hvalid.setStmt (by simpa [Stmt.targets] using hfresh) ?_
    intro x hx
    rw [hd.locals]
    exact hlocals x (locals_branch place c _ hx)
  · have hbounded := hd.bounded hbound hroom
    intro t ht
    exact hbounded t (by simpa using ht)

theorem ready_expand (hb : b.Ready) (hroom : b.HasRoom 4) (h : expand b u = .ok b') :
    b'.Ready := by
  obtain ⟨hvalid, hbounded, -⟩ := valid_expand hb.valid hb.bounded hroom h
  obtain ⟨next, place, c, p, d, -, hs, hd, hdn, rfl⟩ := expand_ok_of_nodup h hvalid.nodup
  refine ⟨hvalid, hbounded, ?_⟩
  obtain ⟨q, hq⟩ := List.getElem?_of_mem ((Body.stmt?_eq_some hb.valid.nodup).1 hs)
  obtain rfl := Body.index_unique hb.valid.nodup (Body.id_of_unit hq) hd.place
  have hlt := hb.end_sealed.lt_of_fallsThrough hq rfl (by simp)
  intro w hw
  rw [Body.setStmt, List.getLast?_map, hd.getLast? hlt] at hw
  obtain ⟨v', hv', rfl⟩ := Option.map_eq_some_iff.1 hw
  obtain ⟨v, hv, rfl⟩ := Option.map_eq_some_iff.1 hv'
  have hne : v.id ≠ b.fresh 0 := by
    intro he
    refine hb.bounded.fresh_not_mem (hroom.mono (Nat.zero_le 4)) (he ▸ Body.id_mem_ids ?_)
    exact List.mem_of_getLast? hv
  rw [CodeUnit.id_mapStmt, if_neg hne]
  simpa using hb.end_sealed v hv

/-- The comparisons still to expand are units of the body. -/
def Pending (b : Body) (l : List UnitId) : Prop :=
  l.Nodup ∧ ∀ u ∈ l, ∃ place c, ⟨u, .assign place (.compare c)⟩ ∈ b.units

theorem Pending.expand (hb : b.Bounded) (hroom : b.HasRoom 4) (hn : b'.ids.Nodup)
    (hp : Pending b (u :: l)) (h : expand b u = .ok b') : Pending b' l := by
  obtain ⟨hnodup, hm⟩ := hp
  obtain ⟨hu, hnodup⟩ := List.nodup_cons.1 hnodup
  obtain ⟨next, place, c, p, d, -, -, hd, -, rfl⟩ := expand_ok_of_nodup h hn
  refine ⟨hnodup, fun v hv ↦ ?_⟩
  obtain ⟨place', c', hold⟩ := hm v (List.mem_cons_of_mem u hv)
  have hne : v ≠ u := by
    rintro rfl
    exact hu hv
  have hfresh : v ≠ b.fresh 0 := by
    rintro rfl
    exact hb.fresh_not_mem (hroom.mono (Nat.zero_le 4)) (Body.id_mem_ids hold)
  exact ⟨place', c', Body.mem_setStmt_of_ne (hd.mem_old hold hne) hfresh⟩

theorem hasRoom_first {n : Nat} (h : b.HasRoom (4 * (n + 1))) : b.HasRoom 4 :=
  h.mono (Nat.le_add_left 4 (4 * n))

theorem hasRoom_rest {n : Nat} (h : b.HasRoom (4 * (n + 1)))
    (hnext : b'.nextUnit = b.nextUnit + 4) : b'.HasRoom (4 * n) := by
  rw [Body.HasRoom, hnext, Nat.add_assoc, Nat.add_comm 4]
  exact h

/-- While there is room for all comparisons to come, each of them is expanded. -/
theorem expandAll_ready (l : List UnitId) (r : Revision) (hr : r.body.Ready)
    (hp : Pending r.body l) (hroom : r.body.HasRoom (4 * l.length)) :
    (∃ changed, (expandAll r l).result = .ok changed) ∧ (expandAll r l).body.Ready := by
  induction l generalizing r with
  | nil => exact ⟨⟨_, rfl⟩, hr⟩
  | cons u l ih =>
    have hfirst := hasRoom_first hroom
    obtain ⟨place, c, hu⟩ := hp.2 u List.mem_cons_self
    obtain ⟨p, hup⟩ := List.getElem?_of_mem hu
    have hlt := hr.end_sealed.lt_of_fallsThrough hup rfl (by simp)
    have hn := hr.valid.nodup
    obtain ⟨b', hb'⟩ := exists_expand ((Body.stmt?_eq_some hn).2 hu) (Body.id_of_unit hup) hn hlt
    have hready := ready_expand hr hfirst hb'
    obtain ⟨-, -, hnext⟩ := valid_expand hr.valid hr.bounded hfirst hb'
    rw [expandAll, hb']
    exact ih _ hready (hp.expand hr.bounded hfirst hready.valid.nodup hb')
      (hasRoom_rest hroom hnext)

theorem mem_found : u ∈ found b ↔ ∃ v ∈ b.units, v.id = u ∧ (comparison? v.stmt).isSome := by
  simp only [found, List.mem_map, List.mem_filter]
  constructor
  · rintro ⟨v, ⟨hv, hc⟩, hu⟩
    exact ⟨v, hv, hu, hc⟩
  · rintro ⟨v, hv, hu, hc⟩
    exact ⟨v, ⟨hv, hc⟩, hu⟩

theorem nodup_found (hn : b.ids.Nodup) : (found b).Nodup :=
  (List.filter_sublist.map _).nodup hn

theorem length_found_le (b : Body) : (found b).length ≤ b.size := by
  rw [found, List.length_map]
  exact List.length_filter_le _ _

theorem pending_found (hn : b.ids.Nodup) : Pending b (found b) := by
  refine ⟨nodup_found hn, fun u hu ↦ ?_⟩
  obtain ⟨v, hv, rfl, hc⟩ := mem_found.1 hu
  obtain ⟨a, ha⟩ := Option.isSome_iff_exists.1 hc
  exact ⟨a.1, a.2, comparison?_eq_some.1 ha ▸ hv⟩

theorem expandAll_cons {changed : Bool} (h : (expandAll r (u :: l)).result = .ok changed) :
    ∃ b' n, expand r.body u = .ok b' ∧
      expandAll r (u :: l) = expandAll (r.withNote b' n) l := by
  cases hb : expand r.body u with
  | error e =>
    rw [expandAll, hb] at h
    cases h
  | ok b' =>
    refine ⟨b', ⟨.comparisonExpanded, some ((r.body.position? u).getD 0),
      "comparison at " ++ u.text ++ " rewritten to a branch"⟩, rfl, ?_⟩
    rw [expandAll, hb]

theorem size_expand (h : expand b u = .ok b') : b'.size = b.size + 3 := by
  obtain ⟨next, place, c, p, d, -, -, hd, rfl⟩ := expand_ok h
  have hgrown : d.size + 1 = b.size + 4 := hd.size_eq
  rw [← Body.length_ids, Body.ids_modifyStmt, Body.length_ids]
  omega

theorem expandAll_grows (l : List UnitId) (r : Revision) {changed : Bool}
    (h : (expandAll r l).result = .ok changed) :
    (expandAll r l).body.size = r.body.size + 3 * l.length ∧
      (expandAll r l).notes.length = r.notes.length + l.length ∧
      changed = (r.changed || !l.isEmpty) := by
  induction l generalizing r with
  | nil =>
    cases h
    simp [expandAll, Revision.finish]
  | cons u l ih =>
    obtain ⟨b', n, hb', hrun⟩ := expandAll_cons h
    rw [hrun] at h ⊢
    obtain ⟨hsize, hnotes, hchanged⟩ := ih _ h
    refine ⟨?_, ?_, ?_⟩
    · rw [hsize, Revision.withNote, size_expand hb', List.length_cons]
      omega
    · simp only [Revision.withNote, List.length_append, List.length_cons,
        List.length_nil] at hnotes ⊢
      omega
    · simpa [Revision.withNote] using hchanged

theorem kinds_expandAll (l : List UnitId) (r : Revision)
    (hr : ∀ n ∈ r.notes, n.kind.isChange = true) :
    ∀ n ∈ (expandAll r l).notes, n.kind.isChange = true := by
  induction l generalizing r with
  | nil => exact hr
  | cons u l ih =>
    unfold expandAll
    cases expand r.body u with
    | error e => exact hr
    | ok b' =>
      refine ih _ fun m hm ↦ ?_
      rcases List.mem_append.1 hm with hm | hm
      · exact hr m hm
      · rw [List.mem_singleton.1 hm]
        rfl

theorem candid_run (b : Body) : (run b).Candid b := by
  intro changed h
  rw [run] at h ⊢
  obtain ⟨hsize, hnotes, hchanged⟩ := expandAll_grows (found b) _ h
  have hkinds := kinds_expandAll (found b) ⟨b, [], !(found b).isEmpty⟩ (by simp)
  by_cases hnone : found b = []
  · rw [hnone] at hchanged ⊢
    simp [hchanged, expandAll, Revision.finish]
  · have hpos := List.length_pos_iff.2 hnone
    have htrue : changed = true := by
      rw [hchanged]
      simp [hnone]
    have hmoved : (expandAll ⟨b, [], !(found b).isEmpty⟩ (found b)).body ≠ b := by
      intro he
      rw [he] at hsize
      simp only at hsize
      omega
    obtain ⟨n, hn⟩ := List.exists_mem_of_length_pos
      (show 0 < (expandAll ⟨b, [], !(found b).isEmpty⟩ (found b)).notes.length by
        rw [hnotes]
        exact Nat.lt_of_lt_of_le hpos (Nat.le_add_left _ _))
    simp only [htrue, true_iff]
    exact ⟨hmoved, n, hn, hkinds n hn⟩

/-- There is room for all that the pass makes of the body. -/
def HasRoom (b : Body) : Prop := b.HasRoom (4 * (found b).length)

instance (b : Body) : Decidable (HasRoom b) :=
  inferInstanceAs (Decidable (b.HasRoom (4 * (found b).length)))

end StoredComparisons

namespace Pass

theorem storedComparisons_carries :
    storedComparisons.Carries (fun b ↦ b.Ready ∧ StoredComparisons.HasRoom b) Body.Ready :=
  fun _ _ hb ↦ StoredComparisons.expandAll_ready _ _ hb.1
    (StoredComparisons.pending_found hb.1.valid.nodup) hb.2

theorem storedComparisons_candid : storedComparisons.Candid :=
  fun _ _ _ _ ↦ StoredComparisons.candid_run _

end Pass

end ThreeAddress
