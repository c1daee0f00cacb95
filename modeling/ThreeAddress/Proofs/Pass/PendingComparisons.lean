import ThreeAddress.Proofs.Pass.StoredComparisons

namespace ThreeAddress

/-- An element that stands between two lists and in neither of them has one place. -/
theorem eq_length_of_getElem?_middle {α : Type} {xs ys : List α} {a : α} {p : Nat}
    (ha : a ∉ xs ++ ys) (h : (xs ++ a :: ys)[p]? = some a) : p = xs.length := by
  obtain ⟨hxs, hys⟩ := not_or.1 (mt List.mem_append.2 ha)
  obtain hlt | rfl | hgt := Nat.lt_trichotomy p xs.length
  · rw [List.getElem?_append_left hlt] at h
    exact absurd (List.mem_of_getElem? h) hxs
  · rfl
  · obtain ⟨k, rfl⟩ := Nat.exists_eq_add_of_lt hgt
    rw [List.getElem?_append_right (by omega), Nat.add_assoc, Nat.add_sub_cancel_left,
      List.getElem?_cons_succ] at h
    exact absurd (List.mem_of_getElem? h) hys

namespace StoredComparisons

variable {b b' : Body} {u : UnitId} {r : Revision} {l : List UnitId} {changed : Bool}

/-- The identities of the units, each with whether the unit stores the outcome of a comparison. -/
def sketch (b : Body) : List (UnitId × Bool) :=
  b.units.map fun v ↦ (v.id, (comparison? v.stmt).isSome)

theorem ids_sketch (b : Body) : (sketch b).map (·.1) = b.ids := by
  simp [sketch, Body.ids]

theorem found_eq (b : Body) : found b = ((sketch b).filter (·.2)).map (·.1) := by
  simp [found, sketch, List.filter_map, Function.comp_def]

theorem sketch_modifyStmt {f : Stmt → Stmt} (hf : ∀ s, comparison? (f s) = comparison? s)
    (b : Body) (u : UnitId) : sketch (b.modifyStmt u f) = sketch b := by
  unfold Body.modifyStmt
  split
  · next p hp =>
    refine List.ext_getElem? fun q ↦ ?_
    rw [sketch, Body.modifyAt, List.getElem?_map, List.getElem?_modify, sketch, List.getElem?_map]
    cases b.units[q]? with
    | none => rfl
    | some v => by_cases hpq : p = q <;> simp [hpq, hf]
  · rfl

def freshSketch (b : Body) : List (UnitId × Bool) := (List.range 4).map fun i ↦ (b.fresh i, false)

theorem sketch_expand (h : expand b u = .ok b') : ∃ p, b.ids[p]? = some u ∧
    sketch b' = (sketch b).take p ++ freshSketch b ++ (sketch b).drop (p + 1) := by
  obtain ⟨next, place, c, p, d, -, -, hd, rfl⟩ := expand_ok h
  refine ⟨p, hd.place, ?_⟩
  have hfresh : (Body.number b.nextUnit (diamond place c next)).map
      (fun v ↦ (v.id, (comparison? v.stmt).isSome)) = freshSketch b := rfl
  rw [sketch_modifyStmt (comparison?_aimBranch _), sketch, hd.units]
  simp only [List.map_map, Function.comp_def, CodeUnit.stmt_mapStmt, CodeUnit.id_mapStmt,
    comparison?_mapTargets, List.map_append, hfresh, sketch, List.map_take, List.map_drop]

/-- The comparisons still to come are those of the units behind some place, in order, and before it
there are none. So an expansion that comes upon a unit made by an earlier one fails. -/
def Ahead (b : Body) (l : List UnitId) : Prop :=
  ∃ front back, sketch b = front ++ back ∧ (∀ a ∈ front, a.2 = false) ∧
    (back.map (·.1)).Nodup ∧ l = (back.filter (·.2)).map (·.1)

theorem ahead_found (hn : b.ids.Nodup) : Ahead b (found b) :=
  ⟨[], sketch b, rfl, by simp, ids_sketch b ▸ hn, found_eq b⟩

theorem find?_sketch (b : Body) (u : UnitId) : (sketch b).find? (·.1 == u) =
    (b.units.find? (·.id == u)).map fun v ↦ (v.id, (comparison? v.stmt).isSome) :=
  List.find?_map

theorem find?_sketch_of_expand (h : expand b u = .ok b') :
    (sketch b).find? (·.1 == u) = some (u, true) := by
  obtain ⟨-, place, c, -, -, -, hs, -⟩ := expand_ok h
  obtain ⟨v, hv, he⟩ := Option.map_eq_some_iff.1 hs
  have hid : v.id = u := by simpa using List.find?_some hv
  rw [find?_sketch, hv, Option.map_some, hid, comparison?_eq_some.2 he, Option.isSome_some]

/-- With a comparison expanded, the place moves up behind the units that stand for it. -/
theorem Ahead.expand (ha : Ahead b (u :: l)) (h : expand b u = .ok b') :
    Ahead b' l ∧ (b'.ids.Nodup → b.ids.Nodup) := by
  obtain ⟨front, back, hsplit, hfront, hback, hl⟩ := ha
  obtain ⟨a, rest, hfilter, rfl, rfl⟩ := List.map_eq_cons_iff.1 hl.symm
  obtain ⟨mid, tail, rfl, hmid, -, rfl⟩ := List.filter_eq_cons_iff.1 hfilter
  -- no unit before the place has the identity, for the first that has it is a comparison
  have hfirst : ∀ x ∈ front, x.1 ≠ a.1 := by
    have hfind := find?_sketch_of_expand h
    rw [hsplit, List.find?_append, Option.or_eq_some_iff] at hfind
    obtain hfound | ⟨hnone, -⟩ := hfind
    · cases hfront _ (List.mem_of_find?_eq_some hfound)
    · exact fun x hx he ↦ List.find?_eq_none.1 hnone x hx (by simpa using he)
  have hback' : (a.1 :: (mid.map (·.1) ++ tail.map (·.1))).Nodup := by
    rwa [List.map_append, List.map_cons, List.nodup_middle] at hback
  have hunique : a.1 ∉ (front ++ mid).map (·.1) ++ tail.map (·.1) := by
    rw [List.map_append, List.append_assoc, List.mem_append]
    refine not_or.2 ⟨fun hm ↦ ?_, (List.nodup_cons.1 hback').1⟩
    obtain ⟨x, hx, he⟩ := List.mem_map.1 hm
    exact hfirst x hx he
  rw [← List.append_assoc] at hsplit
  have hids : b.ids = (front ++ mid).map (·.1) ++ a.1 :: tail.map (·.1) := by
    rw [← ids_sketch, hsplit, List.map_append, List.map_cons]
  obtain ⟨p, hp, hsketch⟩ := sketch_expand h
  obtain rfl : p = (front ++ mid).length := by
    have hlength := eq_length_of_getElem?_middle hunique (hids ▸ hp)
    rwa [List.length_map] at hlength
  have htail : (front ++ mid ++ a :: tail).drop ((front ++ mid).length + 1) = tail := by
    rw [← List.drop_drop, List.drop_left, List.drop_one, List.tail_cons]
  rw [hsplit, List.take_left, htail] at hsketch
  constructor
  · refine ⟨front ++ mid ++ freshSketch b, tail, hsketch, fun x hx ↦ ?_, ?_, rfl⟩
    · obtain hx | hx := List.mem_append.1 hx
      · obtain hx | hx := List.mem_append.1 hx
        · exact hfront x hx
        · exact Bool.eq_false_iff.2 (hmid x hx)
      · obtain ⟨i, -, rfl⟩ := List.mem_map.1 hx
        rfl
    · exact (List.nodup_append.1 (List.nodup_cons.1 hback').2).2.1
  · intro hn
    rw [hids, List.nodup_middle, List.nodup_cons]
    refine ⟨hunique, ?_⟩
    rw [← ids_sketch, hsketch, List.map_append, List.map_append] at hn
    exact (List.sublist_append_left _ _ |>.append_right _).nodup hn

theorem ahead_expandAll (l : List UnitId) (r : Revision)
    (h : (expandAll r l).result = .ok changed) (ha : Ahead r.body l) :
    Ahead (expandAll r l).body [] := by
  induction l generalizing r with
  | nil => exact ha
  | cons u l ih =>
    obtain ⟨b', n, hb', hrun⟩ := expandAll_cons h
    rw [hrun] at h ⊢
    exact ih _ h (ha.expand hb').1

theorem nodup_of_expandAll (l : List UnitId) (r : Revision)
    (h : (expandAll r l).result = .ok changed) (ha : Ahead r.body l)
    (hn : (expandAll r l).body.ids.Nodup) : r.body.ids.Nodup := by
  induction l generalizing r with
  | nil => exact hn
  | cons u l ih =>
    obtain ⟨b', n, hb', hrun⟩ := expandAll_cons h
    rw [hrun] at h hn
    exact (ha.expand hb').2 (ih (r.withNote b' n) h (ha.expand hb').1 hn)

/-- What every expansion keeps as long as no identity comes twice, a run keeps that succeeds and in
the end has no identity twice. -/
theorem expandAll_keeps {P : List UnitId → Body → Prop}
    (hstep : ∀ u l b b', b.ids.Nodup → b'.ids.Nodup → P (u :: l) b → expand b u = .ok b' → P l b')
    (l : List UnitId) (r : Revision) (h : (expandAll r l).result = .ok changed)
    (ha : Ahead r.body l) (hn : (expandAll r l).body.ids.Nodup) (hr : P l r.body) :
    P [] (expandAll r l).body := by
  induction l generalizing r with
  | nil => exact hr
  | cons u l ih =>
    have hrn := nodup_of_expandAll _ r h ha hn
    obtain ⟨b', n, hb', hrun⟩ := expandAll_cons h
    rw [hrun] at h hn ⊢
    have hahead : Ahead (r.withNote b' n).body l := (ha.expand hb').1
    have hbn := nodup_of_expandAll l (r.withNote b' n) h hahead hn
    exact ih _ h hahead hn (hstep u l r.body b' hrn hbn hr hb')

theorem spared_run (hn : b.ids.Nodup) (h : (run b).result = .ok changed) :
    ∀ w ∈ (run b).body.units, comparison? w.stmt = none := by
  obtain ⟨front, back, hsplit, hfront, -, hnone⟩ :=
    ahead_expandAll (found b) ⟨b, [], !(found b).isEmpty⟩ h (ahead_found hn)
  intro w hw
  have hmem : (w.id, (comparison? w.stmt).isSome) ∈ front ++ back := by
    rw [← hsplit]
    exact List.mem_map_of_mem (f := fun v : CodeUnit ↦ (v.id, (comparison? v.stmt).isSome)) hw
  obtain hw | hw := List.mem_append.1 hmem
  · simpa using hfront _ hw
  · have hback := List.filter_eq_nil_iff.1 (List.map_eq_nil_iff.1 hnone.symm) _ hw
    simpa using hback

end StoredComparisons

end ThreeAddress
