import ThreeAddress.Pass.CopyPropagation
import ThreeAddress.Proofs.Candor
import ThreeAddress.Proofs.Readiness

namespace ThreeAddress

namespace CopyPropagation

variable {b : Body} {i : Reaching} {p : Nat} {s : Stmt} {x y : LocalId} {v w : Value}
  {t : Substitution} {plan : List Substitution} {r : Revision}

theorem var?_substitute (h : (substitute x v w).var? = some y) :
    (w.var? = some y ∧ w ≠ .var x) ∨ v = .var y := by
  unfold substitute at h
  split at h
  · exact .inr (Value.var?_eq_some.1 h)
  · next hw => exact .inl ⟨h, hw⟩

theorem uses_substitute (h : y ∈ (s.mapValues (substitute x v)).uses) :
    (y ∈ s.uses ∧ y ≠ x) ∨ v = .var y := by
  simp only [Stmt.uses, Stmt.values_mapValues, List.mem_filterMap, List.mem_map] at h
  obtain ⟨w', hw', hy⟩ := h
  obtain ⟨w, hw, rfl⟩ := hw'
  rcases var?_substitute hy with ⟨hw', hne⟩ | hv
  · refine .inl ⟨List.mem_filterMap.2 ⟨w, hw, hw'⟩, ?_⟩
    intro he
    exact hne (he ▸ Value.var?_eq_some.1 hw')
  · exact .inr hv

theorem locals_substitute (h : y ∈ (s.mapValues (substitute x v)).locals) :
    y ∈ s.locals ∨ v = .var y := by
  rw [Stmt.locals, Stmt.def?_mapValues, List.mem_append] at h
  rcases h with h | h
  · exact (uses_substitute h).imp_left fun h ↦ List.mem_append_left _ h.1
  · exact .inl (List.mem_append_right _ h)

/-- What is known when a source is found: the one definition that reaches is a copy of it, and the
same definitions of the source reach the copy and the read. -/
theorem source?_eq_some (h : source? b i x p = some v) :
    i.mayBeUnassigned x p = false ∧ ∃ d place, i.reachingDefinitions x p = [d] ∧
      b.stmtAt? d = some (.assign place (.value v)) ∧ v ≠ .var x ∧
      ∀ y, v = .var y → i.mayBeUnassigned y p = false ∧
        i.reachingDefinitions y p = i.reachingDefinitions y d := by
  unfold source? at h
  split at h
  · simp at h
  next hassigned =>
  refine ⟨Bool.not_eq_true _ ▸ hassigned, ?_⟩
  split at h
  · next d hd =>
    split at h
    · next place c hs =>
      cases h
      exact ⟨d, place, hd, hs, by simp, by simp⟩
    · next place y hs =>
      split at h
      · next hc =>
        cases h
        refine ⟨d, place, hd, hs, by simpa using hc.1, ?_⟩
        intro y' hy
        cases hy
        simpa using hc.2
      · simp at h
    · simp at h
  · simp at h

/-- The substitution takes a local from a unit that reads it, for a value that the body knows. -/
structure Apt (b : Body) (t : Substitution) : Prop where
  read : ∃ u, b.units[t.position]? = some u ∧ t.old ∈ u.stmt.uses
  ne : t.source ≠ .var t.old
  known : ∀ y, t.source = .var y → y ∈ b.mentioned

theorem source_of_mem (h : t ∈ substitutions b) :
    source? b b.reaching t.old t.position = some t.source ∧
      ∃ u, b.units[t.position]? = some u ∧ t.old ∈ u.stmt.uses := by
  obtain ⟨⟨u, p⟩, hu, ht⟩ := List.mem_flatMap.1 h
  obtain ⟨x, hx, ht⟩ := List.mem_filterMap.1 ht
  have hu : b.units[p]? = some u := List.mem_zipIdx_iff_getElem?.1 hu
  have hx : x ∈ u.stmt.uses := by simpa [operands] using hx
  split at ht
  · next c hc =>
    split at ht
    · simp at ht
    · cases ht
      exact ⟨hc, u, hu, hx⟩
  · next v hv =>
    cases ht
    exact ⟨hv, u, hu, hx⟩
  · simp at ht

theorem apt_of_mem (h : t ∈ substitutions b) : Apt b t := by
  obtain ⟨hsource, hread⟩ := source_of_mem h
  obtain ⟨-, d, place, -, hd, hne, -⟩ := source?_eq_some hsource
  refine ⟨hread, hne, fun y hy ↦ ?_⟩
  obtain ⟨u, hu, hs⟩ := Option.map_eq_some_iff.1 hd
  refine Body.mem_mentioned.2 ⟨u, List.mem_of_getElem? hu, ?_⟩
  simp [hs, hy, Stmt.locals, Stmt.uses, Stmt.values, Expr.values, Value.var?]

theorem restated_foldl (plan : List Substitution) (r : Revision) :
    Body.Restated r.body (plan.foldl apply r).body := by
  induction plan generalizing r with
  | nil => exact .of_units rfl rfl rfl
  | cons t plan ih =>
    have hfirst : Body.Restated r.body (apply r t).body := by
      refine .modifyAt t.position fun u _ ↦ ⟨?_, ?_, ?_⟩
      · exact Stmt.targets_mapValues _ _
      · exact Stmt.fallsThrough_mapValues _ _
      · intro hu
        exact (Stmt.mapValues_eq_nop _ _).2 hu
    exact hfirst.trans (ih (apply r t))

theorem locals_foldl (plan : List Substitution) (r : Revision) :
    (plan.foldl apply r).body.locals = r.body.locals := by
  induction plan generalizing r with
  | nil => rfl
  | cons t plan ih => exact ih (apply r t)

theorem mem_foldl {known : LocalId → Prop} (plan : List Substitution)
    (hk : ∀ t ∈ plan, ∀ y, t.source = .var y → known y) (r : Revision)
    (hr : ∀ u ∈ r.body.units, ∀ y ∈ u.stmt.locals, known y) :
    ∀ u ∈ (plan.foldl apply r).body.units, ∀ y ∈ u.stmt.locals, known y := by
  induction plan generalizing r with
  | nil => exact hr
  | cons t plan ih =>
    refine ih (fun t' ht' ↦ hk t' (List.mem_cons_of_mem t ht')) (apply r t) ?_
    intro u hu y hy
    obtain ⟨q, hq⟩ := List.getElem?_of_mem hu
    simp only [apply, Revision.withNote, Body.modifyAt, List.getElem?_modify] at hq
    obtain ⟨w, hw, rfl⟩ := Option.map_eq_some_iff.1 hq
    have hw := hr w (List.mem_of_getElem? hw)
    split at hy
    · rcases locals_substitute hy with hy | hs
      · exact hw y hy
      · exact hk t List.mem_cons_self y hs
    · exact hw y hy

theorem restated_revise (b : Body) : Body.Restated b (revise b).body :=
  restated_foldl (substitutions b) ⟨b, [], _⟩

theorem ready_revise (hb : b.Ready) : (revise b).body.Ready := by
  refine (restated_revise b).ready hb ?_
  rw [revise, locals_foldl]
  refine mem_foldl _ ?_ _ hb.valid.declared
  intro t ht y hy
  exact hb.valid.declared_of_mentioned ((apt_of_mem ht).known y hy)

theorem not_read_apply (ht : t.source ≠ .var t.old) {u : CodeUnit}
    (hu : (apply r t).body.units[t.position]? = some u) : t.old ∉ u.stmt.uses := by
  intro hm
  simp only [apply, Revision.withNote, Body.modifyAt, List.getElem?_modify] at hu
  obtain ⟨w, -, rfl⟩ := Option.map_eq_some_iff.1 hu
  rw [if_pos trivial] at hm
  rcases uses_substitute hm with ⟨-, hne⟩ | hs
  · exact hne rfl
  · exact ht hs

theorem kinds_foldl (plan : List Substitution) (r : Revision)
    (hr : ∀ n ∈ r.notes, n.kind.isChange = true) :
    ∀ n ∈ (plan.foldl apply r).notes, n.kind.isChange = true := by
  induction plan generalizing r with
  | nil => exact hr
  | cons t plan ih =>
    refine ih (apply r t) fun n hn ↦ ?_
    rcases List.mem_append.1 hn with hn | hn
    · exact hr n hn
    · rw [List.mem_singleton.1 hn]
      rfl

theorem candid_revise (b : Body) : (revise b).Candid b := by
  rcases List.eq_nil_or_concat' (substitutions b) with hnone | ⟨plan, t, hplan⟩
  · have hr : revise b = ⟨b, [], false⟩ := by simp [revise, hnone]
    rw [hr]
    exact Revision.candid_start b
  · -- The unit of the last substitution tells the outcome from the body.
    have hr : revise b = apply (plan.foldl apply ⟨b, [], true⟩) t := by
      have hne : (plan ++ [t]).isEmpty = false := by simp
      rw [revise, hplan, hne, List.foldl_append]
      rfl
    have hmoved : (revise b).body ≠ b := by
      intro he
      have ht : Apt b t := apt_of_mem (by simp [hplan])
      obtain ⟨u, hu, hread⟩ := ht.read
      have hlast : (apply (plan.foldl apply ⟨b, [], true⟩) t).body.units[t.position]? = some u := by
        rw [← hr, he]
        exact hu
      exact not_read_apply ht.ne hlast hread
    refine ⟨?_, ?_, ?_⟩
    · exact kinds_foldl _ _ (by simp)
    · simp [hr, apply, Revision.withNote]
    · have hc : (revise b).changed = true := by rw [hr]; rfl
      simpa [hc] using hmoved

end CopyPropagation

namespace Pass

theorem copyPropagation_carries : copyPropagation.Carries Body.Ready Body.Ready :=
  fun _ _ hb ↦ ⟨⟨_, rfl⟩, CopyPropagation.ready_revise hb⟩

theorem copyPropagation_candid : copyPropagation.Candid :=
  fun _ b _ _ ↦ (CopyPropagation.candid_revise b).finish

theorem copyPropagation_addsNoUnits : copyPropagation.AddsNoUnits :=
  fun _ b _ ↦ (CopyPropagation.restated_revise b).noFresh

end Pass

end ThreeAddress
