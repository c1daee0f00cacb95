import Mathlib
import ThreeAddress.Proofs.Pass.CopyPropagation
import ThreeAddress.Proofs.Repetition

namespace ThreeAddress

namespace CopyPropagation

variable {b : Body} {p : Nat} {s s' : Stmt} {x y z : LocalId} {v : Value} {c : Constant}
  {t : Substitution} {plan : List Substitution}

@[simp] theorem dereferenced_mapValues (f : Value → Value) (s : Stmt) :
    dereferenced (s.mapValues f) = (dereferenced s).map f := by
  cases s with
  | assign place e =>
    cases place <;> cases e <;>
      simp [dereferenced, Stmt.mapValues, Place.mapValues, Expr.mapValues, Call.mapValues,
        Option.toList_map]
  | invoke call => simp [dereferenced, Stmt.mapValues, Call.mapValues, Option.toList_map]
  | _ => rfl

/-- What an operand becomes under replacements that are made one after another. -/
def settle (plan : List Substitution) (v : Value) : Value :=
  plan.foldl (fun v t ↦ substitute t.old t.source v) v

def planAt (b : Body) (p : Nat) : List Substitution :=
  (substitutions b).filter fun t ↦ t.position == p

theorem stmtAt?_apply (r : Revision) (t : Substitution) (p : Nat) : (apply r t).body.stmtAt? p =
    (r.body.stmtAt? p).map
      fun s ↦ if t.position = p then s.mapValues (substitute t.old t.source) else s := by
  simp only [apply, Revision.withNote, Body.stmtAt?, Body.modifyAt, List.getElem?_modify]
  cases r.body.units[p]? with
  | none => rfl
  | some u => by_cases hp : t.position = p <;> simp [hp]

theorem stmtAt?_foldl (plan : List Substitution) (r : Revision) (p : Nat) :
    (plan.foldl apply r).body.stmtAt? p =
      (r.body.stmtAt? p).map (·.mapValues (settle (plan.filter fun t ↦ t.position == p))) := by
  induction plan generalizing r with
  | nil =>
    have hid : settle [] = fun v ↦ v := rfl
    simp [hid]
  | cons t plan ih =>
    rw [List.foldl_cons, ih, stmtAt?_apply, Option.map_map]
    congr 1
    funext s
    by_cases hp : t.position = p
    · have hsettle : settle (t :: plan.filter fun t ↦ t.position == p) =
          settle (plan.filter fun t ↦ t.position == p) ∘ substitute t.old t.source := rfl
      simp [hp, hsettle]
    · simp [hp]

theorem stmtAt?_revise (b : Body) (p : Nat) :
    (revise b).body.stmtAt? p = (b.stmtAt? p).map (·.mapValues (settle (planAt b p))) :=
  stmtAt?_foldl (substitutions b) ⟨b, [], _⟩ p

def Ascending (plan : List Substitution) : Prop :=
  plan.Pairwise fun t t' ↦ t.old.index < t'.old.index

theorem ascending_operands (s : Stmt) : (operands s).Pairwise fun x y ↦ x.index < y.index := by
  have hsorted : (operands s).Pairwise fun x y ↦ decide (x.index ≤ y.index) = true := by
    refine List.pairwise_mergeSort ?_ ?_ _
    · simpa using fun x y z ↦ Nat.le_trans
    · simpa using fun x y ↦ Nat.le_total _ _
  have hnodup : (operands s).Nodup := (List.mergeSort_perm _ _).nodup_iff.2 (nodup_eraseDups _)
  refine (hsorted.and hnodup).imp fun ⟨hle, hne⟩ ↦ ?_
  exact Nat.lt_of_le_of_ne (of_decide_eq_true hle) fun he ↦ hne (congrArg LocalId.mk he)

def planned (b : Body) (i : Reaching) (p : Nat) (s : Stmt) (x : LocalId) : Option Substitution :=
  match source? b i x p with
  | some (.const c) => if (dereferenced s).contains (.var x) then none else some ⟨p, x, .const c⟩
  | some v => some ⟨p, x, v⟩
  | none => none

theorem substitutionsAt_eq (b : Body) (i : Reaching) (p : Nat) (s : Stmt) :
    substitutionsAt b i p s = (operands s).filterMap (planned b i p s) := rfl

theorem mem_substitutionsAt {i : Reaching} : t ∈ substitutionsAt b i p s ↔
    ∃ x ∈ operands s, planned b i p s x = some t := by
  rw [substitutionsAt_eq, List.mem_filterMap]

theorem planned_eq_some {i : Reaching} (h : planned b i p s x = some t) :
    t.position = p ∧ t.old = x ∧ ∀ c, t.source = .const c → .var x ∉ dereferenced s := by
  unfold planned at h
  split at h
  · split at h
    · simp at h
    · next hc =>
      cases h
      exact ⟨rfl, rfl, fun _ _ ↦ by simpa using hc⟩
  · next v hnot _ =>
    cases h
    exact ⟨rfl, rfl, fun c hc ↦ (hnot c hc).elim⟩
  · simp at h

theorem ordered_substitutions (b : Body) : (substitutions b).Pairwise fun t t' ↦
    t.position = t'.position → t.old.index < t'.old.index := by
  refine List.pairwise_flatMap.2 ⟨?_, ?_⟩
  · rintro ⟨u, p⟩ -
    change (substitutionsAt b b.reaching p u.stmt).Pairwise _
    rw [substitutionsAt_eq]
    refine List.Pairwise.filterMap _ ?_ (ascending_operands u.stmt)
    intro x y hlt t ht t' ht' _
    rwa [(planned_eq_some ht).2.1, (planned_eq_some ht').2.1]
  · have hdistinct : b.units.zipIdx.Pairwise fun a a' ↦ a.2 ≠ a'.2 := by
      refine List.pairwise_map.1 ?_
      rw [List.zipIdx_map_snd]
      exact List.nodup_range'
    refine hdistinct.imp fun hne t ht t' ht' he ↦ ?_
    obtain ⟨x, -, ht⟩ := mem_substitutionsAt.1 ht
    obtain ⟨y, -, ht'⟩ := mem_substitutionsAt.1 ht'
    rw [(planned_eq_some ht).1, (planned_eq_some ht').1] at he
    exact absurd he hne

theorem ascending_planAt (b : Body) (p : Nat) : Ascending (planAt b p) := by
  have hplan : (planAt b p).Pairwise fun t t' ↦
      t.position = t'.position → t.old.index < t'.old.index :=
    (ordered_substitutions b).filter _
  refine hplan.imp_of_mem fun ht ht' h ↦ h ?_
  have hp : ∀ t ∈ planAt b p, t.position = p := fun t ht ↦ by simpa using (List.mem_filter.1 ht).2
  rw [hp _ ht, hp _ ht']

/-- The replacements lead from the local to a constant: each puts in a local that is replaced
later. -/
inductive Fades (plan : List Substitution) : LocalId → Prop
  | constant {t : Substitution} {c : Constant} : t ∈ plan → t.source = .const c → Fades plan t.old
  | onward {t : Substitution} {y : LocalId} : t ∈ plan → t.source = .var y →
      t.old.index < y.index → Fades plan y → Fades plan t.old

theorem Fades.exists_old (h : Fades plan x) : ∃ t ∈ plan, t.old = x := by
  cases h with
  | constant ht _ => exact ⟨_, ht, rfl⟩
  | onward ht _ _ _ => exact ⟨_, ht, rfl⟩

theorem Fades.mono {plan' : List Substitution} (h : Fades plan x) (hs : plan ⊆ plan') :
    Fades plan' x := by
  induction h with
  | constant ht hc => exact .constant (hs ht) hc
  | onward ht hy hlt _ ih => exact .onward (hs ht) hy hlt ih

/-- A chain of replacements that begins behind the first one never comes back to it. -/
theorem Fades.of_cons (ha : Ascending (t :: plan)) (h : Fades (t :: plan) x) :
    x = t.old ∨ Fades plan x := by
  induction h with
  | @constant t' c ht hc =>
    obtain rfl | ht := List.mem_cons.1 ht
    · exact .inl rfl
    · exact .inr (.constant ht hc)
  | @onward t' y ht hy hlt _ ih =>
    obtain rfl | ht := List.mem_cons.1 ht
    · exact .inl rfl
    obtain rfl | hrest := ih
    · exact absurd ((List.pairwise_cons.1 ha).1 t' ht) (Nat.lt_asymm hlt)
    · exact .inr (.onward ht hy hlt hrest)

theorem Fades.cons_of_source (ha : Ascending (t :: plan)) (hs : t.source = .var y)
    (h : Fades plan y) : Fades (t :: plan) t.old := by
  obtain ⟨t', ht', rfl⟩ := h.exists_old
  exact .onward List.mem_cons_self hs ((List.pairwise_cons.1 ha).1 t' ht')
    (h.mono (List.subset_cons_self t plan))

theorem Fades.source_of_cons (ha : Ascending (t :: plan)) (hs : t.source = .var y)
    (h : Fades (t :: plan) t.old) : Fades plan y := by
  have only {t' : Substitution} (ht' : t' ∈ t :: plan) (he : t'.old = t.old) : t' = t := by
    obtain rfl | ht' := List.mem_cons.1 ht'
    · rfl
    · exact absurd ((List.pairwise_cons.1 ha).1 t' ht') (by simp [he])
  generalize hx : t.old = x at h
  cases h with
  | constant ht' hc =>
    rw [only ht' hx.symm, hs] at hc
    cases hc
  | onward ht' hy hlt hrest =>
    obtain rfl := only ht' hx.symm
    obtain rfl : _ = y := Value.var.inj (hy.symm.trans hs)
    exact (hrest.of_cons ha).resolve_left fun he ↦ Nat.lt_irrefl _ (he ▸ hlt)

theorem settle_const (plan : List Substitution) (c : Constant) :
    settle plan (.const c) = .const c := by
  induction plan with
  | nil => rfl
  | cons t plan ih => exact ih

theorem settle_var_iff (ha : Ascending plan) :
    (settle plan (.var x)).var? = none ↔ Fades plan x := by
  induction plan generalizing x with
  | nil =>
    refine ⟨fun h ↦ by simp [settle, Value.var?] at h, fun h ↦ ?_⟩
    obtain ⟨t, ht, -⟩ := h.exists_old
    simp at ht
  | cons t plan ih =>
    obtain ⟨hfirst, hrest⟩ := List.pairwise_cons.1 ha
    have hstep : settle (t :: plan) (.var x) =
        settle plan (substitute t.old t.source (.var x)) := rfl
    rw [hstep]
    by_cases hx : x = t.old
    · have hput : substitute t.old t.source (.var x) = t.source := by simp [substitute, hx]
      rw [hput]
      cases hs : t.source with
      | const c =>
        simp only [settle_const, Value.var?, true_iff]
        exact hx ▸ .constant List.mem_cons_self hs
      | var y =>
        rw [ih hrest, hx]
        exact ⟨fun h ↦ h.cons_of_source ha hs, fun h ↦ h.source_of_cons ha hs⟩
    · have hkept : substitute t.old t.source (.var x) = .var x := by simp [substitute, hx]
      rw [hkept, ih hrest]
      exact ⟨fun h ↦ h.mono (List.subset_cons_self t plan), fun h ↦ (h.of_cons ha).resolve_left hx⟩

/-- Where a unit dereferences a local in one body, it dereferences a local in the other one. -/
def KeepsDereferenced (b c : Body) : Prop :=
  ∀ p s s', b.stmtAt? p = some s → c.stmtAt? p = some s' →
    List.Forall₂ (fun v w ↦ v.var?.isSome → w.var?.isSome) (dereferenced s) (dereferenced s')

theorem mem_planAt : t ∈ planAt b p ↔ t ∈ substitutions b ∧ t.position = p := by
  simp [planAt]

theorem planned_of_mem (h : t ∈ substitutions b) : ∃ s, b.stmtAt? t.position = some s ∧
    planned b b.reaching t.position s t.old = some t := by
  obtain ⟨⟨u, p⟩, hu, ht⟩ := List.mem_flatMap.1 h
  obtain ⟨x, -, ht⟩ := mem_substitutionsAt.1 ht
  obtain ⟨rfl, rfl, -⟩ := planned_eq_some ht
  exact ⟨u.stmt, Body.stmtAt?_of_unit (List.mem_zipIdx_iff_getElem?.1 hu), ht⟩

/-- A local that the unit dereferences does not fade but over another local of the unit. -/
theorem Fades.of_dereferenced (hs : b.stmtAt? p = some s) (hx : .var x ∈ dereferenced s)
    (h : Fades (planAt b p) x) :
    ∃ y, ⟨p, x, .var y⟩ ∈ substitutions b ∧ x.index < y.index ∧ Fades (planAt b p) y := by
  cases h with
  | constant ht hc =>
    obtain ⟨hmem, rfl⟩ := mem_planAt.1 ht
    obtain ⟨s', hs', hplanned⟩ := planned_of_mem hmem
    obtain rfl := Option.some.inj (hs'.symm.trans hs)
    exact absurd hx ((planned_eq_some hplanned).2.2 _ hc)
  | @onward t y ht hy hlt hrest =>
    obtain ⟨hmem, rfl⟩ := mem_planAt.1 ht
    exact ⟨y, hy ▸ hmem, hlt, hrest⟩

/-- Copy propagation keeps locals where they are dereferenced, unless one is replaced by another
local of the unit that is replaced later, and the replacements lead on from there to a constant. -/
theorem dereferenced_kept_iff (b : Body) : KeepsDereferenced b (revise b).body ↔
    ¬ ∃ p s x y, b.stmtAt? p = some s ∧ .var x ∈ dereferenced s ∧
      ⟨p, x, .var y⟩ ∈ substitutions b ∧ x.index < y.index ∧ Fades (planAt b p) y := by
  have hunit : ∀ p s, b.stmtAt? p = some s →
      (revise b).body.stmtAt? p = some (s.mapValues (settle (planAt b p))) := by
    intro p s hs
    rw [stmtAt?_revise, hs, Option.map_some]
  constructor
  · rintro hkept ⟨p, s, x, y, hs, hx, ht, hlt, hy⟩
    have hfades : Fades (planAt b p) x := .onward (mem_planAt.2 ⟨ht, rfl⟩) rfl hlt hy
    have hslots := hkept p s _ hs (hunit p s hs)
    rw [dereferenced_mapValues, List.forall₂_map_right_iff, List.forall₂_same] at hslots
    have hsome := hslots _ hx rfl
    rw [(settle_var_iff (ascending_planAt b p)).2 hfades] at hsome
    exact Bool.false_ne_true hsome
  · intro hno p s s' hs hs'
    obtain rfl := Option.some.inj (hs'.symm.trans (hunit p s hs))
    rw [dereferenced_mapValues, List.forall₂_map_right_iff, List.forall₂_same]
    intro v hv hsome
    obtain ⟨x, hx⟩ := Option.isSome_iff_exists.1 hsome
    obtain rfl := Value.var?_eq_some.1 hx
    rw [Option.isSome_iff_ne_none]
    intro hnone
    have hfades := (settle_var_iff (ascending_planAt b p)).1 hnone
    obtain ⟨y, ht, hlt, hy⟩ := hfades.of_dereferenced hs hv
    exact hno ⟨p, s, x, y, hs, hv, ht, hlt, hy⟩

/-- A field of an object that is known to be null, written through a copy of the reference, and by
the reference itself. -/
def writtenNull : Body where
  locals := [⟨⟨0⟩, "x", .object "A"⟩, ⟨⟨1⟩, "y", .object "A"⟩]
  units :=
    [⟨⟨0⟩, .assign (.var ⟨1⟩) (.value (.const .null))⟩,
      ⟨⟨1⟩, .assign (.var ⟨0⟩) (.value (.var ⟨1⟩))⟩,
      ⟨⟨2⟩, .assign (.field (some (.var ⟨0⟩)) ⟨"A", "f", .object "A"⟩) (.value (.var ⟨1⟩))⟩,
      ⟨⟨3⟩, .ret none⟩]
  nextUnit := 4

/-- The receiver `x` gives way to `y`, and then every `y` of the unit to null. -/
theorem dereferenced_lost_writtenNull : writtenNull.validate = .ok () ∧
    ¬ KeepsDereferenced writtenNull (revise writtenNull).body := by
  refine ⟨by decide, fun hkept ↦ ?_⟩
  have hafter : (revise writtenNull).body.stmtAt? 2 =
      some (.assign (.field (some (.const .null)) ⟨"A", "f", .object "A"⟩)
        (.value (.const .null))) := by decide_cbv
  have hslots := hkept 2 _ _ rfl hafter
  simp [dereferenced, Value.var?] at hslots

end CopyPropagation

end ThreeAddress
