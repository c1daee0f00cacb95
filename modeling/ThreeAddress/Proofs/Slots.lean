import ThreeAddress.Stmt

namespace ThreeAddress

theorem map_eq_self_iff {α : Type} {f : α → α} {l : List α} :
    l.map f = l ↔ ∀ a ∈ l, f a = a := by
  simpa using List.map_inj_left (f := f) (g := id) (l := l)

namespace Value

@[simp] theorem mapLocal_id (v : Value) : v.mapLocal (fun x ↦ x) = v := by
  cases v <;> rfl

@[simp] theorem var?_mapLocal (f : LocalId → LocalId) (v : Value) :
    (v.mapLocal f).var? = v.var?.map f := by
  cases v <;> rfl

theorem var?_eq_some {v : Value} {x : LocalId} : v.var? = some x ↔ v = .var x := by
  cases v <;> simp [var?]

end Value

@[simp] theorem Comparison.mapValues_id (c : Comparison) : c.mapValues (fun v ↦ v) = c := rfl

@[simp] theorem Comparison.mapValues_mapValues (f g : Value → Value) (c : Comparison) :
    (c.mapValues f).mapValues g = c.mapValues (g ∘ f) := rfl

@[simp] theorem Call.mapValues_id (c : Call) : c.mapValues (fun v ↦ v) = c := by
  simp [Call.mapValues]

@[simp] theorem Call.mapValues_mapValues (f g : Value → Value) (c : Call) :
    (c.mapValues f).mapValues g = c.mapValues (g ∘ f) := by
  simp [Call.mapValues]

@[simp] theorem Expr.mapValues_id (e : Expr) : e.mapValues (fun v ↦ v) = e := by
  cases e <;> simp [Expr.mapValues]

@[simp] theorem Expr.mapValues_mapValues (f g : Value → Value) (e : Expr) :
    (e.mapValues f).mapValues g = e.mapValues (g ∘ f) := by
  cases e <;> simp [Expr.mapValues]

theorem Expr.mayThrow_mapValues (f : Value → Value) (e : Expr) :
    (e.mapValues f).mayThrow = e.mayThrow := by
  cases e <;> rfl

namespace Place

@[simp] theorem mapValues_id (p : Place) : p.mapValues (fun v ↦ v) = p := by
  cases p <;> simp [mapValues]

@[simp] theorem mapValues_mapValues (f g : Value → Value) (p : Place) :
    (p.mapValues f).mapValues g = p.mapValues (g ∘ f) := by
  cases p <;> simp [mapValues]

theorem var?_eq_some {p : Place} {x : LocalId} : p.var? = some x ↔ p = .var x := by
  cases p <;> simp [var?]

@[simp] theorem var?_mapValues (f : Value → Value) (p : Place) :
    (p.mapValues f).var? = p.var? := by
  cases p <;> rfl

theorem mayThrow_mapValues (f : Value → Value) (p : Place) :
    (p.mapValues f).mayThrow = p.mayThrow := by
  cases p <;> simp [mapValues, mayThrow]

end Place

namespace Stmt

theorem locals_assign (place : Place) (e : Expr) : (assign place e).locals =
    place.values.filterMap Value.var? ++ e.uses ++ place.var?.toList := by
  simp [locals, uses, values, def?, Expr.uses]

variable (f : UnitId → UnitId) (s : Stmt)

@[simp] theorem mapTargets_id : s.mapTargets (fun t ↦ t) = s := by
  cases s <;> simp [mapTargets]

@[simp] theorem mapTargets_mapTargets (g : UnitId → UnitId) :
    (s.mapTargets f).mapTargets g = s.mapTargets (g ∘ f) := by
  cases s <;> simp [mapTargets]

variable {f s} in
theorem mapTargets_congr {g : UnitId → UnitId} (h : ∀ t ∈ s.targets, f t = g t) :
    s.mapTargets f = s.mapTargets g := by
  cases s with
  | branch c t => simp [mapTargets, h t (by simp [targets])]
  | goto t => simp [mapTargets, h t (by simp [targets])]
  | switch k ts d =>
    have hts : ∀ t ∈ ts, f t = g t := fun t ht ↦ h t (by simp [targets, ht])
    have hd : f d = g d := h d (by simp [targets])
    simpa only [mapTargets, hd, switch.injEq, true_and, and_true] using List.map_congr_left hts
  | _ => rfl

variable {f s} in
theorem mapTargets_eq_self_iff : s.mapTargets f = s ↔ ∀ t ∈ s.targets, f t = t := by
  constructor
  · intro h
    rw [← map_eq_self_iff, ← targets_mapTargets, h]
  · intro h
    rw [mapTargets_congr (g := fun t ↦ t) h, mapTargets_id]

@[simp] theorem values_mapTargets : (s.mapTargets f).values = s.values := by
  cases s <;> rfl

@[simp] theorem def?_mapTargets : (s.mapTargets f).def? = s.def? := by
  cases s <;> rfl

@[simp] theorem uses_mapTargets : (s.mapTargets f).uses = s.uses := by
  simp [uses]

@[simp] theorem locals_mapTargets : (s.mapTargets f).locals = s.locals := by
  simp [locals]

@[simp] theorem fallsThrough_mapTargets : (s.mapTargets f).fallsThrough = s.fallsThrough := by
  cases s <;> rfl

@[simp] theorem mayThrow_mapTargets : (s.mapTargets f).mayThrow = s.mayThrow := by
  cases s <;> rfl

@[simp] theorem mapTargets_eq_nop : s.mapTargets f = .nop ↔ s = .nop := by
  cases s <;> simp [mapTargets]

@[simp] theorem mapTargets_eq_assign {place : Place} {e : Expr} :
    s.mapTargets f = .assign place e ↔ s = .assign place e := by
  cases s <;> simp [mapTargets]

variable (g : Value → Value)

@[simp] theorem targets_mapValues : (s.mapValues g).targets = s.targets := by
  cases s <;> rfl

@[simp] theorem def?_mapValues : (s.mapValues g).def? = s.def? := by
  cases s <;> simp [mapValues, def?]

@[simp] theorem fallsThrough_mapValues : (s.mapValues g).fallsThrough = s.fallsThrough := by
  cases s <;> rfl

@[simp] theorem mayThrow_mapValues : (s.mapValues g).mayThrow = s.mayThrow := by
  cases s with
  | assign place e =>
    rw [mapValues, mayThrow, Place.mayThrow_mapValues, Expr.mayThrow_mapValues, mayThrow]
  | _ => rfl

@[simp] theorem mapValues_id : s.mapValues (fun v ↦ v) = s := by
  cases s <;> simp [mapValues]

@[simp] theorem mapValues_mapValues (f : Value → Value) :
    (s.mapValues f).mapValues g = s.mapValues (g ∘ f) := by
  cases s <;> simp [mapValues]

@[simp] theorem mapValues_eq_nop : s.mapValues g = .nop ↔ s = .nop := by
  cases s <;> simp [mapValues]

variable (r : LocalId → LocalId)

@[simp] theorem targets_mapDef : (s.mapDef r).targets = s.targets := by
  fun_cases mapDef r s <;> rfl

@[simp] theorem values_mapDef : (s.mapDef r).values = s.values := by
  fun_cases mapDef r s <;> rfl

@[simp] theorem def?_mapDef : (s.mapDef r).def? = s.def?.map r := by
  cases s with
  | assign place e => cases place <;> rfl
  | _ => rfl

@[simp] theorem fallsThrough_mapDef : (s.mapDef r).fallsThrough = s.fallsThrough := by
  fun_cases mapDef r s <;> rfl

@[simp] theorem mayThrow_mapDef : (s.mapDef r).mayThrow = s.mayThrow := by
  cases s with
  | assign place e => cases place <;> rfl
  | _ => rfl

@[simp] theorem targets_mapLocals : (s.mapLocals r).targets = s.targets := by
  simp [mapLocals]

@[simp] theorem fallsThrough_mapLocals : (s.mapLocals r).fallsThrough = s.fallsThrough := by
  simp [mapLocals]

@[simp] theorem mayThrow_mapLocals : (s.mapLocals r).mayThrow = s.mayThrow := by
  simp [mapLocals]

@[simp] theorem def?_mapLocals : (s.mapLocals r).def? = s.def?.map r := by
  simp [mapLocals]

@[simp] theorem uses_mapLocals : (s.mapLocals r).uses = s.uses.map r := by
  simp only [uses, mapLocals, values_mapDef, values_mapValues, List.filterMap_map,
    List.map_filterMap, Function.comp_def, Value.var?_mapLocal]

/-- The locals of a renamed statement are those of the statement, renamed, in the same order. -/
theorem locals_mapLocals : (s.mapLocals r).locals = s.locals.map r := by
  cases h : s.def? <;> simp [locals, h]

@[simp] theorem mapLocals_id : s.mapLocals (fun x ↦ x) = s := by
  have hd : s.mapDef (fun x ↦ x) = s := by fun_cases mapDef (fun x ↦ x) s <;> rfl
  have hv : Value.mapLocal (fun x ↦ x) = fun v ↦ v := funext Value.mapLocal_id
  rw [mapLocals, hd, hv, mapValues_id]

end Stmt

end ThreeAddress
