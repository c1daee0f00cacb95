import ThreeAddress.Pass.BooleanConstants
import ThreeAddress.Pass.IdentityOperations
import ThreeAddress.Pass.NeedlessCasts
import ThreeAddress.Proofs.Candor
import ThreeAddress.Proofs.Readiness

namespace ThreeAddress

namespace Stmt

variable {s t : Stmt} {place : Place} {e e' : Expr}

/-- `t` is another statement, which leads control where `s` does and mentions no other local. -/
structure Rewrites (s t : Stmt) : Prop where
  ne : t ≠ s
  flow : s.SameFlow t
  locals : t.locals ⊆ s.locals

theorem rewrites_assign (hne : e' ≠ e) (hu : e'.uses ⊆ e.uses) :
    Rewrites (.assign place e) (.assign place e') where
  ne := by simpa using hne
  flow := ⟨rfl, rfl, by simp⟩
  locals := by
    intro x hx
    rw [locals_assign, List.mem_append, List.mem_append] at hx ⊢
    exact hx.imp_left (Or.imp_right (@hu x))

end Stmt

theorem Revision.stmtAt?_perStmt {b : Body} {p : Nat} {s : Stmt}
    (rule : Stmt → Option (Stmt × EventKind × String)) (hs : b.stmtAt? p = some s) :
    (Revision.perStmt rule b).body.stmtAt? p = some (((rule s).map (·.1)).getD s) := by
  have hbody : (Revision.perStmt rule b).body =
      b.mapStmts fun s ↦ ((rule s).map (·.1)).getD s := rfl
  rw [hbody, Body.stmtAt?_mapStmts, hs, Option.map_some]

def IsRule (rule : Stmt → Option (Stmt × EventKind × String)) : Prop :=
  ∀ s t kind message, rule s = some (t, kind, message) → s.Rewrites t ∧ kind.isChange = true

namespace IsRule

variable {rule : Stmt → Option (Stmt × EventKind × String)} {b : Body}

theorem candid (h : IsRule rule) (b : Body) : (Revision.perStmt rule b).Candid b := by
  have hsome : (Revision.perStmt rule b).changed = true ↔
      ∃ u ∈ b.units, (rule u.stmt).isSome = true := by
    simp [Revision.perStmt]
  refine ⟨?_, ?_, ?_⟩
  · intro n hn
    obtain ⟨⟨u, p⟩, -, hn⟩ := List.mem_filterMap.1 hn
    obtain ⟨⟨t, kind, message⟩, ht, rfl⟩ := Option.map_eq_some_iff.1 hn
    exact (h _ _ _ _ ht).2
  · rw [hsome]
    constructor
    · intro hu
      obtain ⟨u, hu, hr⟩ := hu
      obtain ⟨p, hp⟩ := List.getElem?_of_mem hu
      obtain ⟨⟨t, kind, message⟩, ht⟩ := Option.isSome_iff_exists.1 hr
      have hn : (⟨kind, some p, message⟩ : Note) ∈ (Revision.perStmt rule b).notes :=
        List.mem_filterMap.2 ⟨(u, p), List.mem_zipIdx_iff_getElem?.2 hp, by simp [ht]⟩
      exact List.ne_nil_of_mem hn
    · intro hne
      obtain ⟨n, hn⟩ := List.exists_mem_of_ne_nil _ hne
      obtain ⟨⟨u, p⟩, hu, hn⟩ := List.mem_filterMap.1 hn
      refine ⟨u, List.fst_mem_of_mem_zipIdx hu, ?_⟩
      obtain ⟨t, ht, -⟩ := Option.map_eq_some_iff.1 hn
      exact Option.isSome_iff_exists.2 ⟨t, ht⟩
  · rw [hsome]
    constructor
    · intro hu he
      obtain ⟨u, hu, hr⟩ := hu
      obtain ⟨⟨t, kind, message⟩, ht⟩ := Option.isSome_iff_exists.1 hr
      have hus : b.units.map (·.mapStmt fun s ↦ ((rule s).map (·.1)).getD s) = b.units :=
        congrArg Body.units he
      have hfix := map_eq_self_iff.1 hus u hu
      have hst := congrArg CodeUnit.stmt hfix
      simp only [CodeUnit.stmt_mapStmt, ht, Option.map_some, Option.getD_some] at hst
      exact (h _ _ _ _ ht).1.ne hst
    · intro he
      by_contra hnone
      refine he (congrArg (fun us ↦ { b with units := us }) (map_eq_self_iff.2 ?_))
      intro u hu
      have hr : rule u.stmt = none := by
        by_contra hr
        exact hnone ⟨u, hu, Option.isSome_iff_ne_none.2 hr⟩
      simp [CodeUnit.mapStmt, hr]

theorem flow (h : IsRule rule) (s : Stmt) : s.SameFlow (((rule s).map (·.1)).getD s) := by
  cases hr : rule s with
  | none => exact .refl s
  | some t => exact (h s t.1 t.2.1 t.2.2 hr).1.flow

theorem locals (h : IsRule rule) (s : Stmt) : (((rule s).map (·.1)).getD s).locals ⊆ s.locals := by
  cases hr : rule s with
  | none => exact List.Subset.refl _
  | some t => exact (h s t.1 t.2.1 t.2.2 hr).1.locals

theorem restated (h : IsRule rule) (b : Body) :
    Body.Restated b (Revision.perStmt rule b).body :=
  .mapStmts h.flow

theorem ready (h : IsRule rule) (hb : b.Ready) : (Revision.perStmt rule b).body.Ready := by
  refine (h.restated b).ready hb ?_
  intro w hw x hx
  obtain ⟨u, hu, rfl⟩ := List.mem_map.1 hw
  exact hb.valid.declared u hu x (h.locals u.stmt hx)

end IsRule

namespace NeedlessCasts

theorem isRule_foldConstant : IsRule foldConstant := by
  intro s t kind message h
  unfold foldConstant at h
  split at h
  · next place ty c =>
    obtain ⟨d, -, hd⟩ := Option.map_eq_some_iff.1 h
    cases hd
    exact ⟨Stmt.rewrites_assign (by simp) (by simp [Expr.uses, Expr.values, List.filterMap_cons,
      Value.var?]), rfl⟩
  · simp at h

theorem isRule_dropIdentity (b : Body) : IsRule (dropIdentity b) := by
  intro s t kind message h
  unfold dropIdentity at h
  split at h
  · next place ty x =>
    split at h
    · cases h
      exact ⟨Stmt.rewrites_assign (by simp) (by simp [Expr.uses, Expr.values]), rfl⟩
    · simp at h
  · simp at h

end NeedlessCasts

namespace IdentityOperations

theorem survivor?_mem {op : BinaryOp} {left right v : Value}
    (h : survivor? op left right = some v) : v = left ∨ v = right := by
  have hr : ∀ test, survivor?.onRight left right test = some v → v = left ∨ v = right := by
    intro test ht
    unfold survivor?.onRight at ht
    split at ht <;> simp_all
  have he : ∀ test, survivor?.either left right test = some v → v = left ∨ v = right := by
    intro test ht
    unfold survivor?.either at ht
    split at ht
    · simp_all
    · split at ht <;> simp_all
  cases op <;> simp only [survivor?, reduceCtorEq] at h
  case add | mul | and | or | xor => exact he _ h
  case sub | div | shl | shr | ushr => exact hr _ h

theorem isRule_simplify (b : Body) : IsRule (simplify b) := by
  intro s t kind message h
  unfold simplify at h
  split at h
  · next place op left right =>
    split at h
    · simp at h
    · obtain ⟨v, hv, ht⟩ := Option.map_eq_some_iff.1 h
      cases ht
      refine ⟨Stmt.rewrites_assign (by simp) ?_, rfl⟩
      intro x hx
      have hx : v.var? = some x := by simpa [Expr.uses, Expr.values] using hx
      rcases survivor?_mem hv with rfl | rfl
      · simp [Expr.uses, Expr.values, List.mem_filterMap, hx]
      · simp [Expr.uses, Expr.values, List.mem_filterMap, hx]
  · simp at h

end IdentityOperations

namespace BooleanConstants

@[simp] theorem var?_retype (v : Value) : (retype v).var? = v.var? := by
  unfold retype
  split <;> rfl

variable (m : Signature) (b : Body)

theorem var?_retypePartner (v w : Value) : (retypePartner b v w).1.var? = v.var? ∧
    (retypePartner b v w).2.var? = w.var? := by
  unfold retypePartner
  split
  · simp
  · split <;> simp

theorem uses_retypeComparison (c : Comparison) : (retypeComparison b c).values.filterMap Value.var? =
    c.values.filterMap Value.var? := by
  obtain ⟨hl, hr⟩ := var?_retypePartner b c.left c.right
  simp only [Comparison.values, retypeComparison, List.filterMap_cons, List.filterMap_nil, hl, hr]

theorem uses_retypeCall (c : Call) : (retypeCall c).values.filterMap Value.var? =
    c.values.filterMap Value.var? := by
  have ha : (retypeCall c).arguments.filterMap Value.var? = c.arguments.filterMap Value.var? := by
    have hv : ∀ q : Value × Nat, Value.var? (if c.method.parameters[q.2]? = some .boolean then
        retype q.1 else q.1) = q.1.var? := by
      intro q
      split <;> simp
    calc (retypeCall c).arguments.filterMap Value.var?
        = c.arguments.zipIdx.filterMap (fun q ↦ q.1.var?) := by
          simp only [retypeCall, List.filterMap_map, Function.comp_def, hv]
      _ = (c.arguments.zipIdx.map Prod.fst).filterMap Value.var? := by
          rw [List.filterMap_map]
          rfl
      _ = c.arguments.filterMap Value.var? := by
          rw [List.zipIdx_map_fst]
  simp only [Call.values, List.filterMap_append, ha]
  rfl

theorem uses_retypeExpr (place : Place) (e : Expr) : (retypeExpr b place e).uses = e.uses := by
  cases e with
  | value v =>
    simp only [retypeExpr, Expr.uses, Expr.values]
    split <;> simp [List.filterMap_cons]
  | binary op left right =>
    obtain ⟨hl, hr⟩ := var?_retypePartner b left right
    simp only [retypeExpr]
    split
    · simp only [Expr.uses, Expr.values, List.filterMap_cons, List.filterMap_nil, hl, hr]
    · rfl
  | compare c => exact uses_retypeComparison b c
  | invoke call => exact uses_retypeCall call
  | _ => rfl

theorem locals_retypeStmt (s : Stmt) : (retypeStmt m b s).locals = s.locals := by
  have hu : (retypeStmt m b s).uses = s.uses := by
    fun_cases retypeStmt m b s with
    | case1 place e =>
      have he := uses_retypeExpr b place e
      simp only [Stmt.uses, Stmt.values, List.filterMap_append, Expr.uses] at he ⊢
      rw [he]
    | case2 v => split <;> simp [Stmt.uses, Stmt.values, List.filterMap_cons]
    | case3 c t => exact uses_retypeComparison b c
    | case4 call => exact uses_retypeCall call
    | case5 => rfl
  have hd : (retypeStmt m b s).def? = s.def? := by fun_cases retypeStmt m b s <;> rfl
  rw [Stmt.locals, hu, hd, Stmt.locals]

theorem sameFlow_retypeStmt (s : Stmt) : s.SameFlow (retypeStmt m b s) := by
  fun_cases retypeStmt m b s <;> exact ⟨rfl, rfl, by simp⟩

theorem differences_self (s : Stmt) : differences s s = 0 := by
  have hz : ∀ q ∈ s.values.zip s.values, q.1 = q.2 := by
    intro q hq
    obtain ⟨i, hi, rfl⟩ := List.getElem_of_mem hq
    simp
  rw [differences, List.countP_eq_zero]
  intro q hq
  simpa using hz q hq

theorem isRule_retyped? : IsRule (retyped? m b) := by
  intro s t kind message h
  simp only [retyped?] at h
  split at h
  · simp at h
  · next hd =>
    cases h
    refine ⟨⟨?_, sameFlow_retypeStmt m b s, ?_⟩, rfl⟩
    · intro he
      exact hd (by rw [he, differences_self])
    · rw [locals_retypeStmt]
      exact List.Subset.refl _

end BooleanConstants

namespace Pass

/-- The pass rewrites statements by a rule, which may depend on the method and the body. -/
def ByRule (pass : Pass) : Prop :=
  ∃ rule : Signature → Body → Stmt → Option (Stmt × EventKind × String),
    (∀ m b, IsRule (rule m b)) ∧ ∀ m b, pass.run m b = (Revision.perStmt (rule m b) b).finish

theorem constantCasts_byRule : constantCasts.ByRule :=
  ⟨fun _ _ ↦ NeedlessCasts.foldConstant, fun _ _ ↦ NeedlessCasts.isRule_foldConstant,
    fun _ _ ↦ rfl⟩

theorem identityCasts_byRule : identityCasts.ByRule :=
  ⟨fun _ b ↦ NeedlessCasts.dropIdentity b, fun _ b ↦ NeedlessCasts.isRule_dropIdentity b,
    fun _ _ ↦ rfl⟩

theorem identityOperations_byRule : identityOperations.ByRule :=
  ⟨fun _ b ↦ IdentityOperations.simplify b, fun _ b ↦ IdentityOperations.isRule_simplify b,
    fun _ _ ↦ rfl⟩

theorem booleanConstants_byRule : booleanConstants.ByRule :=
  ⟨BooleanConstants.retyped?, BooleanConstants.isRule_retyped?, fun _ _ ↦ rfl⟩

variable {pass : Pass}

theorem ByRule.carries (h : pass.ByRule) : pass.Carries Body.Ready Body.Ready := by
  intro m b hb
  obtain ⟨rule, hrule, hrun⟩ := h
  rw [hrun]
  exact ⟨⟨_, rfl⟩, (hrule m b).ready hb⟩

theorem ByRule.candid (h : pass.ByRule) : pass.Candid := by
  intro m b _ _
  obtain ⟨rule, hrule, hrun⟩ := h
  rw [hrun]
  exact ((hrule m b).candid b).finish

theorem ByRule.noFresh (h : pass.ByRule) : pass.AddsNoUnits := by
  intro m b _
  obtain ⟨rule, hrule, hrun⟩ := h
  rw [hrun]
  exact ((hrule m b).restated b).noFresh

end Pass

end ThreeAddress
