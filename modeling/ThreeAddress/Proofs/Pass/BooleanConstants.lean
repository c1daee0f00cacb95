import ThreeAddress.Pass.BooleanConstants
import ThreeAddress.Proofs.Body.Edits
import ThreeAddress.Proofs.Comparisons
import ThreeAddress.Proofs.Flow.Stores
import ThreeAddress.Proofs.Pass.Statements

namespace ThreeAddress

def Stmt.compared? : Stmt → Option Comparison
  | branch condition _ => some condition
  | assign _ e => e.comparison?
  | _ => none

theorem Stmt.compared?_eq_some {s : Stmt} {c : Comparison} : s.compared? = some c ↔
    (∃ target, s = branch c target) ∨ ∃ place, s = assign place (.compare c) := by
  unfold compared?
  split
  · simp
  · next place e => cases e <;> simp [Expr.comparison?]
  · simp_all

def Comparison.outcome? (σ : LocalId → Constant) (c : Comparison) : Option Bool :=
  c.op.compare? (c.left.eval id σ) (c.right.eval id σ)

namespace CompareOp

variable {op : CompareOp} {n : Int} {x : Bool}

/-- An order that knows only which of two integers is the greater one does not care for sides. -/
theorem compare?_swap {c d : Constant} {i j : Int64} (hc : c.integer? = some i)
    (hd : d.integer? = some j) : op.compare? d c = op.swap.compare? c d := by
  have hswap : compare i.toInt j.toInt = (compare j.toInt i.toInt).swap := Std.OrientedCmp.eq_swap
  rw [compare?_of_integers hd hc, compare?_of_integers hc hd, hswap, holds_swap]

theorem compare?_bool_int (op : CompareOp) (x : Bool) (n : Int32) :
    op.compare? (.bool x) (.int n) = some (op.holds (compare x.toInt n.toInt)) := by
  rw [compare?_of_integers rfl rfl, Int32.toInt_toInt64]
  cases x <;> rfl

theorem compare?_bool_bool (op : CompareOp) (x y : Bool) :
    op.compare? (.bool x) (.bool y) = some (op.holds (compare x.toInt y.toInt)) := by
  cases x <;> cases y <;> rfl

def Tolerates (op : CompareOp) (n : Int) (x : Bool) : Prop :=
  n = 0 ∨ n = 1 ∨ 1 < n ∧ (x = false ∨ op = le ∨ op = gt) ∨
    n < 0 ∧ (x = false ∧ (op = eq ∨ op = ne) ∨ x = true ∧ (op = lt ∨ op = ge))

theorem holds_below_iff : op.holds (compare x.toInt true.toInt) = op.holds .lt ↔
    x = false ∨ op = le ∨ op = gt := by
  cases x <;> cases op <;> decide

theorem holds_above_iff : op.holds (compare x.toInt true.toInt) = op.holds .gt ↔
    x = false ∧ (op = eq ∨ op = ne) ∨ x = true ∧ (op = lt ∨ op = ge) := by
  cases x <;> cases op <;> decide

/-- Any number but zero may count as `true` exactly if the operator tolerates it. -/
theorem holds_truth_iff : op.holds (compare x.toInt (n != 0).toInt) =
    op.holds (compare x.toInt n) ↔ op.Tolerates n x := by
  have hx : 0 ≤ x.toInt ∧ x.toInt ≤ 1 := by cases x <;> decide
  obtain hneg | rfl | rfl | hbig : n < 0 ∨ n = 0 ∨ n = 1 ∨ 1 < n := by omega
  · have htruth : (n != 0) = true := by simpa using Int.ne_of_lt hneg
    have hcompare : compare x.toInt n = .gt := Int.compare_eq_gt.2 (by omega)
    rw [htruth, hcompare, holds_above_iff]
    grind [Tolerates]
  · exact iff_of_true rfl (.inl rfl)
  · exact iff_of_true rfl (.inr (.inl rfl))
  · have htruth : (n != 0) = true := by simpa using show n ≠ 0 by omega
    have hcompare : compare x.toInt n = .lt := Int.compare_eq_lt.2 (by omega)
    rw [htruth, hcompare, holds_below_iff]
    grind [Tolerates]

end CompareOp

namespace BooleanConstants

variable {m : Signature} {b : Body} {c : Comparison} {op : CompareOp} {v : Value} {n : Int32}
  {s : Stmt} {σ : LocalId → Constant} {x : Bool} {p : Nat}

/-- The comparison is of a boolean operand `v` and a number `n`. With the boolean on the left it is
`v op n`. -/
inductive Mixes (b : Body) : Comparison → CompareOp → Value → Int32 → Prop
  | right {op : CompareOp} {v : Value} {n : Int32} : isBoolean b v = true →
      Mixes b ⟨op, v, .const (.int n)⟩ op v n
  | left {op : CompareOp} {v : Value} {n : Int32} : isBoolean b v = true →
      Mixes b ⟨op, .const (.int n), v⟩ op.swap v n

theorem retype_of_isBoolean (h : isBoolean b v = true) : retype v = v := by
  unfold retype
  split
  · next n => simp [isBoolean, Constant.ty] at h
  · rfl

theorem eq_int_of_retype_ne (h : retype v ≠ v) : ∃ n, v = .const (.int n) := by
  unfold retype at h
  split at h
  · next n => exact ⟨n, rfl⟩
  · exact absurd rfl h

theorem retypeComparison_of_mixes (h : Mixes b c op v n) :
    retypeComparison b c = c.mapValues retype := by
  cases h with
  | right hv =>
    simp [retypeComparison, retypePartner, Comparison.mapValues, hv, retype_of_isBoolean hv]
  | left hv =>
    have hn : isBoolean b (.const (.int n)) = false := rfl
    simp [retypeComparison, retypePartner, Comparison.mapValues, hv, hn, retype_of_isBoolean hv]

theorem retypeComparison_ne_iff : retypeComparison b c ≠ c ↔ ∃ op v n, Mixes b c op v n := by
  obtain ⟨op, left, right⟩ := c
  constructor
  · intro hne
    by_cases hl : isBoolean b left = true
    · have hright : retype right ≠ right := by simpa [retypeComparison, retypePartner, hl] using hne
      obtain ⟨n, rfl⟩ := eq_int_of_retype_ne hright
      exact ⟨op, left, n, .right hl⟩
    · by_cases hr : isBoolean b right = true
      · have hleft : retype left ≠ left := by
          simpa [retypeComparison, retypePartner, hl, hr] using hne
        obtain ⟨n, rfl⟩ := eq_int_of_retype_ne hleft
        exact ⟨op.swap, right, n, .left hr⟩
      · simp [retypeComparison, retypePartner, hl, hr] at hne
  · rintro ⟨op', v, n, h⟩
    rw [retypeComparison_of_mixes h]
    cases h <;> simp [Comparison.mapValues, retype]

theorem outcome?_of_mixes (h : Mixes b c op v n) (hx : v.eval id σ = .bool x) :
    c.outcome? σ = some (op.holds (compare x.toInt n.toInt)) ∧
      (c.mapValues retype).outcome? σ =
        some (op.holds (compare x.toInt (n.toInt != 0).toInt)) := by
  have hzero : (n != 0) = (n.toInt != 0) := by
    rw [Bool.eq_iff_iff, bne_iff_ne, bne_iff_ne, not_iff_not, ← Int32.toInt_inj]
    rfl
  cases h with
  | right hv =>
    have hretyped : Comparison.mapValues retype ⟨op, v, .const (.int n)⟩ =
        ⟨op, v, .const (.bool (n != 0))⟩ :=
      congrArg (Comparison.mk op · (.const (.bool (n != 0)))) (retype_of_isBoolean hv)
    rw [hretyped, hzero, Comparison.outcome?, Comparison.outcome?, hx]
    exact ⟨CompareOp.compare?_bool_int op x n, CompareOp.compare?_bool_bool op x _⟩
  | @left op v n hv =>
    have hretyped : Comparison.mapValues retype ⟨op, .const (.int n), v⟩ =
        ⟨op, .const (.bool (n != 0)), v⟩ :=
      congrArg (Comparison.mk op (.const (.bool (n != 0)))) (retype_of_isBoolean hv)
    rw [hretyped, hzero, Comparison.outcome?, Comparison.outcome?, hx]
    exact ⟨(CompareOp.compare?_swap rfl rfl).trans (CompareOp.compare?_bool_int op.swap x n),
      (CompareOp.compare?_swap rfl rfl).trans (CompareOp.compare?_bool_bool op.swap x _)⟩

theorem compared?_retypeStmt (hc : s.compared? = some c) :
    (retypeStmt m b s).compared? = some (retypeComparison b c) := by
  obtain ⟨target, rfl⟩ | ⟨place, rfl⟩ := Stmt.compared?_eq_some.1 hc <;> rfl

theorem retypeComparison_of_differences (hc : s.compared? = some c)
    (h : differences s (retypeStmt m b s) = 0) : retypeComparison b c = c := by
  have hsides : c.right = (retypeComparison b c).right ∧ c.left = (retypeComparison b c).left := by
    obtain ⟨target, rfl⟩ | ⟨place, rfl⟩ := Stmt.compared?_eq_some.1 hc
    · simpa [differences, retypeStmt, Stmt.values, Comparison.values, List.countP_cons] using h
    · rw [differences, retypeStmt, Stmt.values, Stmt.values, List.zip_append rfl,
        List.countP_append, Nat.add_eq_zero_iff] at h
      simpa [retypeExpr, Expr.values, Comparison.values, List.countP_cons] using h.2
  exact congrArg₂ (Comparison.mk c.op) hsides.2.symm hsides.1.symm

theorem compared?_run (m : Signature) (hs : b.stmtAt? p = some s) (hc : s.compared? = some c) :
    ∃ s', (Pass.booleanConstants.run m b).body.stmtAt? p = some s' ∧
      s'.compared? = some (retypeComparison b c) := by
  refine ⟨_, Revision.stmtAt?_perStmt (retyped? m b) hs, ?_⟩
  by_cases hd : differences s (retypeStmt m b s) = 0
  · simp [retyped?, hd, hc, retypeComparison_of_differences hc hd]
  · simpa [retyped?, hd] using compared?_retypeStmt hc

/-- The pass changes a comparison exactly if it is of a boolean operand and a number, and then puts
a boolean in the place of the number. Before and after, the comparison has an outcome for each value
of the boolean, and it is the same one exactly for the numbers that the operator tolerates. -/
theorem comparison_kept_iff (m : Signature) (hs : b.stmtAt? p = some s)
    (hc : s.compared? = some c) :
    ∃ s' d, (Pass.booleanConstants.run m b).body.stmtAt? p = some s' ∧ s'.compared? = some d ∧
      (d ≠ c ↔ ∃ op v n, Mixes b c op v n) ∧
      ∀ op v n, Mixes b c op v n → d = c.mapValues retype ∧
        ∀ σ x, v.eval id σ = .bool x → ∃ k k', c.outcome? σ = some k ∧ d.outcome? σ = some k' ∧
          (k' = k ↔ op.Tolerates n.toInt x) := by
  obtain ⟨s', hs', hd⟩ := compared?_run m hs hc
  refine ⟨s', retypeComparison b c, hs', hd, retypeComparison_ne_iff, fun op v n h ↦ ?_⟩
  have hretyped := retypeComparison_of_mixes h
  refine ⟨hretyped, fun σ x hx ↦ ?_⟩
  obtain ⟨hbefore, hafter⟩ := outcome?_of_mixes h hx
  rw [hretyped]
  exact ⟨_, _, hbefore, hafter, CompareOp.holds_truth_iff⟩

def flagAtMostTwo : Body where
  locals := [⟨⟨0⟩, "flag", .boolean⟩]
  units := [⟨⟨0⟩, .branch ⟨.le, .var ⟨0⟩, .const (.int 2)⟩ ⟨1⟩⟩, ⟨⟨1⟩, .ret none⟩]
  nextUnit := 2

theorem comparison_kept_flagAtMostTwo :
    flagAtMostTwo.stmtAt? 0 = some (.branch ⟨.le, .var ⟨0⟩, .const (.int 2)⟩ ⟨1⟩) ∧
    ∃ s d, (Pass.booleanConstants.run default flagAtMostTwo).body.stmtAt? 0 = some s ∧
      s.compared? = some d ∧ d = ⟨.le, .var ⟨0⟩, .const (.bool true)⟩ ∧
      ∀ x : Bool, d.outcome? (fun _ ↦ .bool x) = some true := by
  have hs : flagAtMostTwo.stmtAt? 0 = some (.branch ⟨.le, .var ⟨0⟩, .const (.int 2)⟩ ⟨1⟩) := rfl
  have hmixes : Mixes flagAtMostTwo ⟨.le, .var ⟨0⟩, .const (.int 2)⟩ .le (.var ⟨0⟩) 2 := .right rfl
  obtain ⟨s, d, hd, hcompared, -, hkept⟩ := comparison_kept_iff default hs rfl
  obtain ⟨hretyped, hsame⟩ := hkept _ _ _ hmixes
  refine ⟨hs, s, d, hd, hcompared, hretyped, fun x ↦ ?_⟩
  obtain ⟨k, k', hk, hk', hiff⟩ := hsame (fun _ ↦ .bool x) x rfl
  have htolerates : CompareOp.le.Tolerates (2 : Int32).toInt x :=
    .inr (.inr (.inl ⟨by decide, .inr (.inl rfl)⟩))
  have htrue : some k = some true := by
    rw [← hk]
    cases x <;> rfl
  rw [hk', hiff.2 htolerates, htrue]

def trueIsTwo : Body where
  units := [⟨⟨0⟩, .branch ⟨.eq, .const (.bool true), .const (.int 2)⟩ ⟨2⟩⟩, ⟨⟨1⟩, .ret none⟩,
    ⟨⟨2⟩, .ret none⟩]
  nextUnit := 3

/-- As an integer, `true` is one and not two, but it is the boolean that two is retyped to. -/
theorem comparison_changed_trueIsTwo : trueIsTwo.validate = .ok () ∧
    ∃ c d, (trueIsTwo.stmtAt? 0).bind Stmt.compared? = some c ∧
      ((Pass.booleanConstants.run default trueIsTwo).body.stmtAt? 0).bind Stmt.compared? = some d ∧
      c.evaluate? = some false ∧ d.evaluate? = some true :=
  ⟨by decide +kernel, ⟨.eq, .const (.bool true), .const (.int 2)⟩,
    ⟨.eq, .const (.bool true), .const (.bool true)⟩, rfl, by decide, by decide, by decide⟩

end BooleanConstants

end ThreeAddress
