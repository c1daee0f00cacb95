import ThreeAddress.Proofs.Arithmetic
import ThreeAddress.Proofs.Flow.Stores
import ThreeAddress.Proofs.Pass.Statements

namespace ThreeAddress

def Value.ty? (b : Body) : Value → Option Ty
  | var x => b.tableType? x
  | const c => some c.ty

namespace IdentityOperations

variable {b : Body} {op : BinaryOp} {left right v : Value} {place : Place} {p : Nat}

def Floats (b : Body) (v : Value) : Prop := ∃ t, v.ty? b = some t ∧ t.isFloating = true

theorem isFloating_iff : isFloating b v = true ↔ Floats b v := by
  cases v with
  | var x => cases ht : b.tableType? x <;> simp [isFloating, Floats, Value.ty?, ht]
  | const c => simp [isFloating, Floats, Value.ty?]

theorem isConst_iff {test : Constant → Bool} :
    isConst test v = true ↔ ∃ c, v = .const c ∧ test c = true := by
  cases v <;> simp [isConst, Value.const?]

theorem survivor?_eq (op : BinaryOp) (left right : Value) : survivor? op left right =
    if isConst op.hasIdentity right then some left
    else if op.isCommutative && isConst op.hasIdentity left then some right
    else none := by
  cases op with
  | rem => cases right <;> rfl
  | _ => rfl

theorem survivor?_eq_some (h : survivor? op left right = some v) :
    (v = left ∧ ∃ c, right = .const c ∧ op.IsRightIdentity c) ∨
      v = right ∧ ∃ c, left = .const c ∧ op.IsLeftIdentity c := by
  rw [survivor?_eq] at h
  split at h
  · next hright =>
    obtain ⟨c, rfl, hc⟩ := isConst_iff.1 hright
    exact .inl ⟨(Option.some.inj h).symm, c, rfl, BinaryOp.isRightIdentity hc⟩
  · split at h
    · next hleft =>
      obtain ⟨hop, hleft⟩ := Bool.and_eq_true_iff.1 hleft
      obtain ⟨c, rfl, hc⟩ := isConst_iff.1 hleft
      refine .inr ⟨(Option.some.inj h).symm, c, rfl, ?_⟩
      exact (BinaryOp.isLeftIdentity_iff hop).2 (BinaryOp.isRightIdentity hc)
    · simp at h

/-- One operand is a constant that leaves the other as it is. Of the amounts that a shift leaves a
word at, only zero counts. -/
def Redundant (op : BinaryOp) (left right : Value) : Prop :=
  ∃ c, op.Takes c.ty c.ty ∧
    (right = .const c ∧ op.IsRightIdentity c ∧ (op.isShift = true → c.isZero = true) ∨
      left = .const c ∧ op.IsLeftIdentity c)

theorem survivor?_ne_none (h : Redundant op left right) : survivor? op left right ≠ none := by
  obtain ⟨c, ht, hc⟩ := h
  rw [survivor?_eq]
  rcases hc with ⟨rfl, hc, hzero⟩ | ⟨rfl, hc⟩
  · have hright : isConst op.hasIdentity (.const c) = true := by
      refine isConst_iff.2 ⟨c, rfl, ?_⟩
      cases hop : op.isShift with
      | false => exact BinaryOp.hasIdentity_of_isRightIdentity hop ht hc
      | true => exact BinaryOp.hasIdentity_of_isShift hop ▸ hzero hop
    simp [hright]
  · obtain ⟨hop, hc⟩ := BinaryOp.hasIdentity_of_isLeftIdentity ht hc
    have hleft : isConst op.hasIdentity (.const c) = true := isConst_iff.2 ⟨c, rfl, hc⟩
    split <;> simp_all

theorem stmtAt?_run (m : Signature)
    (hs : b.stmtAt? p = some (.assign place (.binary op left right))) :
    ∃ e, (Pass.identityOperations.run m b).body.stmtAt? p = some (.assign place e) ∧
      (e = .binary op left right ∧
          ((Floats b left ∨ Floats b right) ∨ survivor? op left right = none) ∨
        ∃ v, e = .value v ∧ ¬(Floats b left ∨ Floats b right) ∧
          survivor? op left right = some v) := by
  have hbody : (Pass.identityOperations.run m b).body = (Revision.perStmt (simplify b) b).body := rfl
  rw [hbody, Revision.stmtAt?_perStmt _ hs]
  by_cases hfloats : Floats b left ∨ Floats b right
  · have hguard : isFloating b left = true ∨ isFloating b right = true := by
      simpa only [isFloating_iff] using hfloats
    exact ⟨_, by simp [simplify, hguard], .inl ⟨rfl, .inl hfloats⟩⟩
  · have hguard : ¬(isFloating b left = true ∨ isFloating b right = true) := by
      simpa only [isFloating_iff] using hfloats
    cases hv : survivor? op left right with
    | none => exact ⟨_, by simp [simplify, hv], .inl ⟨rfl, .inr rfl⟩⟩
    | some v => exact ⟨_, by simp [simplify, hguard, hv], .inr ⟨v, rfl, hfloats, rfl⟩⟩

/-- The pass leaves an operation as it is, or puts one of its operands in its place. The operation
then comes to what that operand holds, whenever it has a meaning for the operands. It stays if an
operand is of a floating type, and goes if none is and one of them is redundant. -/
theorem identities_dropped (m : Signature)
    (hs : b.stmtAt? p = some (.assign place (.binary op left right))) :
    ∃ e, (Pass.identityOperations.run m b).body.stmtAt? p = some (.assign place e) ∧
      (e = .binary op left right ∨ ∃ v, e = .value v ∧ (v = left ∨ v = right) ∧
        ∀ σ, op.Takes (left.eval id σ).ty (right.eval id σ).ty →
          op.combine? (left.eval id σ) (right.eval id σ) = some (v.eval id σ)) ∧
      (Floats b left ∨ Floats b right → e = .binary op left right) ∧
      (¬(Floats b left ∨ Floats b right) → Redundant op left right →
        e ≠ .binary op left right) := by
  obtain ⟨e, he, ⟨rfl, hkept⟩ | ⟨v, rfl, hfloats, hv⟩⟩ := stmtAt?_run m hs
  · refine ⟨_, he, .inl rfl, fun _ ↦ rfl, fun hfloats hredundant ↦ ?_⟩
    exact absurd (hkept.resolve_left hfloats) (survivor?_ne_none hredundant)
  · have hmeaning : ∀ σ, op.Takes (left.eval id σ).ty (right.eval id σ).ty →
        op.combine? (left.eval id σ) (right.eval id σ) = some (v.eval id σ) := by
      intro σ ht
      rcases survivor?_eq_some hv with ⟨rfl, c, rfl, hc⟩ | ⟨rfl, c, rfl, hc⟩
      · exact hc _ ht
      · exact hc _ ht
    refine ⟨_, he, .inr ⟨v, rfl, survivor?_mem hv, hmeaning⟩, ?_, ?_⟩
    · intro h
      exact absurd h hfloats
    · simp

/-- A mask without effect, a shift by nothing, and zero added to a floating point number. -/
def idleOperations : Body where
  locals := [⟨⟨0⟩, "x", .int⟩, ⟨⟨1⟩, "y", .long⟩, ⟨⟨2⟩, "z", .double⟩]
  units := [⟨⟨0⟩, .assign (.var ⟨0⟩) (.binary .and (.const (.int (-1))) (.var ⟨0⟩))⟩,
    ⟨⟨1⟩, .assign (.var ⟨1⟩) (.binary .ushr (.var ⟨1⟩) (.const (.int 0)))⟩,
    ⟨⟨2⟩, .assign (.var ⟨2⟩) (.binary .add (.var ⟨2⟩) (.const (.int 0)))⟩, ⟨⟨3⟩, .ret none⟩]
  nextUnit := 4

/-- The shift goes, being one that leaves every `long` as it is, and the addition stays. -/
theorem identities_dropped_idleOperations :
    idleOperations.stmtAt? 1 =
      some (.assign (.var ⟨1⟩) (.binary .ushr (.var ⟨1⟩) (.const (.int 0)))) ∧
    (Pass.identityOperations.run default idleOperations).body.stmtAt? 1 =
      some (.assign (.var ⟨1⟩) (.value (.var ⟨1⟩))) ∧
    (∀ n : Int64, BinaryOp.ushr.combine? (.long n) (.int 0) = some (.long n)) ∧
    (Pass.identityOperations.run default idleOperations).body.stmtAt? 2 =
      some (.assign (.var ⟨2⟩) (.binary .add (.var ⟨2⟩) (.const (.int 0)))) := by
  have hshift : idleOperations.stmtAt? 1 =
      some (.assign (.var ⟨1⟩) (.binary .ushr (.var ⟨1⟩) (.const (.int 0)))) := rfl
  have hrun : (Pass.identityOperations.run default idleOperations).body.stmtAt? 1 =
      some (.assign (.var ⟨1⟩) (.value (.var ⟨1⟩))) := by decide +kernel
  obtain ⟨e, he, hmeaning, -, -⟩ := identities_dropped default hshift
  obtain ⟨e', he', -, hfloats, -⟩ := identities_dropped (b := idleOperations) (p := 2) default rfl
  obtain rfl : .value (.var ⟨1⟩) = e := by simpa using hrun.symm.trans he
  refine ⟨hshift, hrun, fun n ↦ ?_, ?_⟩
  · obtain ⟨v, hv, -, hmeaning⟩ := hmeaning.resolve_left (by decide)
    obtain rfl := Expr.value.inj hv
    exact hmeaning (fun _ ↦ .long n) (.shift rfl)
  · rw [he', hfloats (.inl ⟨.double, rfl, rfl⟩)]

end IdentityOperations

end ThreeAddress
