import ThreeAddress.Pipeline
import ThreeAddress.Proofs.Pass.ConstantBranches
import ThreeAddress.Proofs.Pass.CopyPropagation
import ThreeAddress.Proofs.Pass.DeadCode
import ThreeAddress.Proofs.Pass.Jumps
import ThreeAddress.Proofs.Pass.Locals
import ThreeAddress.Proofs.Pass.Statements
import ThreeAddress.Proofs.Pass.StoredComparisons
import ThreeAddress.Proofs.Pass.TemporaryFolding
import ThreeAddress.Proofs.Pass.Traps
import ThreeAddress.Proofs.Pass.UnreachableUnits

namespace ThreeAddress

/-- Validation accepts the body, its bound for fresh identities is one, and control does not fall
off its end. -/
structure Body.Admissible (b : Body) : Prop where
  accepted : b.validate = .ok ()
  bounded : b.Bounded
  closed : ∀ u, b.units.getLast? = some u → u.stmt.fallsThrough = false

theorem Body.Admissible.ready {b : Body} (h : b.Admissible) : b.Ready where
  valid := validate_eq_ok.1 h.accepted
  bounded := h.bounded
  end_sealed u hu := .inl (h.closed u hu)

namespace Pass

variable {pass : Pass} {P P' Q Q' : Body → Prop}

theorem Carries.mono (h : pass.Carries P Q) (hP : ∀ b, P' b → P b) (hQ : ∀ b, Q b → Q' b) :
    pass.Carries P' Q' := by
  intro m b hb
  obtain ⟨hok, hq⟩ := h m b (hP b hb)
  exact ⟨hok, hQ _ hq⟩

theorem carries_ready (hp : pass ∈ all.take 16) (hne : pass ≠ constantBranches)
    (hns : pass ≠ storedComparisons) : pass.Carries Body.Ready Body.Ready := by
  simp only [all, List.take_succ_cons, List.take_zero, List.mem_cons, List.not_mem_nil,
    or_false] at hp
  rcases hp with rfl | rfl | rfl | rfl | rfl | rfl | rfl | rfl | rfl | rfl | rfl | rfl | rfl |
    rfl | rfl | rfl
  · exact jumpThreading_carries
  · exact absurd rfl hne
  · exact localPacking_carries
  · exact unusedLocals_carries
  · exact trapTightening_carries
  · exact trapMerging_carries
  · exact temporaryFolding_carries
  · exact constantCasts_byRule.carries
  · exact identityCasts_byRule.carries
  · exact identityOperations_byRule.carries
  · exact unreachableUnits_carries
  · exact booleanConstants_byRule.carries
  · exact copyPropagation_carries
  · exact absurd rfl hns
  · exact deadAllocations_carries
  · exact deadAssignments_carries

/-- Where the pass makes new units, there is room for them. -/
def Allows (pass : Pass) (b : Body) : Prop :=
  pass = storedComparisons → StoredComparisons.HasRoom b

theorem carries_valid (hp : pass ∈ all) (hne : pass ≠ constantBranches) :
    pass.Carries (fun b ↦ b.Ready ∧ pass.Allows b) Body.Valid := by
  by_cases hs : pass = storedComparisons
  · subst hs
    exact storedComparisons_carries.mono (fun _ hb ↦ ⟨hb.1, hb.2 rfl⟩) fun _ hb ↦ hb.valid
  have hsplit : pass ∈ all.take 16 ∨ pass = nops ∨ pass = localNames := by
    simpa [all, or_assoc] using hp
  rcases hsplit with hp | rfl | rfl
  · exact (carries_ready hp hne hs).mono (fun _ hb ↦ hb.1) fun _ hb ↦ hb.valid
  · exact nops_carries.mono (fun _ hb ↦ hb.1.valid) fun _ hb ↦ hb
  · exact localNames_carries.mono (fun _ hb ↦ hb.1.valid) fun _ hb ↦ hb

end Pass

def countdown : Signature where
  declaringType := "Demo"
  name := "countdown"
  isStatic := true
  parameters := [⟨some "n", .int⟩]
  returnType := .boolean

def countdownBody : Body where
  locals := [⟨⟨0⟩, "n", .int⟩, ⟨⟨1⟩, "big", .boolean⟩, ⟨⟨2⟩, "e", .object "System.Exception"⟩]
  units :=
    [⟨⟨0⟩, .identity ⟨0⟩ (.parameter 0)⟩,
      ⟨⟨1⟩, .branch ⟨.le, .var ⟨0⟩, .const (.int 0)⟩ ⟨5⟩⟩,
      ⟨⟨2⟩, .assign (.var ⟨1⟩) (.compare ⟨.gt, .var ⟨0⟩, .const (.int 9)⟩)⟩,
      ⟨⟨3⟩, .assign (.var ⟨0⟩) (.binary .div (.var ⟨0⟩) (.const (.int 2)))⟩,
      ⟨⟨4⟩, .goto ⟨1⟩⟩,
      ⟨⟨5⟩, .ret (some (.var ⟨1⟩))⟩,
      ⟨⟨6⟩, .identity ⟨2⟩ .caughtException⟩,
      ⟨⟨7⟩, .throw (.var ⟨2⟩)⟩]
  traps := [⟨⟨2⟩, ⟨4⟩, ⟨6⟩, .object "System.Exception"⟩]
  nextUnit := 8

theorem countdownBody_admissible : countdownBody.Admissible where
  accepted := by decide +kernel
  bounded := by decide
  closed := by
    intro u hu
    obtain rfl := Option.some.inj hu
    rfl

theorem countdownBody_hasRoom : StoredComparisons.HasRoom countdownBody := by decide

def crowdedBody : Body where
  locals := [⟨⟨0⟩, "n", .int⟩, ⟨⟨1⟩, "same", .boolean⟩]
  units :=
    [⟨⟨0⟩, .nop⟩,
      ⟨⟨1⟩, .assign (.var ⟨1⟩) (.compare ⟨.eq, .var ⟨0⟩, .var ⟨0⟩⟩)⟩,
      ⟨⟨4294967292⟩, .ret none⟩]
  nextUnit := 4294967293

theorem crowdedBody_admissible : crowdedBody.Admissible where
  accepted := by decide +kernel
  bounded := by decide
  closed := by
    intro u hu
    obtain rfl := Option.some.inj hu
    rfl

end ThreeAddress
