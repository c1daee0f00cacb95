import ThreeAddress.Proofs.Pipeline.Runs

namespace ThreeAddress.Pipeline

variable {m : Signature} {pass : Pass} {ps : List Pass} {b c : Body}

theorem ready_run
    (hpass : pass ≠ .constantBranches → pass.Carries (fun b ↦ b.Ready ∧ pass.Allows b) Body.Ready)
    (hb : b.Ready) (hroom : pass.Allows b)
    (hs : pass = .constantBranches → ConstantBranches.Safe b) :
    (∃ changed, (pass.run m b).result = .ok changed) ∧ (pass.run m b).body.Ready := by
  by_cases he : pass = .constantBranches
  · rw [he]
    exact Pass.constantBranches_carries m b ⟨hb, hs he⟩
  · exact hpass he m b ⟨hb, hroom⟩

/-- Each stage that is reached with a valid body has room for the units that it makes. -/
def Roomy (m : Signature) (ps : List Pass) (b : Body) : Prop :=
  ∀ n pass, ps[n]? = some pass → (reached m ps b n).Valid → pass.Allows (reached m ps b n)

theorem Roomy.head (h : Roomy m (pass :: ps) b) (hb : b.Valid) : pass.Allows b := h 0 pass rfl hb

theorem Roomy.tail (h : Roomy m (pass :: ps) b) {flag : Bool}
    (hstage : (stage true m pass b).result = .ok flag) : Roomy m ps (pass.run m b).body := by
  intro n p hp hv
  have hall := h (n + 1) p (by rwa [List.getElem?_cons_succ])
  rw [reached_succ hstage] at hall
  exact hall hv

theorem Completes.safe (h : Completes m ps b c)
    (hps : ∀ pass ∈ ps, pass ≠ .constantBranches →
      pass.Carries (fun b ↦ b.Ready ∧ pass.Allows b) Body.Ready)
    (hb : b.Ready) (hroom : Roomy m ps b) (n : Nat) (hn : ps[n]? = some .constantBranches) :
    ConstantBranches.Safe (reached m ps b n) := by
  induction h generalizing n with
  | nil => simp at hn
  | @cons pass ps b c hok hv _ ih =>
    have hs : pass = .constantBranches → ConstantBranches.Safe b := by
      intro he
      subst he
      exact (ConstantBranches.valid_revise_iff hb.valid hb.end_sealed).1 hv
    obtain ⟨flag, hflag⟩ := hok
    have hstage := stage_ok_iff.2 ⟨hflag, hv⟩
    have hready :=
      (ready_run (m := m) (hps pass List.mem_cons_self) hb (hroom.head hb.valid) hs).2
    cases n with
    | zero => exact hs (by simpa using hn)
    | succ n =>
      rw [reached_succ hstage]
      exact ih (fun p hp ↦ hps p (List.mem_cons_of_mem pass hp)) hready (hroom.tail hstage) n
        (by simpa using hn)

theorem completes_of_safe
    (hps : ∀ pass ∈ ps, pass ≠ .constantBranches →
      pass.Carries (fun b ↦ b.Ready ∧ pass.Allows b) Body.Ready)
    (hb : b.Ready) (hroom : Roomy m ps b)
    (hs : ∀ n, ps[n]? = some .constantBranches → ConstantBranches.Safe (reached m ps b n)) :
    ∃ c, Completes m ps b c ∧ c.Ready := by
  induction ps generalizing b with
  | nil => exact ⟨b, .nil b, hb⟩
  | cons pass ps ih =>
    have hfirst : pass = .constantBranches → ConstantBranches.Safe b :=
      fun he ↦ hs 0 (by simp [he])
    obtain ⟨hok, hready⟩ :=
      ready_run (m := m) (hps pass List.mem_cons_self) hb (hroom.head hb.valid) hfirst
    obtain ⟨flag, hflag⟩ := hok
    have hstage := stage_ok_iff.2 ⟨hflag, hready.valid⟩
    obtain ⟨c, hc, hr⟩ := ih (fun p hp ↦ hps p (List.mem_cons_of_mem pass hp)) hready
      (hroom.tail hstage) fun n hn ↦ by
        rw [← reached_succ hstage]
        exact hs (n + 1) (by simpa using hn)
    exact ⟨c, .cons ⟨flag, hflag⟩ hready.valid hc, hr⟩

def standardRewrites : List Pass := standard.passes.take 21

theorem carries_standard (pass : Pass) (hp : pass ∈ standardRewrites)
    (hne : pass ≠ .constantBranches) :
    pass.Carries (fun b ↦ b.Ready ∧ pass.Allows b) Body.Ready := by
  have hsub : standardRewrites ⊆ Pass.all.take 16 := by
    simp only [standardRewrites, standard, Pass.all, List.take_succ_cons, List.take_zero,
      List.cons_subset, List.nil_subset, List.mem_cons, true_or, or_true, and_self]
  by_cases hns : pass = .storedComparisons
  · subst hns
    exact Pass.storedComparisons_carries.mono (fun _ hb ↦ ⟨hb.1, hb.2 rfl⟩) fun _ hb ↦ hb
  · exact (Pass.carries_ready (hsub hp) hne hns).mono (fun _ hb ↦ hb.1) fun _ hb ↦ hb

theorem name_standard {n : Nat} (hn : standardRewrites[n]? = some pass) :
    n < 21 ∧ (standardRewrites.map (·.name))[n]? = some pass.name := by
  rw [List.getElem?_map, hn]
  exact ⟨(List.getElem?_eq_some_iff.1 hn).1, rfl⟩

theorem folds_standard {n : Nat} (hn : standardRewrites[n]? = some .constantBranches) :
    n = 6 ∨ n = 19 := by
  have hall : ∀ n < 21, (standardRewrites.map (·.name))[n]? = some Pass.constantBranches.name →
      n = 6 ∨ n = 19 := by decide +kernel
  obtain ⟨hlt, hname⟩ := name_standard hn
  exact hall n hlt hname

theorem expands_standard {n : Nat} (hn : standardRewrites[n]? = some .storedComparisons) :
    n = 15 := by
  have hall : ∀ n < 21, (standardRewrites.map (·.name))[n]? = some Pass.storedComparisons.name →
      n = 15 := by decide +kernel
  obtain ⟨hlt, hname⟩ := name_standard hn
  exact hall n hlt hname

theorem addsNoUnits_standard : ∀ pass ∈ standardRewrites.take 15, pass.AddsNoUnits := by
  intro pass hp
  simp only [standardRewrites, standard, List.take_succ_cons, List.take_zero, List.mem_cons,
    List.not_mem_nil, or_false] at hp
  rcases hp with rfl | rfl | rfl | rfl | rfl | rfl | rfl | rfl | rfl | rfl | rfl | rfl | rfl |
    rfl | rfl
  · exact Pass.jumpThreading_addsNoUnits
  · exact Pass.localPacking_addsNoUnits
  · exact Pass.unusedLocals_addsNoUnits
  · exact Pass.trapTightening_addsNoUnits
  · exact Pass.trapMerging_addsNoUnits
  · exact Pass.temporaryFolding_addsNoUnits
  · exact Pass.constantBranches_cleans.addsNoUnits
  · exact Pass.constantCasts_byRule.noFresh
  · exact Pass.identityCasts_byRule.noFresh
  · exact Pass.identityOperations_byRule.noFresh
  · exact Pass.unreachableUnits_cleans.addsNoUnits
  · exact Pass.booleanConstants_byRule.noFresh
  · exact Pass.copyPropagation_addsNoUnits
  · exact Pass.booleanConstants_byRule.noFresh
  · exact Pass.copyPropagation_addsNoUnits

/-- Up to the expansion of comparisons no stage makes a unit, so what is enough for four units in
place of each unit of the body is enough for that stage. -/
theorem roomy_standard (hb : b.Valid) (hroom : b.HasRoom (4 * b.size)) :
    Roomy m standardRewrites b := by
  intro n pass hn hv he
  subst he
  obtain rfl := expands_standard hn
  have hfresh : b.NoFresh (reached m standardRewrites b 15) :=
    noFresh_runFrom false addsNoUnits_standard hb.nodup
  have hsize : (reached m standardRewrites b 15).size ≤ b.size := by
    rw [← Body.length_ids, ← Body.length_ids]
    exact (hv.nodup.subperm hfresh.ids).length_le
  have hfound := StoredComparisons.length_found_le (reached m standardRewrites b 15)
  rw [StoredComparisons.HasRoom, Body.HasRoom, hfresh.nextUnit]
  refine Nat.lt_of_le_of_lt (Nat.add_le_add_left ?_ _) hroom
  exact Nat.mul_le_mul_left 4 (Nat.le_trans hfound hsize)

/-- On a well-formed body with room for four units in place of each of its own, the standard
pipeline succeeds exactly if the folding of constant branches is safe both times it comes up. -/
theorem standard_ok_iff (m : Signature) {b : Body} (hb : b.Admissible)
    (hroom : b.HasRoom (4 * b.size)) :
    (∃ changed, (standard.run m b).result = .ok changed) ↔
      ConstantBranches.Safe (reached m standard.passes b 6) ∧
        ConstantBranches.Safe (reached m standard.passes b 19) := by
  have hrun : (∃ changed, (standard.run m b).result = .ok changed) ↔
      ∃ c, Completes m (standardRewrites ++ [.nops, .localNames]) b c := runFrom_ok_iff false
  have hroomy : Roomy m standardRewrites b := roomy_standard hb.ready.valid hroom
  rw [hrun]
  constructor
  · intro h
    obtain ⟨d, hd⟩ := h
    obtain ⟨c, hc, -⟩ := Completes.split standardRewrites hd
    have hs := hc.safe carries_standard hb.ready hroomy
    exact ⟨hs 6 rfl, hs 19 rfl⟩
  · intro h
    obtain ⟨c, hc, hready⟩ := completes_of_safe (m := m) carries_standard hb.ready hroomy
      fun n hn ↦ by
        rcases folds_standard hn with rfl | rfl
        · exact h.1
        · exact h.2
    obtain ⟨d, hd, -⟩ : ∃ d, Completes m [.nops, .localNames] c d ∧ d.Valid := by
      refine Completes.of_carries (fun _ hv ↦ hv) ?_ hready.valid
      intro pass hp
      simp only [List.mem_cons, List.not_mem_nil, or_false] at hp
      rcases hp with rfl | rfl
      · exact Pass.nops_carries
      · exact Pass.localNames_carries
    exact ⟨d, hc.append hd⟩

theorem standard_ok_countdown :
    (countdownBody.Admissible ∧ countdownBody.HasRoom (4 * countdownBody.size) ∧
      ∃ changed, (standard.run countdown countdownBody).result = .ok changed) ∧
    ConstantBranches.Safe (reached countdown standard.passes countdownBody 6) ∧
      ConstantBranches.Safe (reached countdown standard.passes countdownBody 19) := by
  have hroom : countdownBody.HasRoom (4 * countdownBody.size) := by decide
  have hok : ∃ changed, (standard.run countdown countdownBody).result = .ok changed :=
    ⟨true, standard_countdown⟩
  exact ⟨⟨countdownBody_admissible, hroom, hok⟩,
    (standard_ok_iff countdown countdownBody_admissible hroom).1 hok⟩

/-- A loop whose head is a branch that is never taken, and whose end one that always jumps back. -/
def decidedLoop : Body where
  units :=
    [⟨⟨0⟩, .branch ⟨.eq, .const (.int 1), .const (.int 2)⟩ ⟨2⟩⟩,
      ⟨⟨1⟩, .branch ⟨.eq, .const (.int 1), .const (.int 1)⟩ ⟨0⟩⟩,
      ⟨⟨2⟩, .ret none⟩]
  nextUnit := 3

theorem standard_fails_decidedLoop :
    decidedLoop.Admissible ∧ decidedLoop.HasRoom (4 * decidedLoop.size) ∧
      (standard.run countdown decidedLoop).result = .error (.passFailed
        "conditional-branch-folding" (.invariant (.missingTarget ⟨1⟩ ⟨0⟩))) := by
  refine ⟨⟨by decide +kernel, by decide, ?_⟩, by decide, by decide +kernel⟩
  intro u hu
  obtain rfl := Option.some.inj hu
  rfl

end ThreeAddress.Pipeline
