import ThreeAddress.Proofs.WellFormedness

namespace ThreeAddress

namespace Pass

variable {pass : Pass}

theorem candid_of_mem_all (hp : pass ∈ all) : pass.Candid := by
  simp only [all, List.mem_cons, List.not_mem_nil, or_false] at hp
  rcases hp with rfl | rfl | rfl | rfl | rfl | rfl | rfl | rfl | rfl | rfl | rfl | rfl | rfl |
    rfl | rfl | rfl | rfl | rfl
  · exact jumpThreading_candid
  · exact constantBranches_cleans.candid
  · exact localPacking_candid
  · exact unusedLocals_candid
  · exact trapTightening_candid
  · exact trapMerging_candid
  · exact temporaryFolding_candid
  · exact constantCasts_byRule.candid
  · exact identityCasts_byRule.candid
  · exact identityOperations_byRule.candid
  · exact unreachableUnits_cleans.candid
  · exact booleanConstants_byRule.candid
  · exact copyPropagation_candid
  · exact storedComparisons_candid
  · exact deadAllocations_cleans.candid
  · exact deadAssignments_cleans.candid
  · exact nops_cleans.candid
  · exact localNames_candid

/-- A pass that succeeds says that it changed the body exactly if the body differs, and exactly if
it noted a change. -/
theorem changed_iff (hp : pass ∈ all) (m : Signature) {b : Body} (hn : b.ids.Nodup)
    (hl : (b.locals.map (·.id)).Nodup) {changed : Bool}
    (hok : (pass.run m b).result = .ok changed) :
    (changed = true ↔ (pass.run m b).body ≠ b) ∧
      (changed = true ↔ ∃ n ∈ (pass.run m b).notes, n.kind.isChange = true) :=
  candid_of_mem_all hp m b hn hl changed hok

end Pass

theorem changed_iff_countdown :
    (Pass.storedComparisons ∈ Pass.all ∧ countdownBody.ids.Nodup ∧
      (countdownBody.locals.map (·.id)).Nodup ∧
      (Pass.storedComparisons.run countdown countdownBody).result = .ok true) ∧
    ((true = true ↔ (Pass.storedComparisons.run countdown countdownBody).body ≠ countdownBody) ∧
      (true = true ↔ ∃ n ∈ (Pass.storedComparisons.run countdown countdownBody).notes,
        n.kind.isChange = true)) := by
  have hp : Pass.storedComparisons ∈ Pass.all := by simp [Pass.all]
  have hn : countdownBody.ids.Nodup := by decide
  have hl : (countdownBody.locals.map (·.id)).Nodup := by decide
  have hok : (Pass.storedComparisons.run countdown countdownBody).result = .ok true := by decide +kernel
  exact ⟨⟨hp, hn, hl, hok⟩, Pass.changed_iff hp countdown hn hl hok⟩

end ThreeAddress
