import ThreeAddress.Proofs.Lowering.History

namespace ThreeAddress.Batch

variable {method : String} {run : List Action}

/-- A body is stored for the method, and the store that left it there was one of a stub. -/
def HoldsStub (method : String) (run : List Action) : Prop :=
  ∃ body, (after run).body? method = some body ∧ stored? method run = some (body, true)

theorem holdsStub_iff : HoldsStub method run ↔ ∃ body, stored? method run = some (body, true) := by
  refine ⟨fun ⟨body, _, h⟩ ↦ ⟨body, h⟩, fun ⟨body, h⟩ ↦ ⟨body, ?_, h⟩⟩
  rw [body?_after, h]
  rfl

theorem HoldsStub.hasStub (h : HoldsStub method run) : (after run).hasStub method = true := by
  obtain ⟨body, h⟩ := holdsStub_iff.1 h
  exact (hasStub_after method run).2 ⟨body, mem_of_stored? h⟩

/-- A method is marked exactly if it holds a stub or held one before: of every run the mark
describes the stored body unless a stub was withdrawn or gave way to a lowered body. -/
theorem hasStub_iff_holdsStub_iff (method : String) (run : List Action) :
    ((after run).hasStub method = true ↔ HoldsStub method run) ↔
      HoldsStub method run ∨ ∀ body, .insert method body true ∉ run := by
  rw [hasStub_after]
  constructor
  · intro h
    by_cases hm : ∃ body, Action.insert method body true ∈ run
    · exact .inl (h.1 hm)
    · exact .inr fun body hb ↦ hm ⟨body, hb⟩
  · rintro (h | h)
    · exact ⟨fun _ ↦ h, fun h ↦ (hasStub_after method run).1 h.hasStub⟩
    · exact ⟨fun ⟨body, hb⟩ ↦ absurd hb (h body),
        fun hs ↦ (hasStub_after method run).1 hs.hasStub⟩

theorem hasStub_not_iff_holdsStub :
    ¬ ((after [.insert "m" {} true, .take "m"]).hasStub "m" = true ↔
      HoldsStub "m" [.insert "m" {} true, .take "m"]) := by
  have hmarked : (after [.insert "m" {} true, .take "m"]).hasStub "m" = true := by decide
  have hgone : ¬ HoldsStub "m" [.insert "m" {} true, .take "m"] := by
    rw [holdsStub_iff]
    simp [stored?, Action.update]
  exact fun h ↦ hgone (h.1 hmarked)

end ThreeAddress.Batch
