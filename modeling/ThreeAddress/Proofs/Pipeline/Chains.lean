import ThreeAddress.Proofs.Pass.Chains
import ThreeAddress.Proofs.Pipeline.Runs

namespace ThreeAddress

/-- No jump goes to an empty unit from which control would come to a goto over empty units only,
unless that goto lies on a cycle of gotos. -/
def Body.Clear (b : Body) : Prop :=
  ∀ w ∈ b.units, ∀ t ∈ w.stmt.targets, ∀ q, b.units[q]? = some ⟨t, .nop⟩ →
    ∀ v, Rests (· = .nop) b q v → ∀ z, v.stmt = .goto z → b.OnGotoCycle v.id

theorem Body.Unchained.lands_of_clear {b : Body} (h : b.Unchained) (hc : b.Clear) :
    b.Lands (· = .nop) := by
  intro w hw t ht q hq v hv z hz
  obtain ⟨u, hu⟩ := exists_unit_of_lt (lt_size_of_getElem? hq)
  obtain rfl : u.id = t := Option.some.inj ((id_of_unit hu).symm.trans hq)
  by_cases hnop : u.stmt = .nop
  · exact hc w hw u.id ht q (hnop ▸ hu) v hv z hz
  · obtain rfl := hv.eq hu hnop
    exact h.goto hw ht hu hz

namespace Pipeline

variable {m : Signature} {b c : Body}

theorem Completes.reached_eq {ps : List Pass} (h : Completes m ps b c) (qs : List Pass) :
    reached m (ps ++ qs) b ps.length = c := by
  rw [reached, List.take_left]
  exact (h.outcome false).2

theorem Completes.valid_of_cons {pass : Pass} {ps : List Pass} (h : Completes m (pass :: ps) b c) :
    c.Valid := by
  obtain ⟨-, hv, h⟩ := h.uncons
  exact h.valid hv

/-- The standard pipeline leaves no chain of gotos if the last jump threading leaves no jump to an
empty unit with a goto behind it. -/
theorem standard_unchained (m : Signature) {b : Body} {changed : Bool}
    (hok : (standard.run m b).result = .ok changed)
    (hc : (reached m standard.passes b 21).Clear) : (standard.run m b).body.Unchained := by
  have h : Completes m (standard.passes.take 20 ++ [.jumpThreading, .nops, .localNames]) b
    (standard.run m b).body := completes_of_ok false hok
  obtain ⟨d, hd, h⟩ := h.split
  have hn : d.ids.Nodup := hd.valid_of_cons.nodup
  obtain ⟨hok₁, hv₁, h⟩ := h.uncons
  have hreached : reached m standard.passes b 21 = (JumpThreading.revise d).body :=
    (hd.append (.cons hok₁ hv₁ (.nil _))).reached_eq [.nops, .localNames]
  have hlands := (JumpThreading.unchained_revise hn).lands_of_clear (hreached ▸ hc)
  obtain ⟨-, hv₂, h⟩ := h.uncons
  rw [h.eq_of_single]
  exact (Nops.unchained_revise hv₁.nodup hlands).of_units rfl

def relay : Signature where
  declaringType := "Demo"
  name := "relay"
  isStatic := true
  parameters := [⟨some "n", .int⟩]
  returnType := .void

def relayBody (s : Stmt) : Body where
  locals := [⟨⟨0⟩, "n", .int⟩]
  units :=
    [⟨⟨0⟩, .identity ⟨0⟩ (.parameter 0)⟩,
      ⟨⟨1⟩, .branch ⟨.eq, .var ⟨0⟩, .const (.int 0)⟩ ⟨3⟩⟩,
      ⟨⟨2⟩, .ret none⟩,
      ⟨⟨3⟩, s⟩,
      ⟨⟨4⟩, .goto ⟨2⟩⟩]
  nextUnit := 5

theorem standard_unchained_relay :
    ((standard.run relay (relayBody (.ret none))).result = .ok true ∧
      (reached relay standard.passes (relayBody (.ret none)) 21).Clear) ∧
    (standard.run relay (relayBody (.ret none))).body.Unchained := by
  have hok : (standard.run relay (relayBody (.ret none))).result = .ok true := by cbv
  have hnops : ((reached relay standard.passes (relayBody (.ret none)) 21).units.all
      (·.stmt != .nop)) = true := by cbv
  have hclear : (reached relay standard.passes (relayBody (.ret none)) 21).Clear := by
    intro w _ t _ q hq
    have := List.all_eq_true.1 hnops _ (List.mem_of_getElem? hq)
    simp at this
  exact ⟨⟨hok, hclear⟩, standard_unchained relay hok hclear⟩

theorem standard_chains_relay :
    (standard.run relay (relayBody .nop)).result = .ok true ∧
      ¬ (standard.run relay (relayBody .nop)).body.Unchained := by
  have hok : (standard.run relay (relayBody .nop)).result = .ok true := by cbv
  have hunits : (standard.run relay (relayBody .nop)).body.units =
      [⟨⟨0⟩, .identity ⟨0⟩ (.parameter 0)⟩,
        ⟨⟨1⟩, .branch ⟨.eq, .var ⟨0⟩, .const (.int 0)⟩ ⟨4⟩⟩,
        ⟨⟨2⟩, .ret none⟩,
        ⟨⟨4⟩, .goto ⟨2⟩⟩] := by cbv
  have hstep : (standard.run relay (relayBody .nop)).body.GotoStep ⟨4⟩ ⟨2⟩ := by
    simp [Body.GotoStep, hunits]
  have hend : ∀ y, ¬ (standard.run relay (relayBody .nop)).body.GotoStep ⟨2⟩ y := by
    simp [Body.GotoStep, hunits]
  refine ⟨hok, fun h ↦ ?_⟩
  have hcycle := h _ (by rw [hunits]; exact List.mem_cons_of_mem _ List.mem_cons_self) ⟨4⟩
    List.mem_cons_self ⟨2⟩ hstep
  obtain ⟨y, hy, hback⟩ := hcycle.step
  obtain rfl : y = ⟨2⟩ := by simpa [Body.GotoStep, hunits] using hy
  obtain he | ⟨z, hz, -⟩ := hback.cases_head
  · cases he
  · exact hend z hz

end Pipeline

end ThreeAddress
