import Mathlib
import ThreeAddress.Proofs.WellFormedness

namespace ThreeAddress.Pipeline

variable {m : Signature} {pass : Pass} {ps qs : List Pass} {b c d : Body}

/-- The passes succeed one after another, and each leaves a valid body. -/
inductive Completes (m : Signature) : List Pass → Body → Body → Prop
  | nil (b : Body) : Completes m [] b b
  | cons {pass : Pass} {ps : List Pass} {b c : Body} :
      (∃ changed, (pass.run m b).result = .ok changed) → (pass.run m b).body.Valid →
      Completes m ps (pass.run m b).body c → Completes m (pass :: ps) b c

namespace Completes

theorem uncons (h : Completes m (pass :: ps) b c) :
    (∃ changed, (pass.run m b).result = .ok changed) ∧ (pass.run m b).body.Valid ∧
      Completes m ps (pass.run m b).body c := by
  cases h with
  | cons hok hv h => exact ⟨hok, hv, h⟩

theorem eq_of_single (h : Completes m [pass] b c) : c = (pass.run m b).body := by
  obtain ⟨-, -, h⟩ := h.uncons
  cases h
  rfl

theorem split (ps : List Pass) (h : Completes m (ps ++ qs) b d) :
    ∃ c, Completes m ps b c ∧ Completes m qs c d := by
  induction ps generalizing b with
  | nil => exact ⟨b, .nil b, h⟩
  | cons pass ps ih =>
    obtain ⟨hok, hv, h⟩ := h.uncons
    obtain ⟨c, hc, hd⟩ := ih h
    exact ⟨c, .cons hok hv hc, hd⟩

theorem append (h : Completes m ps b c) (h' : Completes m qs c d) :
    Completes m (ps ++ qs) b d := by
  induction h with
  | nil => exact h'
  | cons hok hv _ ih => exact .cons hok hv (ih h')

theorem valid (h : Completes m ps b c) (hb : b.Valid) : c.Valid := by
  induction h with
  | nil => exact hb
  | cons _ hv _ ih => exact ih hv

theorem of_carries {P : Body → Prop} (hP : ∀ b, P b → b.Valid) (hps : ∀ pass ∈ ps, pass.Carries P P)
    (hb : P b) : ∃ c, Completes m ps b c ∧ P c := by
  induction ps generalizing b with
  | nil => exact ⟨b, .nil b, hb⟩
  | cons pass ps ih =>
    obtain ⟨hok, hq⟩ := hps pass List.mem_cons_self m b hb
    obtain ⟨c, hc, hp⟩ := ih (fun p hp ↦ hps p (List.mem_cons_of_mem pass hp)) hq
    exact ⟨c, .cons hok (hP _ hq) hc, hp⟩

end Completes

@[simp] theorem body_stage (v : Bool) (m : Signature) (pass : Pass) (b : Body) :
    (stage v m pass b).body = (pass.run m b).body := by
  unfold stage
  dsimp only
  split <;> rfl

theorem stage_ok_iff {changed : Bool} : (stage true m pass b).result = .ok changed ↔
    (pass.run m b).result = .ok changed ∧ (pass.run m b).body.Valid := by
  rw [← Body.validate_eq_ok, stage]
  dsimp only
  cases (pass.run m b).result with
  | error e => simp [Bind.bind, Except.bind]
  | ok flag =>
    cases (pass.run m b).body.validate with
    | error e => simp [Bind.bind, Except.bind]
    | ok _ => simp [Bind.bind, Except.bind, Pure.pure, Except.pure]

theorem body_runFrom (v changed changed' : Bool) (m : Signature) (b : Body) (ps : List Pass) :
    (runFrom v m changed b ps).body = (runFrom v m changed' b ps).body := by
  induction ps generalizing b changed changed' with
  | nil => rfl
  | cons pass ps ih =>
    simp only [runFrom]
    cases (stage v m pass b).result with
    | error e => rfl
    | ok flag => exact ih (changed || flag) (changed' || flag) _

theorem runFrom_cons (ps : List Pass) (changed : Bool) {flag : Bool}
    (h : (stage true m pass b).result = .ok flag) :
    (runFrom true m changed b (pass :: ps)).body =
        (runFrom true m (changed || flag) (pass.run m b).body ps).body ∧
      (runFrom true m changed b (pass :: ps)).result =
        (runFrom true m (changed || flag) (pass.run m b).body ps).result := by
  simp [runFrom, h]

/-- A run in which all stages complete succeeds, and ends with what the last one leaves. -/
theorem Completes.outcome (h : Completes m ps b c) (changed : Bool) :
    (∃ changed', (runFrom true m changed b ps).result = .ok changed') ∧
      (runFrom true m changed b ps).body = c := by
  induction h generalizing changed with
  | nil => exact ⟨⟨changed, rfl⟩, rfl⟩
  | cons hok hv _ ih =>
    obtain ⟨flag, hok⟩ := hok
    obtain ⟨hbody, hresult⟩ := runFrom_cons _ changed (stage_ok_iff.2 ⟨hok, hv⟩)
    rw [hbody, hresult]
    exact ih (changed || flag)

theorem completes_of_ok (changed : Bool) {changed' : Bool}
    (h : (runFrom true m changed b ps).result = .ok changed') :
    Completes m ps b (runFrom true m changed b ps).body := by
  induction ps generalizing b changed with
  | nil => exact .nil b
  | cons pass ps ih =>
    cases hs : (stage true m pass b).result with
    | error e => simp [runFrom, hs] at h
    | ok flag =>
      obtain ⟨hok, hv⟩ := stage_ok_iff.1 hs
      obtain ⟨hbody, hresult⟩ := runFrom_cons ps changed hs
      rw [hresult] at h
      rw [hbody]
      exact .cons ⟨flag, hok⟩ hv (ih (changed || flag) h)

/-- The body that the first `n` stages leave. -/
def reached (m : Signature) (ps : List Pass) (b : Body) (n : Nat) : Body :=
  (runFrom true m false b (ps.take n)).body

theorem reached_succ {flag : Bool} (h : (stage true m pass b).result = .ok flag) (n : Nat) :
    reached m (pass :: ps) b (n + 1) = reached m ps (pass.run m b).body n := by
  obtain ⟨hbody, -⟩ := runFrom_cons (ps.take n) false h
  rw [reached, List.take_succ_cons, hbody]
  exact body_runFrom true _ false m _ _

theorem runFrom_ok_iff (changed : Bool) :
    (∃ changed', (runFrom true m changed b ps).result = .ok changed') ↔
      ∃ c, Completes m ps b c := by
  constructor
  · intro h
    obtain ⟨changed', h⟩ := h
    exact ⟨_, completes_of_ok changed h⟩
  · intro h
    obtain ⟨c, h⟩ := h
    exact (h.outcome changed).1

/-- Passes that add no units leave none under a fresh identity, no matter where the run stops. -/
theorem noFresh_runFrom (changed : Bool) (hps : ∀ pass ∈ ps, pass.AddsNoUnits)
    (hn : b.ids.Nodup) : b.NoFresh (runFrom true m changed b ps).body := by
  induction ps generalizing b changed with
  | nil => exact .of_units rfl rfl
  | cons pass ps ih =>
    have hfirst : b.NoFresh (pass.run m b).body := hps pass List.mem_cons_self m b hn
    cases hs : (stage true m pass b).result with
    | error e => simpa [runFrom, hs] using hfirst
    | ok flag =>
      rw [(runFrom_cons ps changed hs).1]
      exact hfirst.trans (ih (changed || flag) (fun p hp ↦ hps p (List.mem_cons_of_mem pass hp))
        (stage_ok_iff.1 hs).2.nodup)

theorem standard_subset_all : standard.passes ⊆ Pass.all := by
  simp only [standard, Pass.all, List.cons_subset, List.nil_subset, List.mem_cons, true_or,
    or_true, and_self]

theorem standard_countdown : (standard.run countdown countdownBody).result = .ok true := by cbv

end ThreeAddress.Pipeline
