import Mathlib
import ThreeAddress.Proofs.Lowering.Bindings
import ThreeAddress.Proofs.Lowering.Independence

namespace ThreeAddress

namespace Error

/-- Whatever passes it went through, the error began with a gap or an open label of the input. -/
def IsOfInput (e : Error) : Prop :=
  (∃ gap, e.rootCause = .unsupported gap) ∨ ∃ label, e.rootCause = .unresolvedLabel label

theorem isRecoverable_iff (e : Error) : e.isRecoverable = true ↔ e.IsOfInput := by
  induction e with
  | passFailed pass source ih => exact ih
  | _ => simp [isRecoverable, IsOfInput, rootCause]

end Error

def EventKind.isVerdict : EventKind → Bool
  | methodLowered | stubSubstituted | error => true
  | _ => false

theorem Pipeline.Reports.not_verdict {m : Signature} {e : Event} (h : Reports m e) :
    e.kind.isVerdict = false := by
  obtain ⟨-, hchange | hstart | hend⟩ := h
  · cases hk : e.kind <;> simp_all [EventKind.isChange, EventKind.isVerdict]
  · rw [hstart]
    rfl
  · rw [hend]
    rfl

namespace Lowering

section Stub

variable {m : Signature} {scope : Scope} {b : Body} {exception : String}

theorem exists_prologue (h : m.parameters.length ≤ 65536) :
    ∃ scope b, prologue m = .ok (scope, b) :=
  ⟨_, _, if_neg (Nat.not_lt_of_le h)⟩

theorem hasRoom_prologue (h : prologue m = .ok (scope, b)) : b.HasRoom 2 := by
  have hcount := inputCount_le h
  obtain rfl := prologue_eq h
  rw [Body.HasRoom, idCount]
  dsimp only
  omega

theorem steady_prologue (h : prologue m = .ok (scope, b)) :
    b.Coherent ∧ b.Bounded ∧ b.traps = [] := by
  obtain ⟨-, hnodup⟩ := opens_prologue h
  obtain rfl := prologue_eq h
  have hopening {u : CodeUnit} (hu : u ∈ m.opening) :
      ∃ p source, p < m.inputCount ∧ u = ⟨⟨p⟩, .identity ⟨p⟩ source⟩ := by
    obtain ⟨p, hp⟩ := List.getElem?_of_mem hu
    have hlt : p < m.inputCount := by simpa using (List.getElem?_eq_some_iff.1 hp).1
    obtain ⟨source, hs⟩ := Signature.getElem?_opening hlt
    exact ⟨p, source, hlt, Option.some.inj (hp.symm.trans hs)⟩
  refine ⟨⟨hnodup, fun u hu t ht ↦ ?_, fun u hu x hx ↦ ?_, by simp, by simp⟩, fun u hu ↦ ?_, rfl⟩
  · obtain ⟨p, source, -, rfl⟩ := hopening hu
    cases ht
  · obtain ⟨p, source, hp, rfl⟩ := hopening hu
    obtain rfl : x = ⟨p⟩ := by
      simpa [Stmt.locals, Stmt.uses, Stmt.values, Stmt.def?] using hx
    obtain ⟨l, hl⟩ : ∃ l, m.boundLocals[p]? = some l := ⟨_, List.getElem?_eq_getElem (by simpa)⟩
    rw [← (Signature.id_of_boundLocals hl).2]
    exact List.mem_map_of_mem (List.mem_of_getElem? hl)
  · obtain ⟨v, hv, rfl⟩ := Body.mem_ids.1 hu
    obtain ⟨p, source, hp, rfl⟩ := hopening hv
    exact hp

theorem exists_stub (h : m.parameters.length ≤ 65536) (exception : String) :
    ∃ b, stub m exception = .ok b := by
  obtain ⟨scope, start, hp⟩ := exists_prologue h
  rw [stub, hp]
  exact ⟨_, rfl⟩

theorem eq_of_stub (h : stub m exception = .ok b) : ∃ scope start x,
    prologue m = .ok (scope, start) ∧
      b = (((start.declareLocal x).push (.throw (.var x.id))).2.push
        (.ret ((Constant.zero? m.returnType).map .const))).2 := by
  cases hp : prologue m with
  | error e => simp [stub, hp, Bind.bind, Except.bind] at h
  | ok st =>
    rw [stub, hp] at h
    exact ⟨st.1, st.2, _, rfl, (Except.ok.inj h).symm⟩

/-- A stub is valid for every signature: it mentions the inputs and the exception only. -/
theorem valid_stub (h : stub m exception = .ok b) : b.Valid := by
  obtain ⟨scope, start, x, hp, rfl⟩ := eq_of_stub h
  obtain ⟨hcoherent, hbounded, htraps⟩ := steady_prologue hp
  have hdeclared : (start.declareLocal x).Coherent := hcoherent.declareLocal x
  have hbounded : (start.declareLocal x).Bounded := hbounded.declareLocal x
  have hroom : (start.declareLocal x).HasRoom 2 := by
    rw [Body.HasRoom, start.nextUnit_declareLocal]
    exact hasRoom_prologue hp
  have hthrows : ((start.declareLocal x).push (.throw (.var x.id))).2.Coherent := by
    apply hdeclared.push hbounded (hroom.mono (Nat.zero_le 2))
    · simp [Stmt.targets]
    · intro y hy
      obtain rfl : y = x.id := by
        simpa [Stmt.locals, Stmt.uses, Stmt.values, Stmt.def?, Value.var?] using hy
      exact start.declared_declareLocal x (.inr rfl)
  have hone := hroom.mono (Nat.le_succ 1)
  have hlater : ((start.declareLocal x).push (.throw (.var x.id))).2.HasRoom 0 := by
    rw [Body.HasRoom, Body.nextUnit_push hone]
    exact hone
  have hreturns := hthrows.push (s := .ret ((Constant.zero? m.returnType).map .const))
    (hbounded.push hone _) hlater (by simp [Stmt.targets]) (by
      intro y hy
      cases hz : Constant.zero? m.returnType <;>
        simp [hz, Stmt.locals, Stmt.uses, Stmt.values, Stmt.def?, Value.var?] at hy)
  apply hreturns.valid
  · simp [Body.push]
  · intro t ht
    rw [Body.push, Body.push, start.traps_declareLocal, htraps] at ht
    cases ht

end Stub

variable {α : Type} {l : Lowering α} {input : Method α} {b : Body} {e : Error}

def closing (l : Lowering α) (input : Method α) (kind : EventKind) (e : Error) : Event :=
  ⟨kind, some input.signature.text, none, e.textFrom l.options.place, none⟩

theorem lowerWithStub_of_ok (h : (l.lower input).2 = .ok b) :
    l.lowerWithStub input = ((l.lower input).1, .ok ⟨b, false⟩) := by
  simp [lowerWithStub, h]

theorem lowerWithStub_of_stub (h : (l.lower input).2 = .error e)
    (hstub : l.options.stubOnError = true ∧ e.IsOfInput)
    (hb : stub input.signature l.options.stubException = .ok b) :
    l.lowerWithStub input =
      ((l.lower input).1 ++ [l.closing input .stubSubstituted e], .ok ⟨b, true⟩) := by
  have hrecovers := e.isRecoverable_iff.2 hstub.2
  simp [lowerWithStub, closing, h, hb, hstub.1, hrecovers]

theorem lowerWithStub_of_error (h : (l.lower input).2 = .error e)
    (hstub : ¬ (l.options.stubOnError = true ∧ e.IsOfInput)) :
    l.lowerWithStub input = ((l.lower input).1 ++ [l.closing input .error e], .error e) := by
  have hfails : (l.options.stubOnError && e.isRecoverable) = false := by
    rw [Bool.eq_false_iff, Ne, Bool.and_eq_true, e.isRecoverable_iff]
    exact hstub
  simp [lowerWithStub, closing, h, hfails]

def verdict : Except Error Lowered → EventKind
  | .ok lowered => outcome lowered.stubbed
  | .error _ => .error

/-- The result is the one that the lowering without stubs decides, and the last event tells it. -/
structure Concludes (l : Lowering α) (input : Method α) : Prop where
  verdict (log : EventLog) : ∃ es text,
    (log.append (l.lowerWithStub input).1).events = log.events ++ es ++
      [⟨verdict (l.lowerWithStub input).2, some input.signature.text, none, text, none⟩] ∧
    ∀ ev ∈ es, ev.kind.isVerdict = false
  lowered (b : Body) : (l.lowerWithStub input).2 = .ok ⟨b, false⟩ ↔ (l.lower input).2 = .ok b
  stubbed : (∃ b, (l.lowerWithStub input).2 = .ok ⟨b, true⟩) ↔
    ∃ e, (l.lower input).2 = .error e ∧ l.options.stubOnError = true ∧ e.IsOfInput
  failed (e : Error) : (l.lowerWithStub input).2 = .error e ↔
    (l.lower input).2 = .error e ∧ ¬ (l.options.stubOnError = true ∧ e.IsOfInput)
  valid (b : Body) : (l.lowerWithStub input).2 = .ok ⟨b, true⟩ → b.validate = .ok ()

theorem concludes_of_ok (hp : ∀ pass ∈ l.pipeline.passes, pass.NotesChanges)
    (hl : (l.lower input).2 = .ok b) : l.Concludes input := by
  have hrun := lowerWithStub_of_ok hl
  obtain ⟨es, text, hes, hreports⟩ := closes_lower hp hl
  refine ⟨fun log ↦ ⟨es, text, ?_, fun ev hev ↦ (hreports ev hev).not_verdict⟩, ?_, ?_, ?_, ?_⟩
  · simp [hrun, hes, EventLog.append, Lowering.verdict, outcome]
  all_goals simp [hrun, hl]

theorem concludes_of_stub (hp : ∀ pass ∈ l.pipeline.passes, pass.NotesChanges)
    (hn : input.signature.parameters.length ≤ 65536) (hl : (l.lower input).2 = .error e)
    (hstub : l.options.stubOnError = true ∧ e.IsOfInput) : l.Concludes input := by
  obtain ⟨b, hb⟩ := exists_stub hn l.options.stubException
  have hrun := lowerWithStub_of_stub hl hstub hb
  have hevents := fun ev hev ↦ (reports_lower hp hl ev hev).not_verdict
  refine ⟨fun log ↦ ⟨_, e.textFrom l.options.place, ?_, hevents⟩, ?_, ?_, ?_, ?_⟩
  · simp [hrun, EventLog.append, Lowering.verdict, outcome, closing]
  · simp [hrun, hl]
  · simp [hrun, hl, hstub]
  · simp [hrun, hl, hstub]
  · intro c hc
    obtain rfl : b = c := by simpa [hrun] using hc
    exact Body.validate_eq_ok.2 (valid_stub hb)

theorem concludes_of_error (hp : ∀ pass ∈ l.pipeline.passes, pass.NotesChanges)
    (hl : (l.lower input).2 = .error e)
    (hstub : ¬ (l.options.stubOnError = true ∧ e.IsOfInput)) : l.Concludes input := by
  have hrun := lowerWithStub_of_error hl hstub
  have hevents := fun ev hev ↦ (reports_lower hp hl ev hev).not_verdict
  have hsame {e' : Error} (he : (l.lower input).2 = .error e') : e' = e :=
    Except.error.inj (he.symm.trans hl)
  refine ⟨fun log ↦ ⟨_, e.textFrom l.options.place, ?_, hevents⟩, ?_, ?_, ?_, ?_⟩
  · simp [hrun, EventLog.append, Lowering.verdict, closing]
  · simp [hrun, hl]
  · have hno : ¬ ∃ e', (l.lower input).2 = .error e' ∧
        l.options.stubOnError = true ∧ e'.IsOfInput := by
      intro h
      obtain ⟨e', he, hrecovers⟩ := h
      exact hstub (hsame he ▸ hrecovers)
    simp [hrun, hno]
  · intro e'
    rw [hrun]
    constructor
    · intro he
      obtain rfl : e = e' := Except.error.inj he
      exact ⟨hl, hstub⟩
    · intro he
      rw [hsame he.1]
  · simp [hrun]

/-- Every lowering concludes, whatever front end, options and passes it has. -/
theorem lowerWithStub_concludes (l : Lowering α) (input : Method α)
    (hp : ∀ pass ∈ l.pipeline.passes, pass ∈ Pass.all)
    (hn : input.signature.parameters.length ≤ 65536) : l.Concludes input := by
  have hp := fun pass h ↦ Pass.notesChanges_of_mem_all (hp pass h)
  cases hl : (l.lower input).2 with
  | ok b => exact concludes_of_ok hp hl
  | error e =>
    by_cases hstub : l.options.stubOnError = true ∧ e.IsOfInput
    · exact concludes_of_stub hp hn hl hstub
    · exact concludes_of_error hp hl hstub

theorem lowerWithStub_concludes_gap :
    ((∀ pass ∈ verbatim.pipeline.passes, pass ∈ Pass.all) ∧
      (mixed[1].signature.parameters.length ≤ 65536)) ∧ verbatim.Concludes mixed[1] := by
  have hp : ∀ pass ∈ verbatim.pipeline.passes, pass ∈ Pass.all := by
    simp [verbatim, Pipeline.standard, Pass.all]
  have hn : mixed[1].signature.parameters.length ≤ 65536 := by decide
  exact ⟨⟨hp, hn⟩, lowerWithStub_concludes verbatim mixed[1] hp hn⟩

end Lowering

end ThreeAddress
