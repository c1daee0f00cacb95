import Mathlib
import ThreeAddress.Lowering.Method
import ThreeAddress.Proofs.Interleaving
import ThreeAddress.Proofs.Lowering.History
import ThreeAddress.Proofs.Pass.Notes

namespace ThreeAddress

open Batch (Action)

namespace Lowering

variable {α : Type} {l : Lowering α} {input : Method α} {inputs : List (Method α)}

theorem reports_lower (hp : ∀ pass ∈ l.pipeline.passes, pass.NotesChanges) {e : Error}
    (h : (l.lower input).2 = .error e) :
    ∀ ev ∈ (l.lower input).1, Pipeline.Reports input.signature ev := by
  unfold lower at h ⊢
  cases ha : l.assemble input with
  | error f => simp
  | ok body =>
    simp only [ha] at h ⊢
    cases hr : (l.pipeline.run input.signature body).result with
    | error f => exact fun ev ↦ Pipeline.reports_runFrom hp _ _ _
    | ok changed => simp [hr] at h

theorem closes_lower (hp : ∀ pass ∈ l.pipeline.passes, pass.NotesChanges) {body : Body}
    (h : (l.lower input).2 = .ok body) :
    ∃ es text, (l.lower input).1 =
        es ++ [⟨.methodLowered, some input.signature.text, none, text, none⟩] ∧
      ∀ ev ∈ es, Pipeline.Reports input.signature ev := by
  unfold lower at h ⊢
  cases ha : l.assemble input with
  | error f => simp [ha] at h
  | ok assembled =>
    simp only [ha] at h ⊢
    cases hr : (l.pipeline.run input.signature assembled).result with
    | error f => simp [hr] at h
    | ok changed => exact ⟨_, _, rfl, fun ev ↦ Pipeline.reports_runFrom hp _ _ _⟩

def outcome (stubbed : Bool) : EventKind := if stubbed then .stubSubstituted else .methodLowered

/-- The events of a method that gets a body: those of its passes, and then one that tells whether
the body is a stub. -/
theorem closes_lowerWithStub (hp : ∀ pass ∈ l.pipeline.passes, pass.NotesChanges)
    {lowered : Lowered} (h : (l.lowerWithStub input).2 = .ok lowered) :
    ∃ es text, (l.lowerWithStub input).1 =
        es ++ [⟨outcome lowered.stubbed, some input.signature.text, none, text, none⟩] ∧
      ∀ ev ∈ es, Pipeline.Reports input.signature ev := by
  unfold lowerWithStub at h ⊢
  cases hl : (l.lower input).2 with
  | ok body =>
    obtain ⟨es, text, hes, hr⟩ := closes_lower hp hl
    simp only [hl] at h ⊢
    cases h
    exact ⟨es, text, hes, hr⟩
  | error e =>
    by_cases hstub : (l.options.stubOnError && e.isRecoverable) = true
    · cases hs : stub input.signature l.options.stubException with
      | error f => simp [hl, hstub, hs] at h
      | ok body =>
        simp only [hl, hstub, hs, if_true] at h ⊢
        cases h
        exact ⟨_, _, rfl, reports_lower hp hl⟩
    · simp [hl, hstub] at h

def IsOutcome (e : Event) : Bool := e.kind == .methodLowered || e.kind == .stubSubstituted

theorem isOutcome_of_reports {m : Signature} {e : Event} (h : Pipeline.Reports m e) :
    IsOutcome e = false := by
  obtain ⟨-, hc | hk | hk⟩ := h
  · unfold IsOutcome
    cases hk : e.kind <;> simp_all [EventKind.isChange]
  · simp [IsOutcome, hk]
  · simp [IsOutcome, hk]

theorem method_of_mem_lowerWithStub (hp : ∀ pass ∈ l.pipeline.passes, pass.NotesChanges)
    {lowered : Lowered} (h : (l.lowerWithStub input).2 = .ok lowered) {e : Event}
    (he : e ∈ (l.lowerWithStub input).1) : e.method = some input.signature.text := by
  obtain ⟨es, text, hes, hr⟩ := closes_lowerWithStub hp h
  rw [hes, List.mem_append, List.mem_singleton] at he
  obtain he | rfl := he
  · exact (hr e he).1
  · rfl

theorem countP_lowerWithStub (hp : ∀ pass ∈ l.pipeline.passes, pass.NotesChanges)
    {lowered : Lowered} (h : (l.lowerWithStub input).2 = .ok lowered) :
    (l.lowerWithStub input).1.countP IsOutcome = 1 := by
  obtain ⟨es, text, hes, hr⟩ := closes_lowerWithStub hp h
  have hpasses : es.countP IsOutcome = 0 :=
    List.countP_eq_zero.2 fun e he ↦ by simp [isOutcome_of_reports (hr e he)]
  rw [hes, List.countP_append, hpasses]
  cases lowered.stubbed <;> rfl

theorem stats_outcomes (log : EventLog) :
    log.stats.methodsLowered + log.stats.stubs = log.events.countP IsOutcome := by
  simp only [EventLog.stats, EventLog.count]
  induction log.events with
  | nil => rfl
  | cons e es ih =>
    have hone : (if e.kind == .methodLowered then 1 else 0) +
        (if e.kind == .stubSubstituted then 1 else 0) = if IsOutcome e then 1 else 0 := by
      unfold IsOutcome
      cases e.kind <;> rfl
    rw [List.countP_cons, List.countP_cons, List.countP_cons]
    omega

/-- What the lowering of a method does to the batch that it belongs to. -/
def actions (l : Lowering α) (input : Method α) : List Action :=
  if input.signature.isAbstract then []
  else
    let (events, result) := l.lowerWithStub input
    events.map .report ++
      match result with
      | .ok lowered => [.insert input.signature.text lowered.body lowered.stubbed]
      | .error _ => []

theorem actions_of_ok {lowered : Lowered} (ha : input.signature.isAbstract = false)
    (h : (l.lowerWithStub input).2 = .ok lowered) :
    l.actions input = (l.lowerWithStub input).1.map .report ++
      [.insert input.signature.text lowered.body lowered.stubbed] := by
  simp [actions, ha, h]

theorem foldl_report (es : List Event) (c : Batch) :
    (es.map Action.report).foldl Batch.perform c = { c with log := c.log.append es } := by
  induction es generalizing c with
  | nil => simp [EventLog.append]
  | cons e es ih =>
    rw [List.map_cons, List.foldl_cons, ih]
    simp [Batch.perform, Batch.report, EventLog.push, EventLog.append]

def concrete (inputs : List (Method α)) : List (Method α) :=
  inputs.filter (!·.signature.isAbstract)

theorem mem_concrete : input ∈ concrete inputs ↔
    input ∈ inputs ∧ input.signature.isAbstract = false := by
  simp [concrete]

theorem lowerInto_eq (c : Batch)
    (hok : ∀ input ∈ concrete inputs, ∃ lowered, (l.lowerWithStub input).2 = .ok lowered) :
    l.lowerInto c inputs = .ok ((inputs.flatMap l.actions).foldl Batch.perform c) := by
  induction inputs generalizing c with
  | nil => rfl
  | cons input inputs ih =>
    have ih := fun c ↦ ih c fun i hi ↦
      hok i (mem_concrete.2 ⟨List.mem_cons_of_mem _ (mem_concrete.1 hi).1, (mem_concrete.1 hi).2⟩)
    rw [List.flatMap_cons, List.foldl_append]
    cases ha : input.signature.isAbstract with
    | true => simpa [lowerInto, actions, ha] using ih c
    | false =>
      obtain ⟨lowered, hl⟩ := hok input (mem_concrete.2 ⟨List.mem_cons_self, ha⟩)
      rw [actions_of_ok ha hl, List.foldl_append, foldl_report]
      simp only [lowerInto, ha, hl, Bool.false_eq_true, if_false, List.foldl_cons, List.foldl_nil,
        Batch.perform]
      exact ih _

/-- The batch holds, for every method that has code and for nothing else, what the method gets
alone, and the figures account for every body. -/
structure Records (l : Lowering α) (inputs : List (Method α)) (c : Batch) : Prop where
  names : (c.bodies.map (·.1)).Perm ((concrete inputs).map (·.signature.text))
  results : ∀ input ∈ concrete inputs, ∃ lowered, (l.lowerWithStub input).2 = .ok lowered ∧
    c.body? input.signature.text = some lowered.body ∧
    c.hasStub input.signature.text = lowered.stubbed
  events : ∀ input ∈ concrete inputs,
    c.log.ofMethod input.signature.text = (l.lowerWithStub input).1
  accounts : c.log.stats.methodsLowered + c.log.stats.stubs = c.size

section One

variable (hp : ∀ pass ∈ l.pipeline.passes, pass.NotesChanges)
  (ha : input.signature.isAbstract = false) {lowered : Lowered}
  (hl : (l.lowerWithStub input).2 = .ok lowered)

include ha hl

theorem entries_actions :
    (l.actions input).filterMap Action.entry? = [(input.signature.text, lowered.body)] := by
  rw [actions_of_ok ha hl, List.filterMap_append, List.filterMap_map]
  simp [Action.entry?, Function.comp_def]

theorem events_actions :
    (l.actions input).filterMap Action.event? = (l.lowerWithStub input).1 := by
  rw [actions_of_ok ha hl, List.filterMap_append, List.filterMap_map]
  simp [Action.event?, Function.comp_def]

theorem after_actions : Batch.after (l.actions input) =
    ({ log := ⟨(l.lowerWithStub input).1⟩ } : Batch).insert input.signature.text lowered.body
      lowered.stubbed := by
  rw [actions_of_ok ha hl, Batch.after_concat, Batch.after, foldl_report]
  rfl

include hp in
theorem concerns_actions (method : String) :
    ∀ a ∈ l.actions input, a.concerns method = (input.signature.text == method) := by
  intro a hm
  rw [actions_of_ok ha hl, List.mem_append, List.mem_singleton] at hm
  obtain hm | rfl := hm
  · obtain ⟨e, he, rfl⟩ := List.mem_map.1 hm
    simp [Action.concerns, method_of_mem_lowerWithStub hp hl he]
  · rfl

end One

variable {run : List Action}

theorem flatMap_actions (l : Lowering α) (inputs : List (Method α)) :
    inputs.flatMap l.actions = (concrete inputs).flatMap l.actions := by
  induction inputs with
  | nil => rfl
  | cons input inputs ih =>
    cases ha : input.signature.isAbstract with
    | true => simpa [concrete, actions, ha] using ih
    | false => simpa [concrete, ha] using ih

theorem text_ne_of_others {before behind : List (Method α)} {other : Method α}
    (ha : input.signature.isAbstract = false)
    (hn : ((concrete (before ++ input :: behind)).map (·.signature.text)).Nodup)
    (ho : other ∈ concrete (before ++ behind)) : other.signature.text ≠ input.signature.text := by
  have hperm : (concrete (before ++ input :: behind)).Perm
      (input :: concrete (before ++ behind)) := by
    simp [concrete, ha]
  have hn := (hperm.map (·.signature.text)).nodup_iff.1 hn
  rw [List.map_cons, List.nodup_cons] at hn
  exact fun he ↦ hn.1 (he ▸ List.mem_map_of_mem ho)

section Side

variable (hp : ∀ pass ∈ l.pipeline.passes, pass.NotesChanges)
  (hn : ((concrete inputs).map (·.signature.text)).Nodup)
  (hok : ∀ input ∈ concrete inputs, ∃ lowered, (l.lowerWithStub input).2 = .ok lowered)
  (h : Interleaving (inputs.map l.actions) run)

include h in
theorem perm_actions : run.Perm ((concrete inputs).flatMap l.actions) := by
  rw [← flatMap_actions, List.flatMap_def]
  exact h.perm_flatten

include hp hn hok h in
/-- Whatever the other methods do in between, what happens about a method is what its own lowering
does. -/
theorem filter_concerns (hi : input ∈ concrete inputs) :
    run.filter (·.concerns input.signature.text) = l.actions input := by
  obtain ⟨hmem, ha⟩ := mem_concrete.1 hi
  obtain ⟨lowered, hl⟩ := hok input hi
  obtain ⟨before, behind, rfl⟩ := List.append_of_mem hmem
  have hothers : ∀ task ∈ (before ++ behind).map l.actions, ∀ a ∈ task,
      a.concerns input.signature.text = false := by
    intro task ht a hat
    obtain ⟨other, ho, rfl⟩ := List.mem_map.1 ht
    cases hoa : other.signature.isAbstract with
    | true => simp [actions, hoa] at hat
    | false =>
      have hoc : other ∈ concrete (before ++ input :: behind) := by
        refine mem_concrete.2 ⟨?_, hoa⟩
        simp only [List.mem_append, List.mem_cons] at ho ⊢
        exact ho.imp_right .inr
      obtain ⟨_, hol⟩ := hok other hoc
      rw [concerns_actions hp hoa hol _ a hat]
      exact beq_eq_false_iff_ne.2 (text_ne_of_others ha hn (mem_concrete.2 ⟨ho, hoa⟩))
  have htasks : ((before ++ input :: behind).map l.actions).Perm
      (l.actions input :: (before ++ behind).map l.actions) :=
    (List.perm_middle.map l.actions)
  rw [h.filter_eq htasks hothers]
  exact List.filter_eq_self.2 fun a hat ↦ by simp [concerns_actions hp ha hl _ a hat]

include hn hok h in
theorem bodies_interleaving : (Batch.after run).bodies = run.filterMap Action.entry? ∧
    ((run.filterMap Action.entry?).map (·.1)).Perm ((concrete inputs).map (·.signature.text)) := by
  have hnames : ((run.filterMap Action.entry?).map (·.1)).Perm
      ((concrete inputs).map (·.signature.text)) := by
    refine (((perm_actions h).filterMap _).map _).trans (.of_eq ?_)
    rw [List.filterMap_flatMap, List.map_flatMap, List.map_eq_flatMap]
    refine List.flatMap_congr fun input hi ↦ ?_
    obtain ⟨lowered, hl⟩ := hok input hi
    rw [entries_actions (mem_concrete.1 hi).2 hl]
    rfl
  refine ⟨Batch.bodies_after (fun name ht ↦ ?_) (hnames.nodup_iff.2 hn), hnames⟩
  obtain ⟨input, hi, ht⟩ := List.mem_flatMap.1 ((perm_actions h).mem_iff.1 ht)
  obtain ⟨lowered, hl⟩ := hok input hi
  simp [actions_of_ok (mem_concrete.1 hi).2 hl] at ht

include hp hok h in
theorem outcomes_interleaving :
    (run.filterMap Action.event?).countP IsOutcome = (concrete inputs).length := by
  rw [((perm_actions h).filterMap _).countP_eq, List.filterMap_flatMap, List.countP_flatMap]
  have hone : ∀ input ∈ concrete inputs, (List.countP IsOutcome ∘ fun input ↦
      (l.actions input).filterMap Action.event?) input = 1 := by
    intro input hi
    obtain ⟨lowered, hl⟩ := hok input hi
    simp only [Function.comp_apply, events_actions (mem_concrete.1 hi).2 hl]
    exact countP_lowerWithStub hp hl
  rw [List.map_congr_left hone]
  simp

include hp hn hok h in
theorem records_interleaving : Records l inputs (Batch.after run) := by
  obtain ⟨hbodies, hnames⟩ := bodies_interleaving hn hok h
  refine ⟨hbodies ▸ hnames, fun input hi ↦ ?_, fun input hi ↦ ?_, ?_⟩
  · obtain ⟨lowered, hl⟩ := hok input hi
    have hown := filter_concerns hp hn hok h hi
    refine ⟨lowered, hl, ?_, ?_⟩
    · rw [← Batch.body?_after_filter, hown, after_actions (mem_concrete.1 hi).2 hl,
        Batch.body?_insert, if_pos rfl]
    · rw [← Batch.hasStub_after_filter, hown, after_actions (mem_concrete.1 hi).2 hl,
        Bool.eq_iff_iff, Batch.hasStub_insert]
      simp [Batch.hasStub]
  · obtain ⟨lowered, hl⟩ := hok input hi
    rw [← Batch.ofMethod_after_filter, filter_concerns hp hn hok h hi,
      after_actions (mem_concrete.1 hi).2 hl]
    exact List.filter_eq_self.2 fun e he ↦ by simp [method_of_mem_lowerWithStub hp hl he]
  · have hsize := hnames.length_eq
    rw [List.length_map, List.length_map] at hsize
    rw [stats_outcomes, Batch.events_after, outcomes_interleaving hp hok h, Batch.size, hbodies,
      hsize]

end Side

/-- If every method with code gets a body, and no two of them share a name, then a batch of them
holds what each gets alone, whether they are lowered in any order or side by side. -/
theorem lowerBatch_independent (l : Lowering α) (inputs : List (Method α))
    (hp : ∀ pass ∈ l.pipeline.passes, pass ∈ Pass.all)
    (hn : ((concrete inputs).map (·.signature.text)).Nodup)
    (hok : ∀ input ∈ concrete inputs, ∃ lowered, (l.lowerWithStub input).2 = .ok lowered) :
    (∀ order : List (Method α), order.Perm inputs →
      ∃ c, l.lowerBatch order = .ok c ∧ Records l inputs c) ∧
    ∀ run, Interleaving (inputs.map l.actions) run → Records l inputs (Batch.after run) := by
  have hp := fun pass h ↦ Pass.notesChanges_of_mem_all (hp pass h)
  refine ⟨fun order horder ↦ ?_, fun run h ↦ records_interleaving hp hn hok h⟩
  have hconcrete : (concrete order).Perm (concrete inputs) := horder.filter _
  refine ⟨Batch.after (order.flatMap l.actions), ?_, ?_⟩
  · exact lowerInto_eq {} fun input hi ↦ hok input (hconcrete.mem_iff.1 hi)
  · refine records_interleaving hp hn hok ?_
    rw [List.flatMap_def]
    exact (Interleaving.sequential _).perm (horder.map _)

theorem exists_of_isOk {β : Type} {result : Except Error β} (h : result.isOk = true) :
    ∃ b, result = .ok b := by
  cases result with
  | error e => cases h
  | ok b => exact ⟨b, rfl⟩

def verbatim : Lowering (Except Error Fragment) where
  frontEnd code _ := code

def mixed : List (Method (Except Error Fragment)) :=
  let signature : Signature :=
    { declaringType := "Demo", name := "run", parameters := [⟨none, .int⟩], returnType := .void }
  [{ signature, code := .ok { units := [⟨⟨0⟩, .nop⟩, ⟨⟨1⟩, .ret none⟩] } },
    { signature := { signature with name := "gap" }, code := .error (.unresolvedLabel "end") },
    { signature := { signature with isAbstract := true }, code := .ok {} }]

theorem mixed_ok : ∀ input ∈ concrete mixed,
    ∃ lowered, (verbatim.lowerWithStub input).2 = .ok lowered := by
  intro input hi
  simp only [concrete, mixed, List.filter_cons, List.filter_nil, Bool.not_false, Bool.not_true,
    if_true, Bool.false_eq_true, if_false, List.mem_cons, List.not_mem_nil, or_false] at hi
  obtain rfl | rfl := hi
  · exact exists_of_isOk (by cbv)
  · exact exists_of_isOk (by decide +kernel)

theorem lowerBatch_independent_mixed :
    ((∀ pass ∈ verbatim.pipeline.passes, pass ∈ Pass.all) ∧
      ((concrete mixed).map (·.signature.text)).Nodup ∧
      ∀ input ∈ concrete mixed, ∃ lowered, (verbatim.lowerWithStub input).2 = .ok lowered) ∧
    (∀ order : List (Method (Except Error Fragment)), order.Perm mixed →
      ∃ c, verbatim.lowerBatch order = .ok c ∧ Records verbatim mixed c) ∧
    ∀ run, Interleaving (mixed.map verbatim.actions) run →
      Records verbatim mixed (Batch.after run) := by
  have hp : ∀ pass ∈ verbatim.pipeline.passes, pass ∈ Pass.all := by
    simp [verbatim, Pipeline.standard, Pass.all]
  have hn : ((concrete mixed).map (·.signature.text)).Nodup := by decide +kernel
  exact ⟨⟨hp, hn, mixed_ok⟩, lowerBatch_independent verbatim mixed hp hn mixed_ok⟩

end Lowering

end ThreeAddress
