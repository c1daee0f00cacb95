import Mathlib.Data.List.Induction
import ThreeAddress.Lowering.Batch
import ThreeAddress.Proofs.Lookup

namespace ThreeAddress.Batch

inductive Action where
  | report (e : Event)
  | insert (method : String) (body : Body) (stubbed : Bool)
  | take (method : String)
deriving DecidableEq, Repr, Inhabited

def perform (c : Batch) : Action → Batch
  | .report e => c.report e
  | .insert method body stubbed => c.insert method body stubbed
  | .take method => (c.take method).2

/-- The batch that starts empty and goes through a run of actions. -/
def after (run : List Action) : Batch := run.foldl perform {}

namespace Action

def event? : Action → Option Event
  | .report e => some e
  | _ => none

def entry? : Action → Option (String × Body)
  | .insert method body _ => some (method, body)
  | _ => none

def concerns (method : String) : Action → Bool
  | .report e => e.method == some method
  | .insert name _ _ => name == method
  | .take name => name == method

def update (method : String) (stored : Option (Body × Bool)) : Action → Option (Body × Bool)
  | .report _ => stored
  | .insert name body stubbed => if name = method then some (body, stubbed) else stored
  | .take name => if name = method then none else stored

end Action

/-- What a run leaves stored for a method: the body, and whether it was stored as a stub. -/
def stored? (method : String) (run : List Action) : Option (Body × Bool) :=
  run.foldl (Action.update method) none

variable {method : String} {run : List Action}

@[simp] theorem after_nil : after [] = {} := rfl

@[simp] theorem after_concat (run : List Action) (a : Action) :
    after (run ++ [a]) = (after run).perform a := by
  simp [after]

@[simp] theorem stored?_concat (method : String) (run : List Action) (a : Action) :
    stored? method (run ++ [a]) = a.update method (stored? method run) := by
  simp [stored?]

theorem body?_insert (c : Batch) (name : String) (body : Body) (stubbed : Bool) :
    (c.insert name body stubbed).body? method =
      if name = method then some body else c.body? method := by
  simp only [insert, body?, List.lookup_append, lookup_filter_ne]
  by_cases hm : name = method
  · simp [hm]
  · simp [hm, List.lookup_cons, beq_eq_false_iff_ne.2 (Ne.symm hm)]

theorem body?_take (c : Batch) (name : String) :
    (c.take name).2.body? method = if name = method then none else c.body? method :=
  lookup_filter_ne c.bodies name

theorem body?_after (method : String) (run : List Action) :
    (after run).body? method = (stored? method run).map (·.1) := by
  induction run using List.reverseRecOn with
  | nil => rfl
  | append_singleton run a ih =>
    rw [after_concat, stored?_concat]
    cases a with
    | report e => exact ih
    | insert name body stubbed =>
      simp only [perform, body?_insert, Action.update, ih]
      split <;> rfl
    | take name =>
      simp only [perform, body?_take, Action.update, ih]
      split <;> rfl

theorem hasStub_insert (c : Batch) (name : String) (body : Body) (stubbed : Bool) :
    (c.insert name body stubbed).hasStub method = true ↔
      c.hasStub method = true ∨ stubbed = true ∧ name = method := by
  simp only [hasStub, insert, List.contains_iff_mem]
  cases stubbed with
  | false => simp
  | true =>
    by_cases hc : name ∈ c.stubs
    · have : name = method → method ∈ c.stubs := fun h ↦ h ▸ hc
      simpa [hc] using this
    · simp [hc, eq_comm]

theorem hasStub_after (method : String) (run : List Action) :
    (after run).hasStub method = true ↔ ∃ body, .insert method body true ∈ run := by
  induction run using List.reverseRecOn with
  | nil => simp [hasStub]
  | append_singleton run a ih =>
    simp only [after_concat, List.mem_append, List.mem_singleton, exists_or, ← ih]
    cases a with
    | report e => simp [perform, report, hasStub]
    | insert name body stubbed =>
      rw [perform, hasStub_insert]
      simp [@eq_comm _ method name, and_comm]
    | take name => simp [perform, take, hasStub]

theorem mem_of_stored? {body : Body} {stubbed : Bool}
    (h : stored? method run = some (body, stubbed)) : .insert method body stubbed ∈ run := by
  induction run using List.reverseRecOn with
  | nil => simp [stored?] at h
  | append_singleton run a ih =>
    rw [stored?_concat] at h
    rw [List.mem_append, List.mem_singleton]
    cases a with
    | report e => exact .inl (ih h)
    | insert name body' stubbed' =>
      by_cases hm : name = method
      · simp only [Action.update, hm, if_true, Option.some.injEq, Prod.mk.injEq] at h
        exact .inr (by rw [hm, h.1, h.2])
      · exact .inl (ih (by simpa [Action.update, hm] using h))
    | take name =>
      by_cases hm : name = method
      · simp [Action.update, hm] at h
      · exact .inl (ih (by simpa [Action.update, hm] using h))

/-- In a run that withdraws nothing and stores under every name once at most, every store lasts. -/
theorem bodies_after (ht : ∀ name, .take name ∉ run)
    (hn : ((run.filterMap Action.entry?).map (·.1)).Nodup) :
    (after run).bodies = run.filterMap Action.entry? := by
  induction run using List.reverseRecOn with
  | nil => rfl
  | append_singleton run a ih =>
    have ht' : ∀ name, .take name ∉ run := fun name h ↦ ht name (List.mem_append_left _ h)
    rw [List.filterMap_append, List.map_append] at hn
    have ih := ih ht' (List.nodup_append.1 hn).1
    rw [after_concat, List.filterMap_append]
    cases a with
    | report e => exact ih.trans (List.append_nil _).symm
    | insert name body stubbed =>
      have hnew : ∀ x ∈ run.filterMap Action.entry?, x.1 ≠ name := fun x hx ↦
        (List.nodup_append.1 hn).2.2 x.1 (List.mem_map_of_mem hx) name (by simp [Action.entry?])
      have hf : (run.filterMap Action.entry?).filter (·.1 ≠ name) = run.filterMap Action.entry? :=
        List.filter_eq_self.2 fun x hx ↦ by simpa using hnew x hx
      simp only [perform, insert, ih, hf]
      simp [Action.entry?]
    | take name => exact absurd (List.mem_append_right _ (List.mem_singleton_self _)) (ht name)

theorem events_after (run : List Action) :
    (after run).log.events = run.filterMap Action.event? := by
  induction run using List.reverseRecOn with
  | nil => rfl
  | append_singleton run a ih =>
    rw [after_concat, List.filterMap_append]
    cases a <;> simp [perform, report, insert, take, EventLog.push, Action.event?, ih]

theorem stored?_filter (method : String) (run : List Action) :
    stored? method (run.filter (·.concerns method)) = stored? method run := by
  induction run using List.reverseRecOn with
  | nil => rfl
  | append_singleton run a ih =>
    rw [List.filter_append, stored?_concat]
    cases hc : a.concerns method with
    | true => simp [hc, ih]
    | false =>
      have hsame : a.update method (stored? method run) = stored? method run := by
        cases a <;> simp_all [Action.concerns, Action.update]
      simp [hc, hsame, ih]

theorem body?_after_filter (method : String) (run : List Action) :
    (after (run.filter (·.concerns method))).body? method = (after run).body? method := by
  rw [body?_after, body?_after, stored?_filter]

theorem hasStub_after_filter (method : String) (run : List Action) :
    (after (run.filter (·.concerns method))).hasStub method = (after run).hasStub method := by
  rw [Bool.eq_iff_iff, hasStub_after, hasStub_after]
  simp [Action.concerns]

theorem ofMethod_after_filter (method : String) (run : List Action) :
    (after (run.filter (·.concerns method))).log.ofMethod method =
      (after run).log.ofMethod method := by
  simp only [EventLog.ofMethod, events_after, List.filter_filterMap, List.filterMap_filter]
  congr 1
  funext a
  cases a with
  | report e =>
    cases he : e.method == some method <;>
      simp [Action.concerns, Action.event?, Option.filter, he]
  | insert name body stubbed => simp [Action.event?]
  | take name => simp [Action.event?]

end ThreeAddress.Batch
