import ThreeAddress.Proofs.Fragment.Merge

namespace ThreeAddress

inductive DraftStep where
  | push (s : Stmt)
  | setLabel (name : String)
  | jumpTo (label : String)
  | branchTo (condition : Comparison) (label : String)
  | declareLocal (l : Local)
  | pushTrap (t : Trap)
deriving DecidableEq, Repr

/-- What a step pushes: a statement, which is made for its target if it jumps to a label. -/
structure Emission where
  stmt : UnitId → Stmt
  label? : Option String

def DraftStep.emission? : DraftStep → Option Emission
  | push s => some ⟨fun _ ↦ s, none⟩
  | jumpTo label => some ⟨.goto, some label⟩
  | branchTo condition label => some ⟨.branch condition, some label⟩
  | _ => none

/-- What the steps push, in order. Each unit that comes of it has its position for its identity. -/
def emissions (steps : List DraftStep) : List Emission := steps.filterMap DraftStep.emission?

/-- The label was last set when `k` units had been pushed, so that it marks the one pushed next. -/
def Marks (steps : List DraftStep) (label : String) (k : Nat) : Prop :=
  ∃ before after, steps = before ++ .setLabel label :: after ∧ .setLabel label ∉ after ∧
    k = (emissions before).length

namespace FragmentDraft

def perform (d : FragmentDraft) : DraftStep → FragmentDraft
  | .push s => d.push s
  | .setLabel name => d.label name
  | .jumpTo label => d.jumpTo label
  | .branchTo condition label => d.branchTo condition label
  | .declareLocal l => d.declareLocal l
  | .pushTrap t => d.pushTrap t

end FragmentDraft

def draft (steps : List DraftStep) : FragmentDraft := steps.foldl FragmentDraft.perform {}

variable {steps : List DraftStep} {step : DraftStep} {e : Emission} {label : String} {k : Nat}

@[simp] theorem draft_concat : draft (steps ++ [step]) = (draft steps).perform step := by
  simp [draft]

@[simp] theorem emissions_concat :
    emissions (steps ++ [step]) = emissions steps ++ step.emission?.toList := by
  cases h : step.emission? <;> simp [emissions, h]

theorem marks_concat : Marks (steps ++ [step]) label k ↔
    if step = .setLabel label then k = (emissions steps).length else Marks steps label k := by
  split
  · next hs =>
    subst hs
    refine ⟨fun ⟨before, after, he, hn, hk⟩ ↦ ?_, fun hk ↦ ⟨steps, [], rfl, by simp, hk⟩⟩
    obtain rfl | ⟨after, last, rfl⟩ := List.eq_nil_or_concat' after
    · obtain ⟨rfl, -⟩ := List.append_inj' he rfl
      exact hk
    · rw [← List.cons_append, ← List.append_assoc] at he
      obtain ⟨-, hlast⟩ := List.append_inj' he rfl
      obtain rfl := List.singleton_inj.1 hlast
      simp at hn
  · next hs =>
    constructor
    · rintro ⟨before, after, he, hn, hk⟩
      obtain rfl | ⟨after, last, rfl⟩ := List.eq_nil_or_concat' after
      · exact absurd (List.append_inj' he rfl).2 (by simpa using hs)
      · rw [← List.cons_append, ← List.append_assoc] at he
        obtain ⟨rfl, -⟩ := List.append_inj' he rfl
        exact ⟨before, after, rfl, fun h ↦ hn (by simp [h]), hk⟩
    · rintro ⟨before, after, rfl, hn, hk⟩
      exact ⟨before, after ++ [step], by simp, by simpa [hn] using Ne.symm hs, hk⟩

namespace Fragment

variable {f : Fragment} {u : UnitId}

theorem lookup_setLabel {name : String} : (f.setLabel name u).labels.lookup label =
    if label = name then some u else f.labels.lookup label := by
  rw [setLabel, List.lookup_append, lookup_filter_ne, List.lookup_cons, List.lookup_nil]
  by_cases h : label = name
  · simp [h]
  · rw [if_neg (Ne.symm h), if_neg h, beq_eq_false_iff_ne.2 h, Option.or_none]

def setLabels (f : Fragment) (names : List String) (u : UnitId) : Fragment :=
  names.foldl (fun f name ↦ f.setLabel name u) f

theorem setLabels_eq (f : Fragment) (names : List String) (u : UnitId) :
    f.setLabels names u = { f with labels := (f.setLabels names u).labels } := by
  rw [setLabels]
  induction names generalizing f with
  | nil => rfl
  | cons name names ih =>
    rw [List.foldl_cons, ih]
    rfl

theorem lookup_setLabels {names : List String} : (f.setLabels names u).labels.lookup label =
    if label ∈ names then some u else f.labels.lookup label := by
  rw [setLabels]
  induction names generalizing f with
  | nil => simp
  | cons name names ih =>
    rw [List.foldl_cons, ih, lookup_setLabel]
    by_cases h : label ∈ names <;> simp [h]

end Fragment

namespace FragmentDraft

variable (d : FragmentDraft)

theorem push_eq (s : Stmt) : d.push s =
    ⟨{ d.fragment with
        units := d.fragment.units ++ [⟨d.freshId, s⟩]
        labels := (d.fragment.setLabels d.pending d.freshId).labels }, [], wrapId (d.nextUnit + 1)⟩ := by
  rw [push, ← Fragment.setLabels, Fragment.setLabels_eq]

theorem wrapId_nextUnit_perform : wrapId (d.perform step).nextUnit =
    wrapId (d.nextUnit + step.emission?.toList.length) := by
  cases step with
  | push | jumpTo | branchTo => exact wrapId_wrapId_add (d.nextUnit + 1) 0
  | setLabel | declareLocal | pushTrap => rfl

theorem units_perform : (d.perform step).fragment.units =
    d.fragment.units ++ step.emission?.toList.map fun e ↦ ⟨d.freshId, e.stmt d.freshId⟩ := by
  cases step <;>
    simp [perform, DraftStep.emission?, jumpTo, branchTo, pushJump, push_eq, label, declareLocal,
      pushTrap]

theorem openJumps_perform : (d.perform step).fragment.openJumps = d.fragment.openJumps ++
    (step.emission?.bind Emission.label?).toList.map fun label ↦ ⟨d.freshId, label⟩ := by
  cases step <;>
    simp [perform, DraftStep.emission?, jumpTo, branchTo, pushJump, push_eq, label, declareLocal,
      pushTrap]

/-- The unit that a label marks as things stand, which is still to come if the label is pending. -/
def marked? (name : String) : Option UnitId :=
  if name ∈ d.pending then some d.freshId else d.fragment.labels.lookup name

theorem marked?_perform : (d.perform step).marked? label =
    if step = .setLabel label then some d.freshId else d.marked? label := by
  cases step with
  | setLabel name =>
    by_cases h : label = name
    · simp [marked?, perform, FragmentDraft.label, freshId, h]
    · simp [marked?, perform, FragmentDraft.label, freshId, h, Ne.symm h]
  | declareLocal | pushTrap =>
    rw [if_neg (by simp)]
    rfl
  | push | jumpTo | branchTo =>
    simp [marked?, perform, jumpTo, branchTo, pushJump, push_eq, Fragment.lookup_setLabels]

end FragmentDraft

def drafted (es : List Emission) : List CodeUnit :=
  es.zipIdx.map fun (e, i) ↦ ⟨⟨i⟩, e.stmt ⟨i⟩⟩

def opened (es : List Emission) : List OpenJump :=
  es.zipIdx.filterMap fun (e, i) ↦ e.label?.map fun label ↦ ⟨⟨i⟩, label⟩

section

variable {es : List Emission}

theorem drafted_concat :
    drafted (es ++ [e]) = drafted es ++ [⟨⟨es.length⟩, e.stmt ⟨es.length⟩⟩] := by
  simp [drafted, List.zipIdx_append]

theorem opened_concat : opened (es ++ [e]) =
    opened es ++ e.label?.toList.map fun label ↦ ⟨⟨es.length⟩, label⟩ := by
  cases h : e.label? <;> simp [opened, List.zipIdx_append, h]

end

theorem wrapId_nextUnit_draft (steps : List DraftStep) :
    wrapId (draft steps).nextUnit = wrapId (emissions steps).length := by
  induction steps using List.reverseRecOn with
  | nil => rfl
  | append_singleton steps step ih =>
    rw [draft_concat, FragmentDraft.wrapId_nextUnit_perform, emissions_concat, List.length_append,
      ← wrapId_wrapId_add, ih, wrapId_wrapId_add]

theorem length_emissions_le (steps : List DraftStep) (step : DraftStep) :
    (emissions steps).length ≤ (emissions (steps ++ [step])).length := by
  simp

variable (hlength : (emissions steps).length < idCount)
include hlength

theorem freshId_draft : (draft steps).freshId = ⟨(emissions steps).length⟩ := by
  rw [FragmentDraft.freshId, wrapId_nextUnit_draft, wrapId_of_lt hlength]

theorem units_draft : (draft steps).fragment.units = drafted (emissions steps) := by
  induction steps using List.reverseRecOn with
  | nil => rfl
  | append_singleton steps step ih =>
    have hlength := Nat.lt_of_le_of_lt (length_emissions_le steps step) hlength
    rw [draft_concat, emissions_concat, FragmentDraft.units_perform, ih hlength,
      freshId_draft hlength]
    cases step.emission? <;> simp [drafted_concat]

theorem openJumps_draft : (draft steps).fragment.openJumps = opened (emissions steps) := by
  induction steps using List.reverseRecOn with
  | nil => rfl
  | append_singleton steps step ih =>
    have hlength := Nat.lt_of_le_of_lt (length_emissions_le steps step) hlength
    rw [draft_concat, emissions_concat, FragmentDraft.openJumps_perform, ih hlength,
      freshId_draft hlength]
    cases step.emission? <;> simp [opened_concat]

theorem marks_iff : Marks steps label k ↔ (draft steps).marked? label = some ⟨k⟩ := by
  induction steps using List.reverseRecOn with
  | nil => simp [Marks, draft, FragmentDraft.marked?]
  | append_singleton steps step ih =>
    have hlength := Nat.lt_of_le_of_lt (length_emissions_le steps step) hlength
    rw [marks_concat, draft_concat, FragmentDraft.marked?_perform, freshId_draft hlength,
      ih hlength]
    split
    · simp [eq_comm]
    · rfl

omit hlength in
theorem exists_marks_iff : (∃ k, Marks steps label k) ↔ .setLabel label ∈ steps := by
  induction steps using List.reverseRecOn with
  | nil => simp [Marks]
  | append_singleton steps step ih =>
    simp only [marks_concat, List.mem_append, List.mem_singleton]
    by_cases h : step = .setLabel label
    · simp [h]
    · simp [h, ih, Ne.symm h]

theorem lookup_draft_lt {u : UnitId} (h : (draft steps).fragment.labels.lookup label = some u) :
    u.index < (emissions steps).length := by
  induction steps using List.reverseRecOn with
  | nil => cases h
  | append_singleton steps step ih =>
    have hbefore := Nat.lt_of_le_of_lt (length_emissions_le steps step) hlength
    rw [draft_concat] at h
    cases step with
    | setLabel | declareLocal | pushTrap => simpa [DraftStep.emission?] using ih hbefore h
    | push | jumpTo | branchTo =>
      simp only [FragmentDraft.perform, FragmentDraft.jumpTo, FragmentDraft.branchTo,
        FragmentDraft.pushJump, FragmentDraft.push_eq, Fragment.lookup_setLabels] at h
      simp only [emissions_concat, DraftStep.emission?, Option.toList_some, List.length_append,
        List.length_singleton]
      split at h
      · rw [← Option.some.inj h, freshId_draft hbefore]
        exact Nat.lt_succ_self _
      · exact Nat.lt_succ_of_lt (ih hbefore h)

theorem lookup_draft (hp : (draft steps).pending = []) :
    (draft steps).fragment.labels.lookup label = some ⟨k⟩ ↔ Marks steps label k := by
  rw [marks_iff hlength, FragmentDraft.marked?, hp, if_neg List.not_mem_nil]

theorem lookup_draft_eq_none (hp : (draft steps).pending = []) :
    (draft steps).fragment.labels.lookup label = none ↔ .setLabel label ∉ steps := by
  rw [← exists_marks_iff, Option.eq_none_iff_forall_ne_some]
  simp only [← lookup_draft hlength hp, not_exists]
  exact ⟨fun h k ↦ h ⟨k⟩, fun h u ↦ h u.index⟩

omit hlength

theorem stmt_of_label? (he : e ∈ emissions steps) (hl : e.label? = some label) :
    e.stmt = .goto ∨ ∃ condition, e.stmt = .branch condition := by
  obtain ⟨step, -, hs⟩ := List.mem_filterMap.1 he
  cases step <;> cases hs
  · cases hl
  · exact .inl rfl
  · exact .inr ⟨_, rfl⟩

theorem isJump_stmt (he : e ∈ emissions steps) (hl : e.label? = some label) (u : UnitId) :
    (e.stmt u).IsJump := by
  obtain h | ⟨condition, h⟩ := stmt_of_label? he hl <;> rw [h] <;> exact fun _ ↦ rfl

theorem mapTargets_stmt (he : e ∈ emissions steps) (hl : e.label? = some label)
    (r : UnitId → UnitId) (u : UnitId) : (e.stmt u).mapTargets r = e.stmt (r u) := by
  obtain h | ⟨condition, h⟩ := stmt_of_label? he hl <;> rw [h] <;> rfl

section

variable {es : List Emission} {i : Nat}

theorem getElem?_drafted : (drafted es)[i]? = es[i]?.map fun e ↦ ⟨⟨i⟩, e.stmt ⟨i⟩⟩ := by
  simp [drafted, List.getElem?_zipIdx, Function.comp_def]

theorem mem_opened {x : OpenJump} (hx : x ∈ opened es) :
    ∃ i e, es[i]? = some e ∧ e.label? = some x.label ∧ x.unit = ⟨i⟩ := by
  obtain ⟨⟨e, i⟩, he, hl⟩ := List.mem_filterMap.1 hx
  obtain ⟨label, hlabel, rfl⟩ := Option.map_eq_some_iff.1 hl
  exact ⟨i, e, List.mem_zipIdx_iff_getElem?.1 he, hlabel, rfl⟩

variable (es) in
theorem ids_drafted : (drafted es).map (·.id) = (List.range es.length).map UnitId.mk := by
  induction es using List.reverseRecOn with
  | nil => rfl
  | append_singleton es e ih => simp [drafted_concat, ih, List.range_succ]

variable (es) in
theorem labels_opened : (opened es).map (·.label) = es.filterMap (·.label?) := by
  induction es using List.reverseRecOn with
  | nil => rfl
  | append_singleton es e ih =>
    rw [opened_concat, List.map_append, ih, List.filterMap_append]
    cases h : e.label? <;> simp [h]

variable (es) in
theorem aim?_opened (labels : List (String × UnitId)) :
    aim? labels (opened es) ⟨i⟩ = (es[i]?.bind Emission.label?).bind (labels.lookup ·) := by
  induction es using List.reverseRecOn with
  | nil => rfl
  | append_singleton es e ih =>
    rw [opened_concat, aim?_append, ih]
    -- the jump opened last names the unit pushed last, and no other jump does
    have hnew : aim? labels (e.label?.toList.map fun label ↦ ⟨⟨es.length⟩, label⟩) ⟨i⟩ =
        if i = es.length then e.label?.bind (labels.lookup ·) else none := by
      cases e.label? with
      | none => simp [aim?]
      | some label => simp [aim?_singleton, eq_comm]
    rw [hnew]
    split
    · next hi => simp [hi]
    · next hi =>
      have hold : (es ++ [e])[i]? = es[i]? := by
        rw [List.getElem?_append]
        split
        · rfl
        · rw [List.getElem?_eq_none (by simp; omega), List.getElem?_eq_none (by omega)]
      rw [hold, Option.none_or]

end

theorem FragmentDraft.build_eq_ok {d : FragmentDraft} {f : Fragment} :
    d.build = .ok f ↔ d.pending = [] ∧ d.fragment = f := by
  rw [build]
  cases d.pending <;> simp

section

variable (hlength : (emissions steps).length < idCount)
include hlength

theorem nodup_draft : ((draft steps).fragment.units.map (·.id)).Nodup := by
  rw [units_draft hlength, ids_drafted]
  exact List.nodup_range.map fun _ _ h ↦ congrArg UnitId.index h

theorem fits_draft {n : Nat} (hn : n + (emissions steps).length < idCount) :
    (draft steps).fragment.Fits n := by
  have hfits {i : Nat} (hi : i < (emissions steps).length) : UnitId.Fits n ⟨i⟩ := by
    change i + n < idCount
    omega
  constructor
  · intro v hv
    have hid : v.id ∈ (drafted (emissions steps)).map (·.id) :=
      List.mem_map_of_mem (units_draft hlength ▸ hv)
    rw [ids_drafted] at hid
    obtain ⟨i, hi, he⟩ := List.mem_map.1 hid
    rw [← he]
    exact hfits (List.mem_range.1 hi)
  · intro x hx
    rw [openJumps_draft hlength] at hx
    obtain ⟨i, e, he, -, hu⟩ := mem_opened hx
    rw [hu]
    exact hfits (List.getElem?_eq_some_iff.1 he).1

theorem find?_openJumps (hp : (draft steps).pending = []) (n : Nat) :
    (((draft steps).fragment.shift n).openJumps.find?
      (((draft steps).fragment.shift n).labels.lookup ·.label = none)).map (·.label) =
    ((emissions steps).filterMap (·.label?)).find? (.setLabel · ∉ steps) := by
  have hset (label : String) : ((draft steps).fragment.shift n).labels.lookup label = none ↔
      .setLabel label ∉ steps := by
    rw [Fragment.shift, lookup_map_value, Option.map_eq_none_iff, lookup_draft_eq_none hlength hp]
  have hlabels : (emissions steps).filterMap (·.label?) =
      ((draft steps).fragment.shift n).openJumps.map (·.label) := by
    rw [Fragment.shift, openJumps_draft hlength, List.map_map, ← labels_opened]
    rfl
  simp only [hset, hlabels, List.find?_map, Function.comp_def]

theorem copy_drafted {i : Nat} (he : (emissions steps)[i]? = some e) (hl : e.label? = some label)
    (hk : (draft steps).fragment.labels.lookup label = some ⟨k⟩) (n : Nat) :
    (draft steps).fragment.copy n ⟨⟨i⟩, e.stmt ⟨i⟩⟩ =
      ⟨UnitId.shift n ⟨i⟩, e.stmt (UnitId.shift n ⟨k⟩)⟩ := by
  have hmem := List.mem_of_getElem? he
  have haim : aim? (draft steps).fragment.labels (draft steps).fragment.openJumps ⟨i⟩ =
      some ⟨k⟩ := by
    rw [openJumps_draft hlength, aim?_opened, he, Option.bind_some, hl, Option.bind_some, hk]
  simp [Fragment.copy, CodeUnit.aimed, CodeUnit.mapStmt, haim, mapTargets_stmt hmem hl]

end

namespace Body

variable {b c : Body} {f : Fragment}

theorem HasRoom.lt {k : Nat} (h : b.HasRoom k) : k < idCount :=
  Nat.lt_of_le_of_lt (Nat.le_add_left k b.nextUnit) h

theorem HasRoom.shift_eq {i k : Nat} (h : b.HasRoom k) (hi : i ≤ k) :
    UnitId.shift b.nextUnit ⟨i⟩ = ⟨b.nextUnit + i⟩ := by
  rw [UnitId.shift, Nat.add_comm, wrapId_of_lt (h.mono hi)]

variable (hb : b.Bounded) (hroom : b.HasRoom (emissions steps).length)
include hb hroom

theorem stmt?_attach_draft {x : OpenJump}
    (hx : x ∈ ((draft steps).fragment.shift b.nextUnit).openJumps) :
    ∃ s, (b.attach ((draft steps).fragment.shift b.nextUnit)).stmt? x.unit = some s ∧ s.IsJump := by
  have hfit := fits_draft hroom.lt hroom
  have hn := nodup_draft hroom.lt
  have hle := le_index_of_mem_openJumps hfit hx
  obtain ⟨y, hy, rfl⟩ := List.mem_map.1 hx
  rw [openJumps_draft hroom.lt] at hy
  obtain ⟨i, e, he, hl, hu⟩ := mem_opened hy
  have hdrafted : (⟨⟨i⟩, e.stmt ⟨i⟩⟩ : CodeUnit) ∈ (draft steps).fragment.units := by
    rw [units_draft hroom.lt]
    exact List.mem_of_getElem? (getElem?_drafted.trans (congrArg _ he))
  have hv : (⟨y.unit.shift b.nextUnit, (e.stmt ⟨i⟩).mapTargets (.shift b.nextUnit)⟩ : CodeUnit) ∈
      (b.attach ((draft steps).fragment.shift b.nextUnit)).units := by
    rw [units_attach hb hfit hn, hu]
    exact List.mem_append_right _ (List.mem_map.2 ⟨_, hdrafted, rfl⟩)
  refine ⟨_, stmt?_of_single (single_attach hb hfit hn hle) hv, ?_⟩
  exact (isJump_stmt (List.mem_of_getElem? he) hl _).mapTargets _

theorem leads_of_marks (hp : (draft steps).pending = [])
    (hc : b.merge (draft steps).fragment = .ok c) {i : Nat} (he : (emissions steps)[i]? = some e)
    (hl : e.label? = some label) (hk : Marks steps label k) :
    c.ids[b.size + k]? = some ⟨b.nextUnit + k⟩ ∧
      c.units[b.size + i]? = some ⟨⟨b.nextUnit + i⟩, e.stmt ⟨b.nextUnit + k⟩⟩ := by
  have hlookup := (lookup_draft hroom.lt hp).2 hk
  have hki : k < (emissions steps).length := lookup_draft_lt hroom.lt hlookup
  have hunit (j : Nat) (e : Emission) (hj : (emissions steps)[j]? = some e) :
      c.units[b.size + j]? = some ((draft steps).fragment.copy b.nextUnit ⟨⟨j⟩, e.stmt ⟨j⟩⟩) := by
    rw [units_merge hb (fits_draft hroom.lt hroom) hc, Body.size,
      List.getElem?_append_right (Nat.le_add_right _ _), Nat.add_sub_cancel_left, List.getElem?_map,
      units_draft hroom.lt, getElem?_drafted, hj]
    rfl
  have hkshift := hroom.shift_eq (Nat.le_of_lt hki)
  constructor
  · rw [getElem?_ids, hunit k _ (List.getElem?_eq_getElem hki), Option.map_some, Fragment.copy,
      hkshift]
  · have hi := (List.getElem?_eq_some_iff.1 he).1
    rw [hunit i e he, copy_drafted hroom.lt he hl hlookup, hkshift,
      hroom.shift_eq (Nat.le_of_lt hi)]

omit hb hroom

/-- Two labels mark one unit, one of them is set again behind the jump to it, and the last label is
set behind all jumps. -/
def loopSteps : List DraftStep :=
  [.setLabel "top", .setLabel "loop", .branchTo ⟨.eq, .var ⟨0⟩, .const (.int 0)⟩ "exit",
    .jumpTo "loop", .setLabel "loop", .push .nop, .declareLocal ⟨⟨0⟩, "n", .int⟩, .jumpTo "top",
    .setLabel "exit", .push (.ret none), .pushTrap ⟨⟨0⟩, ⟨2⟩, ⟨2⟩, .object "E"⟩]

end Body

end ThreeAddress
