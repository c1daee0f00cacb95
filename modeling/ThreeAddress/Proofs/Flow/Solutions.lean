import ThreeAddress.Flow.Liveness
import ThreeAddress.Flow.Reaching
import ThreeAddress.Proofs.Flow.Steps
import ThreeAddress.Proofs.Flow.Worklist

namespace ThreeAddress

theorem FactSet.mem_pick {β : Type} {s : Nat} {l : List β} {a : β} :
    a ∈ pick s l ↔ ∃ i, l[i]? = some a ∧ s.testBit i = true := by
  simp only [pick, List.mem_filterMap, Prod.exists, List.mem_zipIdx_iff_getElem?,
    Option.ite_none_right_eq_some, Option.some.injEq]
  exact ⟨fun ⟨_, i, hi, hs, he⟩ ↦ ⟨i, he ▸ hi, hs⟩, fun ⟨i, hi, hs⟩ ↦ ⟨a, i, hi, hs, rfl⟩⟩

theorem FactSet.mem_getD_pick {β : Type} (side : Facts → Nat) {rows : List Facts} {l : List β}
    {a : β} {p : Nat} (h : side {} = 0) : a ∈ (rows.map fun r ↦ pick (side r) l).getD p [] ↔
      ∃ i, l[i]? = some a ∧ (side (factsAt rows p)).testBit i = true := by
  rw [List.getD_eq_getElem?_getD, List.getElem?_map, factsAt, List.getD_eq_getElem?_getD]
  cases rows[p]? with
  | none => simp [h]
  | some r => exact mem_pick

theorem Facts.differ_eq_false {r s : Facts} : r.differ s = false ↔ r = s := by
  cases r
  cases s
  simp [differ]

namespace Body

variable {b : Body} {x : LocalId} {d i p q : Nat}

theorem size_flowGraph (b : Body) : b.flowGraph.size = b.size := length_ids b

theorem getElem?_positions (hp : p < b.size) : b.flowGraph.positions[p]? = some p := by
  rw [FlowGraph.positions, size_flowGraph, List.getElem?_range hp]

theorem mem_getD_positions {f : Nat → List Nat} :
    q ∈ (b.flowGraph.positions.map f).getD p [] ↔ p < b.size ∧ q ∈ f p := by
  rw [List.getD_eq_getElem?_getD, List.getElem?_map]
  by_cases hp : p < b.size
  · rw [getElem?_positions hp, Option.map_some, Option.getD_some]
    exact (and_iff_right hp).symm
  · have hnone : b.flowGraph.positions[p]? = none := by
      rw [FlowGraph.positions, size_flowGraph]
      exact List.getElem?_eq_none (by simpa using hp)
    simp [hnone, hp]

theorem mem_predTable : q ∈ b.flowGraph.predTable.getD p [] ↔ p ∈ b.flowGraph.succs q := by
  rw [FlowGraph.predTable, mem_getD_positions, FlowGraph.preds, List.mem_filter, mem_positions,
    decide_eq_true_eq]
  refine ⟨fun h ↦ h.2.2, fun h ↦ ?_⟩
  have hlt := Leads.lt (.inl h)
  exact ⟨hlt.2, hlt.1, h⟩

theorem mem_throwerTable : q ∈ b.flowGraph.throwerTable.getD p [] ↔ p ∈ b.flowGraph.catches q := by
  rw [FlowGraph.throwerTable, mem_getD_positions, FlowGraph.throwers, List.mem_filter,
    mem_positions, decide_eq_true_eq]
  refine ⟨fun h ↦ h.2.2, fun h ↦ ?_⟩
  have hlt := Leads.lt (.inr h)
  exact ⟨hlt.2, hlt.1, h⟩

def definitionFlow (b : Body) : DataFlow :=
  b.flowGraph.reachingFlow b.flowGraph.predTable b.flowGraph.throwerTable
    (b.units.map fun u ↦ u.stmt.def?)

def assignmentFlow (b : Body) : DataFlow :=
  b.flowGraph.unassignedFlow b.flowGraph.predTable b.flowGraph.throwerTable
    (b.units.map fun u ↦ u.stmt.def?) b.mentioned.eraseDups

def livenessFlow (b : Body) : DataFlow :=
  b.flowGraph.livenessFlow b.flowGraph.predTable b.flowGraph.throwerTable
    (b.units.map fun u ↦ u.stmt.def?) (b.units.map fun u ↦ u.stmt.uses) b.mentioned.eraseDups

def definitionsAt (b : Body) : Nat → Facts :=
  factsAt (b.definitionFlow.solve b.flowGraph.positions)

def unassignedAt (b : Body) : Nat → Facts :=
  factsAt (b.assignmentFlow.solve b.flowGraph.positions)

def liveAt (b : Body) : Nat → Facts :=
  factsAt (b.livenessFlow.solve b.flowGraph.positions.reverse)

theorem informs_of_forward {f : DataFlow} {first : Nat} {kept made : List Nat}
    (hderive : f.derive =
      .forward b.flowGraph.predTable b.flowGraph.throwerTable first kept made)
    (hreaders : f.readers = fun p ↦ b.flowGraph.succs p ++ b.flowGraph.catches p)
    (hnews : f.isNews = Facts.differ) : f.Informs := by
  intro k l p q hne h
  rw [hreaders, hnews, List.mem_append, Facts.differ_eq_false] at h
  have hsame : ∀ r, p ∈ b.flowGraph.succs r ∨ p ∈ b.flowGraph.catches r → k r = l r := by
    intro r hr
    by_cases he : r = q
    · exact he ▸ h (he ▸ hr)
    · exact hne r he
  have hpreds : (b.flowGraph.predTable.getD p []).map (fun q ↦ (k q).exit) =
      (b.flowGraph.predTable.getD p []).map fun q ↦ (l q).exit :=
    List.map_congr_left fun r hr ↦ by rw [hsame r (.inl (mem_predTable.1 hr))]
  have hthrowers :
      (b.flowGraph.throwerTable.getD p []).map (fun q ↦ (k q).entry ||| (k q).exit) =
        (b.flowGraph.throwerTable.getD p []).map fun q ↦ (l q).entry ||| (l q).exit :=
    List.map_congr_left fun r hr ↦ by rw [hsame r (.inr (mem_throwerTable.1 hr))]
  simp only [hderive, Facts.forward, hpreds, hthrowers]

theorem settledAt_definitions (hp : p < b.size) :
    b.definitionsAt p = b.definitionFlow.derive b.definitionsAt p := by
  rw [← size_flowGraph] at hp
  exact DataFlow.settledAt_solve (informs_of_forward rfl rfl rfl)
    (fun q hq ↦ List.mem_range.2 hq) p hp

theorem testBit_entry_definitionFlow {k : Nat → Facts} :
    (b.definitionFlow.derive k p).entry.testBit d = true ↔
      (∃ q, p ∈ b.flowGraph.succs q ∧ (k q).exit.testBit d = true) ∨
        ∃ q, p ∈ b.flowGraph.catches q ∧
          ((k q).entry.testBit d = true ∨ (k q).exit.testBit d = true) := by
  refine Facts.testBit_entry_forward.trans ?_
  simp only [Nat.zero_testBit, Bool.false_eq_true, and_false, false_or, mem_predTable,
    mem_throwerTable]

theorem testBit_exit_definitionFlow {k : Nat → Facts} :
    (b.definitionFlow.derive k p).exit.testBit d = true ↔
      (b.definitionFlow.derive k p).entry.testBit d = true ∧ p < b.size ∧ d < b.size ∧
          (∀ x, b.Defines p x → ¬ b.Defines d x) ∨
        p < b.size ∧ d = p ∧ ∃ x, b.Defines p x := by
  refine Facts.testBit_exit_forward.trans (or_congr (and_congr_right fun _ ↦ ?_) ?_)
  · rw [FactSet.testBit_table, size_flowGraph, List.mem_filter, mem_positions, getD_defined,
      getD_defined]
    refine and_congr_right fun _ ↦ and_congr_right fun _ ↦ ?_
    simp only [Defines]
    cases (b.stmtAt? p).bind Stmt.def? with
    | none => simp
    | some x => simp
  · rw [FactSet.testBit_table, size_flowGraph, getD_defined]
    refine and_congr_right fun _ ↦ ?_
    simp only [Defines]
    cases (b.stmtAt? p).bind Stmt.def? with
    | none => simp
    | some x => simp

/-- The definition at `d` reaches `p`. -/
def Arrives (b : Body) (d p : Nat) : Prop :=
  ∃ x, b.Defines d x ∧ ∃ q, b.Leads d q ∧ Relation.ReflTransGen (b.Keeps x) q p

/-- The definition at `d` holds behind `p`. -/
def Departs (b : Body) (d p : Nat) : Prop :=
  ∃ x, b.Defines d x ∧ (d = p ∨ b.Arrives d p ∧ ¬ b.Defines p x)

theorem Arrives.of_succs (h : b.Departs d q) (hq : p ∈ b.flowGraph.succs q) : b.Arrives d p := by
  obtain ⟨x, hd, rfl | ⟨⟨y, hy, r, hr, hpath⟩, hx⟩⟩ := h
  · exact ⟨x, hd, p, .inl hq, .refl⟩
  · obtain rfl : x = y := Option.some.inj (hd.symm.trans hy)
    exact ⟨x, hd, r, hr, hpath.tail (.inl ⟨hq, hx⟩)⟩

theorem Arrives.of_catches (h : b.Arrives d q ∨ b.Departs d q) (hq : p ∈ b.flowGraph.catches q) :
    b.Arrives d p := by
  have hstep : b.Arrives d q → b.Arrives d p := fun ⟨x, hd, r, hr, hpath⟩ ↦
    ⟨x, hd, r, hr, hpath.tail (.inr hq)⟩
  obtain h | ⟨x, hd, rfl | ⟨h, -⟩⟩ := h
  · exact hstep h
  · exact ⟨x, hd, p, .inr hq, .refl⟩
  · exact hstep h

theorem arrives_of_definitions (p : Nat) :
    (∀ d, (b.definitionsAt p).entry.testBit d = true → b.Arrives d p) ∧
      ∀ d, (b.definitionsAt p).exit.testBit d = true → b.Departs d p := by
  refine DataFlow.forall_solve (P := fun p r ↦ (∀ d, r.entry.testBit d = true → b.Arrives d p) ∧
    ∀ d, r.exit.testBit d = true → b.Departs d p) (fun p ↦ by simp) (fun k hk p ↦ ?_) p
  have hentry : ∀ d, (b.definitionFlow.derive k p).entry.testBit d = true → b.Arrives d p := by
    intro d hd
    obtain ⟨q, hq, hd⟩ | ⟨q, hq, hd⟩ := testBit_entry_definitionFlow.1 hd
    · exact .of_succs ((hk q).2 d hd) hq
    · exact .of_catches (hd.imp ((hk q).1 d) ((hk q).2 d)) hq
  refine ⟨hentry, fun d hd ↦ ?_⟩
  obtain ⟨hd, -, -, hkept⟩ | ⟨-, rfl, x, hx⟩ := testBit_exit_definitionFlow.1 hd
  · have harr := hentry d hd
    obtain ⟨x, hx, -⟩ := id harr
    exact ⟨x, hx, .inr ⟨harr, fun hp ↦ hkept x hp hx⟩⟩
  · exact ⟨x, hx, .inl rfl⟩

theorem Defines.definitionsAt (h : b.Defines d x) : (b.definitionsAt d).exit.testBit d = true := by
  rw [settledAt_definitions h.lt]
  exact testBit_exit_definitionFlow.2 (.inr ⟨h.lt, rfl, x, h⟩)

theorem definitionsAt_of_leads (h : b.Leads q p) (hd : (b.definitionsAt q).exit.testBit d = true) :
    (b.definitionsAt p).entry.testBit d = true := by
  rw [settledAt_definitions h.lt.2]
  refine testBit_entry_definitionFlow.2 ?_
  obtain h | h := h
  · exact .inl ⟨q, h, hd⟩
  · exact .inr ⟨q, h, .inr hd⟩

theorem definitionsAt_of_keeps (hx : b.Defines d x) (h : b.Keeps x q p)
    (hd : (b.definitionsAt q).entry.testBit d = true) :
    (b.definitionsAt p).entry.testBit d = true := by
  have hlt := h.leads.lt.1
  obtain ⟨hq, hnot⟩ | hq := id h
  · refine definitionsAt_of_leads (.inl hq) ?_
    rw [settledAt_definitions hlt] at hd ⊢
    refine testBit_exit_definitionFlow.2 (.inl ⟨hd, hlt, hx.lt, fun y hy hdy ↦ hnot ?_⟩)
    obtain rfl : x = y := Option.some.inj (hx.symm.trans hdy)
    exact hy
  · rw [settledAt_definitions h.leads.lt.2]
    exact testBit_entry_definitionFlow.2 (.inr ⟨q, hq, .inl hd⟩)

theorem testBit_definitionsAt : (b.definitionsAt p).entry.testBit d = true ↔ b.Arrives d p := by
  refine ⟨(arrives_of_definitions p).1 d, fun h ↦ ?_⟩
  obtain ⟨x, hd, q, hlead, hpath⟩ := h
  -- from the definition on: it holds where control comes from it, and each step keeps it
  induction hpath with
  | refl => exact definitionsAt_of_leads hlead hd.definitionsAt
  | tail _ hstep ih => exact definitionsAt_of_keeps hd hstep ih

theorem settledAt_unassigned (hp : p < b.size) :
    b.unassignedAt p = b.assignmentFlow.derive b.unassignedAt p := by
  rw [← size_flowGraph] at hp
  exact DataFlow.settledAt_solve (informs_of_forward rfl rfl rfl)
    (fun q hq ↦ List.mem_range.2 hq) p hp

theorem testBit_entry_assignmentFlow {k : Nat → Facts} :
    (b.assignmentFlow.derive k p).entry.testBit i = true ↔
      p = 0 ∧ i < b.mentioned.eraseDups.length ∨
        (∃ q, p ∈ b.flowGraph.succs q ∧ (k q).exit.testBit i = true) ∨
          ∃ q, p ∈ b.flowGraph.catches q ∧
            ((k q).entry.testBit i = true ∨ (k q).exit.testBit i = true) := by
  refine Facts.testBit_entry_forward.trans ?_
  simp only [FactSet.testBit_ofList, List.mem_range, mem_predTable, mem_throwerTable]

theorem testBit_exit_assignmentFlow {k : Nat → Facts} (hx : b.mentioned.eraseDups[i]? = some x) :
    (b.assignmentFlow.derive k p).exit.testBit i = true ↔
      (b.assignmentFlow.derive k p).entry.testBit i = true ∧ p < b.size ∧ ¬ b.Defines p x := by
  have hlt : i < b.mentioned.eraseDups.length := (List.getElem?_eq_some_iff.1 hx).1
  refine (Facts.testBit_exit_forward.trans (or_iff_left (by simp))).trans
    (and_congr_right fun _ ↦ ?_)
  rw [FactSet.testBit_table, size_flowGraph, List.mem_filter, List.mem_range, getD_defined, hx,
    and_iff_right hlt, bne_iff_ne, ne_comm]
  exact Iff.rfl

theorem keeps_of_unassigned (hx : b.mentioned.eraseDups[i]? = some x) (p : Nat) :
    ((b.unassignedAt p).entry.testBit i = true → Relation.ReflTransGen (b.Keeps x) 0 p) ∧
      ((b.unassignedAt p).exit.testBit i = true →
        Relation.ReflTransGen (b.Keeps x) 0 p ∧ ¬ b.Defines p x) := by
  refine DataFlow.forall_solve (P := fun p r ↦
    (r.entry.testBit i = true → Relation.ReflTransGen (b.Keeps x) 0 p) ∧
      (r.exit.testBit i = true → Relation.ReflTransGen (b.Keeps x) 0 p ∧ ¬ b.Defines p x))
    (fun p ↦ by simp) (fun k hk p ↦ ?_) p
  have hentry : (b.assignmentFlow.derive k p).entry.testBit i = true →
      Relation.ReflTransGen (b.Keeps x) 0 p := by
    intro hi
    obtain ⟨rfl, -⟩ | ⟨q, hq, hi⟩ | ⟨q, hq, hi⟩ := testBit_entry_assignmentFlow.1 hi
    · exact .refl
    · obtain ⟨hpath, hnot⟩ := (hk q).2 hi
      exact hpath.tail (.inl ⟨hq, hnot⟩)
    · have hpath := hi.elim (hk q).1 fun hi ↦ ((hk q).2 hi).1
      exact hpath.tail (.inr hq)
  refine ⟨hentry, fun hi ↦ ?_⟩
  obtain ⟨hi, -, hnot⟩ := (testBit_exit_assignmentFlow hx).1 hi
  exact ⟨hentry hi, hnot⟩

theorem unassignedAt_of_keeps (hx : b.mentioned.eraseDups[i]? = some x) (h : b.Keeps x q p)
    (hi : (b.unassignedAt q).entry.testBit i = true) :
    (b.unassignedAt p).entry.testBit i = true := by
  have hlt := h.leads.lt
  rw [settledAt_unassigned hlt.2]
  refine testBit_entry_assignmentFlow.2 (.inr ?_)
  obtain ⟨hq, hnot⟩ | hq := h
  · refine .inl ⟨q, hq, ?_⟩
    rw [settledAt_unassigned hlt.1] at hi ⊢
    exact (testBit_exit_assignmentFlow hx).2 ⟨hi, hlt.1, hnot⟩
  · exact .inr ⟨q, hq, .inl hi⟩

theorem testBit_unassignedAt (hx : b.mentioned.eraseDups[i]? = some x) (hpos : 0 < b.size) :
    (b.unassignedAt p).entry.testBit i = true ↔ Relation.ReflTransGen (b.Keeps x) 0 p := by
  refine ⟨(keeps_of_unassigned hx p).1, fun hpath ↦ ?_⟩
  induction hpath with
  | refl =>
    rw [settledAt_unassigned hpos]
    exact testBit_entry_assignmentFlow.2 (.inl ⟨rfl, (List.getElem?_eq_some_iff.1 hx).1⟩)
  | tail _ hstep ih => exact unassignedAt_of_keeps hx hstep ih

theorem informs_livenessFlow (b : Body) : b.livenessFlow.Informs := by
  intro k l p q hne h
  have hsame : ∀ r, r ∈ b.flowGraph.succs p ∨ r ∈ b.flowGraph.catches p →
      (k r).entry = (l r).entry := by
    intro r hr
    by_cases he : r = q
    · subst he
      have hreads : p ∈ b.flowGraph.predTable.getD r [] ++ b.flowGraph.throwerTable.getD r [] :=
        List.mem_append.2 (hr.imp mem_predTable.2 mem_throwerTable.2)
      simpa [livenessFlow, FlowGraph.livenessFlow] using h hreads
    · rw [hne r he]
  have hsuccs : (b.flowGraph.normal.getD p []).map (fun q ↦ (k q).entry) =
      (b.flowGraph.normal.getD p []).map fun q ↦ (l q).entry :=
    List.map_congr_left fun r hr ↦ hsame r (.inl hr)
  have hcatches : (b.flowGraph.exceptional.getD p []).map (fun q ↦ (k q).entry) =
      (b.flowGraph.exceptional.getD p []).map fun q ↦ (l q).entry :=
    List.map_congr_left fun r hr ↦ hsame r (.inr hr)
  simp only [livenessFlow, FlowGraph.livenessFlow, Facts.backward, hsuccs, hcatches]

theorem settledAt_live (hp : p < b.size) : b.liveAt p = b.livenessFlow.derive b.liveAt p := by
  rw [← size_flowGraph] at hp
  exact DataFlow.settledAt_solve (informs_livenessFlow b)
    (fun q hq ↦ List.mem_reverse.2 (List.mem_range.2 hq)) p hp

theorem mem_getD_uses : x ∈ (b.units.map fun u ↦ u.stmt.uses).getD p [] ↔ b.Reads p x := by
  rw [List.getD_eq_getElem?_getD, List.getElem?_map, Reads, stmtAt?]
  cases b.units[p]? <;> simp

theorem testBit_entry_livenessFlow {k : Nat → Facts} (hx : b.mentioned.eraseDups[i]? = some x) :
    (b.livenessFlow.derive k p).entry.testBit i = true ↔
      (∃ q, b.Keeps x p q ∧ (k q).entry.testBit i = true) ∨ b.Reads p x := by
  have hlt : i < b.mentioned.eraseDups.length := (List.getElem?_eq_some_iff.1 hx).1
  refine Facts.testBit_entry_backward.trans ?_
  rw [FactSet.testBit_table, FactSet.testBit_table, size_flowGraph, List.mem_filter,
    List.mem_filter, List.mem_range, getD_defined, hx, and_iff_right hlt, and_iff_right hlt,
    bne_iff_ne, ne_comm, Option.any_some, List.contains_iff_mem, mem_getD_uses]
  constructor
  · intro h
    obtain ⟨⟨q, hq, hi⟩, -, hnot⟩ | ⟨-, hread⟩ | ⟨q, hq, hi⟩ := h
    · exact .inl ⟨q, .inl ⟨hq, hnot⟩, hi⟩
    · exact .inr hread
    · exact .inl ⟨q, .inr hq, hi⟩
  · intro h
    obtain ⟨q, ⟨hq, hnot⟩ | hq, hi⟩ | hread := h
    · exact .inl ⟨⟨q, hq, hi⟩, (Leads.lt (.inl hq)).1, hnot⟩
    · exact .inr (.inr ⟨q, hq, hi⟩)
    · exact .inr (.inl ⟨hread.lt, hread⟩)

theorem testBit_exit_livenessFlow {k : Nat → Facts} :
    (b.livenessFlow.derive k p).exit.testBit i = true ↔
      ∃ q, b.Leads p q ∧ (k q).entry.testBit i = true := by
  refine Facts.testBit_exit_backward.trans ⟨?_, ?_⟩
  · intro h
    obtain ⟨q, hq, hi⟩ | ⟨q, hq, hi⟩ := h
    · exact ⟨q, .inl hq, hi⟩
    · exact ⟨q, .inr hq, hi⟩
  · intro h
    obtain ⟨q, hq | hq, hi⟩ := h
    · exact .inl ⟨q, hq, hi⟩
    · exact .inr ⟨q, hq, hi⟩

theorem reads_of_live (hx : b.mentioned.eraseDups[i]? = some x) (p : Nat) :
    (b.liveAt p).entry.testBit i = true →
      ∃ q, b.Reads q x ∧ Relation.ReflTransGen (b.Keeps x) p q := by
  refine DataFlow.forall_solve (P := fun p r ↦ r.entry.testBit i = true →
    ∃ q, b.Reads q x ∧ Relation.ReflTransGen (b.Keeps x) p q) (fun p ↦ by simp) (fun k hk p hi ↦ ?_) p
  obtain ⟨q, hkeep, hi⟩ | hread := (testBit_entry_livenessFlow hx).1 hi
  · obtain ⟨r, hr, hpath⟩ := hk q hi
    exact ⟨r, hr, .head hkeep hpath⟩
  · exact ⟨p, hread, .refl⟩

theorem testBit_entry_liveAt (hx : b.mentioned.eraseDups[i]? = some x) :
    (b.liveAt p).entry.testBit i = true ↔
      ∃ q, b.Reads q x ∧ Relation.ReflTransGen (b.Keeps x) p q := by
  refine ⟨reads_of_live hx p, fun h ↦ ?_⟩
  obtain ⟨q, hread, hpath⟩ := h
  -- from the read back
  induction hpath using Relation.ReflTransGen.head_induction_on with
  | refl =>
    rw [settledAt_live hread.lt]
    exact (testBit_entry_livenessFlow hx).2 (.inr hread)
  | head hkeep _ ih =>
    rw [settledAt_live hkeep.leads.lt.1]
    exact (testBit_entry_livenessFlow hx).2 (.inl ⟨_, hkeep, ih⟩)

theorem testBit_exit_liveAt : (b.liveAt p).exit.testBit i = true ↔
    ∃ q, b.Leads p q ∧ (b.liveAt q).entry.testBit i = true := by
  by_cases hp : p < b.size
  · rw [settledAt_live hp]
    exact testBit_exit_livenessFlow
  · have hempty : b.liveAt p = {} := by
      rw [Nat.not_lt, ← size_flowGraph] at hp
      exact DataFlow.factsAt_solve_of_le hp
    rw [hempty]
    exact iff_of_false (by simp) fun ⟨q, hq, _⟩ ↦ hp hq.lt.1

end Body

end ThreeAddress
