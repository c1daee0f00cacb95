import ThreeAddress.Proofs.Flow.Solutions

namespace ThreeAddress

namespace Body

variable {b : Body} {x : LocalId} {d p q : Nat} {u : CodeUnit}

theorem mem_readersOf : p ∈ b.reaching.readersOf x ↔ b.Reads p x := by
  have hread : b.reaching.reads p x = true ↔ b.Reads p x := by
    simp only [Reaching.reads, reaching, List.getD_eq_getElem?_getD, List.getElem?_map, Reads,
      stmtAt?]
    cases b.units[p]? <;> simp
  have hpos : p ∈ b.reaching.graph.positions ↔ p < b.size := mem_positions
  rw [Reaching.readersOf, List.mem_filter, hpos, hread, and_iff_right_of_imp Reads.lt]

theorem reaches_iff_arrives : b.reaching.reaches d q = true ↔ b.Arrives d q := by
  rw [Reaching.reaches, List.contains_iff_mem]
  refine (FactSet.mem_getD_pick Facts.entry rfl).trans ?_
  constructor
  · intro h
    obtain ⟨i, hi, hbit⟩ := h
    have harr : b.Arrives i q := testBit_definitionsAt.1 hbit
    obtain ⟨x, hx, -⟩ := id harr
    obtain rfl : i = d := Option.some.inj ((getElem?_positions hx.lt).symm.trans hi)
    exact harr
  · intro h
    obtain ⟨x, hx, -⟩ := id h
    exact ⟨d, getElem?_positions hx.lt, testBit_definitionsAt.2 h⟩

theorem reaches_iff (hd : (b.stmtAt? d).bind Stmt.def? = some x) :
    b.reaching.reaches d q = true ↔
      ∃ p, b.Leads d p ∧ Relation.ReflTransGen (b.Keeps x) p q := by
  rw [reaches_iff_arrives]
  constructor
  · intro h
    obtain ⟨y, hy, h⟩ := h
    obtain rfl : x = y := Option.some.inj (hd.symm.trans hy)
    exact h
  · exact fun h ↦ ⟨x, hd, h⟩

theorem mem_definitionsOf : p ∈ b.reaching.definitionsOf x ↔ b.Defines p x := by
  have hdef : b.reaching.defines p x = true ↔ b.Defines p x := by
    rw [Reaching.defines, beq_iff_eq, Defines, ← b.getD_defined p]
    exact Iff.rfl
  have hpos : p ∈ b.reaching.graph.positions ↔ p < b.size := mem_positions
  rw [Reaching.definitionsOf, List.mem_filter, hpos, hdef, and_iff_right_of_imp Defines.lt]

theorem mem_reachingDefinitions : d ∈ b.reaching.reachingDefinitions x q ↔
    b.Defines d x ∧ ∃ p, b.Leads d p ∧ Relation.ReflTransGen (b.Keeps x) p q := by
  rw [Reaching.reachingDefinitions, List.mem_filter, mem_definitionsOf]
  exact and_congr_right reaches_iff

theorem mayBeUnassigned_iff : b.reaching.mayBeUnassigned x p = true ↔
    x ∈ b.mentioned ∧ 0 < b.size ∧ Relation.ReflTransGen (b.Keeps x) 0 p := by
  rw [Reaching.mayBeUnassigned, List.contains_iff_mem]
  refine (FactSet.mem_getD_pick Facts.entry rfl).trans ?_
  constructor
  · intro h
    obtain ⟨i, hi, hbit⟩ := h
    have hx : x ∈ b.mentioned := List.mem_eraseDups.1 (List.mem_of_getElem? hi)
    have hpos := size_pos_of_mentioned hx
    exact ⟨hx, hpos, (testBit_unassignedAt hi hpos).1 hbit⟩
  · intro h
    obtain ⟨hx, hpos, hpath⟩ := h
    obtain ⟨i, hi⟩ := List.getElem?_of_mem (List.mem_eraseDups.2 hx)
    exact ⟨i, hi, (testBit_unassignedAt hi hpos).2 hpath⟩

theorem mem_liveIn : x ∈ b.liveness.liveIn p ↔
    ∃ q, b.Reads q x ∧ Relation.ReflTransGen (b.Keeps x) p q := by
  refine (FactSet.mem_getD_pick Facts.entry rfl).trans ?_
  constructor
  · intro h
    obtain ⟨i, hi, hbit⟩ := h
    exact (testBit_entry_liveAt hi).1 hbit
  · intro h
    obtain ⟨q, hread, -⟩ := id h
    obtain ⟨i, hi⟩ := List.getElem?_of_mem (List.mem_eraseDups.2 hread.mentioned)
    exact ⟨i, hi, (testBit_entry_liveAt hi).2 h⟩

theorem mem_liveOut : x ∈ b.liveness.liveOut p ↔
    ∃ q, b.Leads p q ∧ ∃ r, b.Reads r x ∧ Relation.ReflTransGen (b.Keeps x) q r := by
  simp only [← mem_liveIn]
  refine (FactSet.mem_getD_pick Facts.exit rfl).trans ?_
  constructor
  · intro h
    obtain ⟨i, hi, hbit⟩ := h
    obtain ⟨q, hlead, hbit⟩ := testBit_exit_liveAt.1 hbit
    exact ⟨q, hlead, mem_liveIn.2 ((testBit_entry_liveAt hi).1 hbit)⟩
  · intro h
    obtain ⟨q, hlead, hlive⟩ := h
    obtain ⟨r, hread, hpath⟩ := mem_liveIn.1 hlive
    obtain ⟨i, hi⟩ := List.getElem?_of_mem (List.mem_eraseDups.2 hread.mentioned)
    exact ⟨i, hi, testBit_exit_liveAt.2 ⟨q, hlead, (testBit_entry_liveAt hi).2 ⟨r, hread, hpath⟩⟩⟩

theorem liveIn_of_keeps (hk : b.Keeps x p q) (hx : x ∈ b.liveness.liveIn q) :
    x ∈ b.liveness.liveIn p := by
  obtain ⟨r, hr, hpath⟩ := mem_liveIn.1 hx
  exact mem_liveIn.2 ⟨r, hr, .head hk hpath⟩

theorem liveOut_of_leads (hl : b.Leads p q) (hx : x ∈ b.liveness.liveIn q) :
    x ∈ b.liveness.liveOut p := by
  obtain ⟨r, hr, hpath⟩ := mem_liveIn.1 hx
  exact mem_liveOut.2 ⟨q, hl, r, hr, hpath⟩

theorem isUnused_iff (hd : (b.stmtAt? d).bind Stmt.def? = some x) :
    b.reaching.isUnused d = true ↔ ∀ q, b.Reads q x → b.reaching.reaches d q = false := by
  have hdef : b.reaching.defined.getD d none = some x := (b.getD_defined d).trans hd
  simp only [Reaching.isUnused, Reaching.reachedReaders, hdef, List.isEmpty_iff,
    List.filter_eq_nil_iff, mem_readersOf, Bool.not_eq_true]

/-- The paths from the definition to the reads are those by which the local is live. -/
theorem isUnused_iff_not_live (hd : (b.stmtAt? d).bind Stmt.def? = some x) :
    b.reaching.isUnused d = true ↔ ∀ q, b.Leads d q → x ∉ b.liveness.liveIn q := by
  simp only [isUnused_iff hd, ← Bool.not_eq_true, reaches_iff hd, mem_liveIn, not_exists, not_and]
  -- one search starts at the definition, the other at the reads
  exact ⟨fun h q hq r hr ↦ h r hr q hq, fun h r hr q hq ↦ h q hq r hr⟩

/-- The analyses agree: a definition is unused exactly if its local is not live behind it, and the
locals live on entry are those that may be unassigned where they are read. -/
theorem reaching_agrees_liveness (b : Body) :
    (∀ d u x, b.units[d]? = some u → u.stmt.def? = some x →
      (b.reaching.isUnused d = true ↔ x ∉ b.liveness.liveOut d)) ∧
    ∀ x, x ∈ b.liveness.liveIn 0 ↔ ∃ p u, b.units[p]? = some u ∧ x ∈ u.stmt.uses ∧
      b.reaching.mayBeUnassigned x p = true := by
  constructor
  · intro d u x hu hx
    have hd : (b.stmtAt? d).bind Stmt.def? = some x := by
      rw [stmtAt?_of_unit hu, Option.bind_some, hx]
    rw [isUnused_iff_not_live hd, mem_liveOut]
    simp only [← mem_liveIn, not_exists, not_and]
  · intro x
    rw [mem_liveIn]
    constructor
    · intro h
      obtain ⟨q, hq, hpath⟩ := h
      have hun := mayBeUnassigned_iff.2 ⟨hq.mentioned, Nat.zero_lt_of_lt hq.lt, hpath⟩
      obtain ⟨s, hs, hx⟩ := hq
      obtain ⟨u, hu, rfl⟩ := unit_of_stmtAt? hs
      exact ⟨q, u, hu, hx, hun⟩
    · intro h
      obtain ⟨q, u, hu, hx, hun⟩ := h
      exact ⟨q, ⟨u.stmt, stmtAt?_of_unit hu, hx⟩, (mayBeUnassigned_iff.1 hun).2.2⟩

def guardedDivision : Body where
  locals := [⟨⟨0⟩, "n", .int⟩, ⟨⟨1⟩, "q", .int⟩]
  units :=
    [⟨⟨0⟩, .identity ⟨0⟩ (.parameter 0)⟩,
      ⟨⟨1⟩, .assign (.var ⟨1⟩) (.binary .div (.const (.int 1)) (.var ⟨0⟩))⟩,
      ⟨⟨2⟩, .ret (some (.var ⟨0⟩))⟩,
      ⟨⟨3⟩, .ret (some (.var ⟨1⟩))⟩]
  traps := [⟨⟨1⟩, ⟨2⟩, ⟨3⟩, .object "E"⟩]
  nextUnit := 4

/-- The quotient is live at the entry, since the exceptional edge leads to its read with no
definition on the way. -/
theorem reaching_agrees_liveness_guardedDivision :
    guardedDivision.reaching.isUnused 1 = false ∧ ⟨1⟩ ∈ guardedDivision.liveness.liveOut 1 ∧
    ⟨1⟩ ∈ guardedDivision.liveness.liveIn 0 ∧ ∃ p u, guardedDivision.units[p]? = some u ∧
      ⟨1⟩ ∈ u.stmt.uses ∧ guardedDivision.reaching.mayBeUnassigned ⟨1⟩ p = true := by
  obtain ⟨hunused, hlive⟩ := reaching_agrees_liveness guardedDivision
  have hread : guardedDivision.Reads 3 ⟨1⟩ := ⟨_, rfl, by decide⟩
  have hcatch : 3 ∈ guardedDivision.flowGraph.catches 1 := by decide
  have hentry : guardedDivision.Keeps ⟨1⟩ 0 1 := .inl (by decide)
  have hout : ⟨1⟩ ∈ guardedDivision.liveness.liveOut 1 :=
    mem_liveOut.2 ⟨3, .inr hcatch, 3, hread, .refl⟩
  have hin : ⟨1⟩ ∈ guardedDivision.liveness.liveIn 0 :=
    mem_liveIn.2 ⟨3, hread, .head hentry (.single (.inr hcatch))⟩
  exact ⟨Bool.eq_false_iff.2 fun h ↦ (hunused 1 _ ⟨1⟩ rfl rfl).1 h hout, hout, hin,
    (hlive ⟨1⟩).1 hin⟩

end Body

end ThreeAddress
