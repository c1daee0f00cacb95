import ThreeAddress.Proofs.Flow.Paths

namespace ThreeAddress

namespace Body

variable {b : Body} {x : LocalId} {d p : Nat}

theorem reaching_reached (b : Body) : b.reaching.reached =
    (b.definitionFlow.solve b.flowGraph.positions).map fun r ↦
      FactSet.pick r.entry b.flowGraph.positions := rfl

theorem reaching_unassigned (b : Body) : b.reaching.unassigned =
    (b.assignmentFlow.solve b.flowGraph.positions).map fun r ↦
      FactSet.pick r.entry b.mentioned.eraseDups := rfl

theorem liveness_entry (b : Body) : b.liveness.entry =
    (b.livenessFlow.solve b.flowGraph.positions.reverse).map fun r ↦
      FactSet.pick r.entry b.mentioned.eraseDups := rfl

theorem liveness_exit (b : Body) : b.liveness.exit =
    (b.livenessFlow.solve b.flowGraph.positions.reverse).map fun r ↦
      FactSet.pick r.exit b.mentioned.eraseDups := rfl

theorem getD_reaching_defined (b : Body) (d : Nat) :
    b.reaching.defined.getD d none = (b.stmtAt? d).bind Stmt.def? := b.getD_defined d

theorem mem_reachedReaders : p ∈ b.reaching.reachedReaders d ↔
    ∃ x, b.Defines d x ∧ b.Reads p x ∧ d ∈ b.reaching.reachingDefinitions x p := by
  rw [Reaching.reachedReaders, getD_reaching_defined]
  cases hd : (b.stmtAt? d).bind Stmt.def? with
  | none =>
    have hnone : ∀ x, ¬ b.Defines d x := by
      simp [Defines, hd]
    simp [hnone]
  | some y =>
    have hdef : ∀ x, b.Defines d x ↔ y = x := by
      simp [Defines, hd]
    have hreach : b.reaching.reaches d p = true ↔ d ∈ b.reaching.reachingDefinitions y p := by
      rw [reaches_iff hd, mem_reachingDefinitions, hdef, and_iff_right rfl]
    simp [hdef, List.mem_filter, mem_readersOf, hreach]

/-- The loops behind the index end, a definition of `x` is listed as reaching `p` if and only if a
path of at least one step leads from it to `p` whose units in between do not define `x` or are left
by an exceptional edge, and the readers of a definition are the units that it reaches and that read
its local. -/
theorem reaching_exact (b : Body) :
    (∃ rows, b.definitionFlow.Ends b.flowGraph.positions rows ∧
      b.reaching.reached = rows.map fun r ↦ FactSet.pick r.entry b.flowGraph.positions) ∧
    (∃ rows, b.assignmentFlow.Ends b.flowGraph.positions rows ∧
      b.reaching.unassigned = rows.map fun r ↦ FactSet.pick r.entry b.mentioned.eraseDups) ∧
    (∀ x d p, d ∈ b.reaching.reachingDefinitions x p ↔
      b.Defines d x ∧ ∃ q, b.Leads d q ∧ Relation.ReflTransGen (b.Keeps x) q p) ∧
    ∀ d p, p ∈ b.reaching.reachedReaders d ↔
      ∃ x, b.Defines d x ∧ b.Reads p x ∧ d ∈ b.reaching.reachingDefinitions x p := by
  refine ⟨⟨_, DataFlow.ends_solve _ _, reaching_reached b⟩,
    ⟨_, DataFlow.ends_solve _ _, reaching_unassigned b⟩, ?_, ?_⟩
  · intro x d p
    exact mem_reachingDefinitions
  · intro d p
    exact mem_reachedReaders

/-- A local that some unit mentions may be unassigned at `p` if and only if a path, possibly empty,
leads from the entry to `p` on which every unit that defines it is left by an exceptional edge. -/
theorem unassigned_exact (hx : ∃ u ∈ b.units, x ∈ u.stmt.locals) (p : Nat) :
    b.reaching.mayBeUnassigned x p = true ↔ Relation.ReflTransGen (b.Keeps x) 0 p := by
  have hmentioned : x ∈ b.mentioned := mem_mentioned.2 hx
  rw [mayBeUnassigned_iff, and_iff_right hmentioned]
  exact and_iff_right (size_pos_of_mentioned hmentioned)

/-- The handler reads the quotient, which the division has not assigned when it fails. -/
theorem unassigned_exact_guardedDivision :
    (∃ u ∈ guardedDivision.units, ⟨1⟩ ∈ u.stmt.locals) ∧
      guardedDivision.reaching.mayBeUnassigned ⟨1⟩ 3 = true ∧
      guardedDivision.reaching.mayBeUnassigned ⟨1⟩ 2 = false := by
  have hx : ∃ u ∈ guardedDivision.units, ⟨1⟩ ∈ u.stmt.locals := by decide
  have hentry : guardedDivision.Keeps ⟨1⟩ 0 1 := .inl (by decide)
  have hcatch : guardedDivision.Keeps ⟨1⟩ 1 3 := .inr (by decide)
  have hnone : ∀ q < 4, ¬ guardedDivision.Keeps ⟨1⟩ q 2 := by
    unfold Keeps
    decide
  refine ⟨hx, (unassigned_exact hx 3).2 (.head hentry (.single hcatch)), ?_⟩
  rw [← Bool.not_eq_true, unassigned_exact hx 2]
  intro hpath
  obtain he | ⟨q, -, hlast⟩ := hpath.cases_tail
  · exact absurd he (by decide)
  · exact hnone q hlast.leads.lt.1 hlast

/-- The loop behind the live locals ends. A local is live in front of `p` if and only if a path,
possibly empty, leads from `p` to a unit that reads it, on which every unit that defines it is left
by an exceptional edge. It is live behind `p` if and only if it is live in front of some unit that
may follow, normally or as a handler. -/
theorem liveness_exact (b : Body) :
    (∃ rows, b.livenessFlow.Ends b.flowGraph.positions.reverse rows ∧
      (b.liveness.entry = rows.map fun r ↦ FactSet.pick r.entry b.mentioned.eraseDups) ∧
      b.liveness.exit = rows.map fun r ↦ FactSet.pick r.exit b.mentioned.eraseDups) ∧
    (∀ x p, x ∈ b.liveness.liveIn p ↔
      ∃ q, b.Reads q x ∧ Relation.ReflTransGen (b.Keeps x) p q) ∧
    ∀ x p, x ∈ b.liveness.liveOut p ↔
      ∃ q, (q ∈ b.flowGraph.succs p ∨ q ∈ b.flowGraph.catches p) ∧ x ∈ b.liveness.liveIn q := by
  refine ⟨⟨_, DataFlow.ends_solve _ _, liveness_entry b, liveness_exit b⟩, ?_, ?_⟩
  · intro x p
    exact mem_liveIn
  · intro x p
    rw [mem_liveOut]
    simp only [← mem_liveIn, Leads]

end Body

end ThreeAddress
