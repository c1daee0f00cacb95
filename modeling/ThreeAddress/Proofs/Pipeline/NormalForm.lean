import ThreeAddress.Proofs.Pass.PendingComparisons
import ThreeAddress.Proofs.Pipeline.Runs

namespace ThreeAddress

namespace Body

variable {gone : CodeUnit → Prop} {b c : Body}

def Spared (b : Body) : Prop := ∀ u ∈ b.units, ∀ place c, u.stmt ≠ .assign place (.compare c)

/-- The table declares exactly the locals that some unit mentions. -/
def Trim (b : Body) : Prop :=
  ∀ x, x ∈ b.locals.map (·.id) ↔ ∃ u ∈ b.units, x ∈ u.stmt.locals

/-- The part of the normal form that holds once unused locals have gone for the last time. -/
structure Settled (b : Body) : Prop where
  spared : b.Spared
  self_copies : b.OnlyLast Stmt.IsSelfCopy
  trim : b.Trim

/-- The normal form: moreover no goto goes to the unit after it, no unit but the last one is empty,
and no two locals share a name. -/
structure Normal (b : Body) : Prop extends Settled b where
  nops : b.OnlyLast (· = .nop)
  gotos : ∀ p next, b.stmtAt? p = some (.goto next) → b.ids[p + 1]? ≠ some next
  names : (b.locals.map (·.name)).Nodup

theorem Settled.relabel (hb : b.Settled) (hu : c.units = b.units)
    (hl : c.locals.map (·.id) = b.locals.map (·.id)) : c.Settled where
  spared := by
    rw [Spared, hu]
    exact hb.spared
  self_copies := by
    rw [OnlyLast, size, hu]
    exact hb.self_copies
  trim := by
    rw [Trim, hl, hu]
    exact hb.trim

theorem goto_of_isGotoNext (h : ∀ p, b.isGotoNext p = false) (p : Nat) (next : UnitId)
    (hs : b.stmtAt? p = some (.goto next)) : b.ids[p + 1]? ≠ some next := by
  intro hn
  rw [getElem?_ids] at hn
  obtain ⟨u, hu, hs⟩ := Option.map_eq_some_iff.1 hs
  obtain ⟨w, hw, rfl⟩ := Option.map_eq_some_iff.1 hn
  have hg := isGotoNext_iff.2 ⟨u, w, hu, hw, hs⟩
  simp [h p] at hg

namespace Thinned

theorem spared (h : Thinned gone b c) (hb : b.Spared) : c.Spared := by
  refine h.forall_units (P := fun s ↦ ∀ place c, s ≠ .assign place (.compare c)) ?_ ?_ hb
  · intro s hi place c he
    subst he
    simp [Stmt.isInert] at hi
  · intro s f hs place c he
    exact hs place c (by simpa using he)

theorem self_copies (h : Thinned gone b c) (hn : b.ids.Nodup)
    (hb : b.OnlyLast Stmt.IsSelfCopy) : c.OnlyLast Stmt.IsSelfCopy := by
  refine h.onlyLast hn ?_ ?_ hb
  · intro s hs
    obtain ⟨x, rfl⟩ := hs
    rfl
  · intro s f hs
    obtain ⟨x, hx⟩ := hs
    exact ⟨x, by simpa using hx⟩

theorem trim (h : Thinned gone b c) (hg : ∀ v, gone v → v.stmt.locals = []) (hb : b.Trim) :
    c.Trim := by
  intro x
  rw [h.locals, hb x]
  constructor
  · intro hx
    obtain ⟨v, hv, hx⟩ := hx
    have hstays : ¬ gone v := by
      intro hgone
      simp [hg v hgone] at hx
    obtain ⟨f, hf⟩ := h.kept v hv hstays
    exact ⟨_, hf, by simpa using hx⟩
  · intro hx
    obtain ⟨w, hw, hx⟩ := hx
    obtain hi | ⟨v, hv, f, rfl⟩ := h.origin w hw
    · simp [Stmt.locals_of_isInert hi] at hx
    · exact ⟨v, hv, by simpa using hx⟩

theorem settled (h : Thinned gone b c) (hn : b.ids.Nodup)
    (hg : ∀ v, gone v → v.stmt.locals = []) (hb : b.Settled) : c.Settled :=
  ⟨h.spared hb.spared, h.self_copies hn hb.self_copies, h.trim hg hb.trim⟩

end Thinned

end Body

namespace Pipeline

variable {m : Signature} {b c : Body}

/-- The stages from the expansion of comparisons to the last removal of unused locals. -/
theorem Completes.settled (hv : b.Valid) (h : Completes m
    [.storedComparisons, .deadAllocations, .deadAssignments, .unusedLocals] b c) : c.Settled := by
  obtain ⟨hok, hv₁, h⟩ := h.uncons
  obtain ⟨changed, hok⟩ := hok
  have hspared₁ : (Pass.storedComparisons.run m b).body.Spared := by
    intro w hw place c he
    have hnone := StoredComparisons.spared_run hv.nodup hok w hw
    simp [he, StoredComparisons.comparison?] at hnone
  obtain ⟨-, hv₂, h⟩ := h.uncons
  have hspared₂ := (Pass.deadAllocations_cleans.thinned m hv₁.nodup).spared hspared₁
  obtain ⟨-, hv₃, h⟩ := h.uncons
  have hspared₃ := (Pass.deadAssignments_cleans.thinned m hv₂.nodup).spared hspared₂
  have hcopies₃ := DeadAssignments.selfCopies_revise hv₂.nodup
  obtain ⟨-, -, h⟩ := h.uncons
  cases h
  refine ⟨hspared₃, hcopies₃, ?_⟩
  intro x
  exact (UnusedLocals.declared_revise hv₃).trans Body.mem_mentioned

theorem Completes.normal (hv : b.Valid) (hb : b.Settled) (h : Completes m
    [.constantBranches, .jumpThreading, .nops, .localNames] b c) : c.Normal := by
  have hinert : ∀ v : CodeUnit, v.stmt.isInert = true → v.stmt.locals = [] :=
    fun _ ↦ Stmt.locals_of_isInert
  obtain ⟨-, hv₁, h⟩ := h.uncons
  have hs₁ := (Pass.constantBranches_cleans.thinned m hv.nodup).settled hv.nodup
    (fun _ ↦ ConstantBranches.locals_of_decided) hb
  obtain ⟨-, hv₂, h⟩ := h.uncons
  have hs₂ := (JumpThreading.thinned_revise hv₁.nodup).settled hv₁.nodup hinert hs₁
  obtain ⟨-, hv₃, h⟩ := h.uncons
  have hs₃ := (Pass.nops_cleans.thinned m hv₂.nodup).settled hv₂.nodup hinert hs₂
  obtain ⟨hnops, hgotos⟩ := Nops.idle_revise hv₂.nodup
  obtain ⟨-, -, h⟩ := h.uncons
  cases h
  have hs₄ := hs₃.relabel (c := (LocalNames.revise (Nops.revise _).body).body) rfl
    (LocalNames.ids_revise _)
  exact ⟨hs₄, hnops, Body.goto_of_isGotoNext hgotos, LocalNames.nodup_revise _⟩

/-- Whatever body the standard pipeline succeeds on, it leaves one in normal form. -/
theorem standard_normal (m : Signature) {b : Body} {changed : Bool}
    (hok : (standard.run m b).result = .ok changed) : (standard.run m b).body.Normal := by
  have h : Completes m standard.passes b (standard.run m b).body := completes_of_ok false hok
  obtain ⟨-, hv₁, h⟩ := h.uncons
  obtain ⟨c, hc, h⟩ := Completes.split ((standard.passes.drop 1).take 14) h
  have hvc := hc.valid hv₁
  obtain ⟨d, hd, h⟩ := Completes.split
    [.storedComparisons, .deadAllocations, .deadAssignments, .unusedLocals] h
  exact h.normal (hd.valid hvc) (hd.settled hvc)

theorem standard_normal_countdown :
    (standard.run countdown countdownBody).result = .ok true ∧
      (standard.run countdown countdownBody).body.Normal :=
  ⟨standard_countdown, standard_normal countdown standard_countdown⟩

end Pipeline

end ThreeAddress
