import Mathlib.Logic.Function.Basic
import ThreeAddress.Proofs.Flow.Paths

namespace ThreeAddress

variable {V : Type}

def Stmt.copied? : Stmt → Option Value
  | assign (.var _) (.value v) => some v
  | _ => none

namespace Value

def eval (literal : Constant → V) (σ : LocalId → V) : Value → V
  | var x => σ x
  | const c => literal c

theorem eval_update {literal : Constant → V} {σ : LocalId → V} {v : Value} {x : LocalId} {w : V}
    (h : v ≠ .var x) : v.eval literal (Function.update σ x w) = v.eval literal σ := by
  cases v with
  | var y =>
    have hne : y ≠ x := fun he ↦ h (congrArg var he)
    exact Function.update_of_ne hne w σ
  | const c => rfl

end Value

namespace Body

variable {b : Body} {literal : Constant → V} {x y : LocalId} {x? : Option LocalId} {d e p q : Nat}
  {may : Option LocalId → Prop}

structure State (V : Type) where
  position : Nat
  store : LocalId → V

variable {c c' : State V} {σ : LocalId → V}

/-- One step of a run, marked with the local whose definition it completes. -/
inductive Step (b : Body) (literal : Constant → V) : Option LocalId → State V → State V → Prop
  | pass {p q : Nat} {σ : LocalId → V} : q ∈ b.flowGraph.succs p →
      (b.stmtAt? p).bind Stmt.def? = none → Step b literal none ⟨p, σ⟩ ⟨q, σ⟩
  | define {p q : Nat} {σ : LocalId → V} {s : Stmt} {x : LocalId} {w : V} :
      q ∈ b.flowGraph.succs p → b.stmtAt? p = some s → s.def? = some x →
      (∀ v, s.copied? = some v → w = v.eval literal σ) →
      Step b literal (some x) ⟨p, σ⟩ ⟨q, Function.update σ x w⟩
  | throw {p q : Nat} {σ : LocalId → V} : q ∈ b.flowGraph.catches p →
      Step b literal none ⟨p, σ⟩ ⟨q, σ⟩

/-- A run of which every step bears a mark that `may` admits. -/
def Runs (b : Body) (literal : Constant → V) (may : Option LocalId → Prop) :
    State V → State V → Prop :=
  Relation.ReflTransGen fun c c' ↦ ∃ x?, may x? ∧ b.Step literal x? c c'

/-- An edge that a step with such a mark takes. -/
def Moves (b : Body) (may : Option LocalId → Prop) (p q : Nat) : Prop :=
  q ∈ b.flowGraph.succs p ∧ may ((b.stmtAt? p).bind Stmt.def?) ∨ q ∈ b.flowGraph.catches p ∧ may none

/-- What `x` holds when the unit at `p` has completed, it may still hold at `q`. -/
def Survives (b : Body) (x : LocalId) (p q : Nat) : Prop :=
  ∃ r ∈ b.flowGraph.succs p, Relation.ReflTransGen (b.Keeps x) r q

theorem moves_true : b.Moves (fun _ ↦ True) = b.Leads := by
  funext p q
  simp [Moves, Leads]

theorem moves_ne : b.Moves (· ≠ some x) = b.Keeps x := by
  funext p q
  simp [Moves, Keeps]

theorem Survives.mem_reachingDefinitions (hd : b.Defines d x) (h : b.Survives x d q) :
    d ∈ b.reaching.reachingDefinitions x q := by
  obtain ⟨r, hr, hpath⟩ := h
  exact Body.mem_reachingDefinitions.2 ⟨hd, r, .inl hr, hpath⟩

namespace Step

theorem moves (h : b.Step literal x? c c') (hx : may x?) : b.Moves may c.position c'.position := by
  cases h with
  | pass hq hdef => exact .inl ⟨hq, by rwa [hdef]⟩
  | define hq hs hdef hw => exact .inl ⟨hq, by rwa [hs, Option.bind_some, hdef]⟩
  | throw hq => exact .inr ⟨hq, hx⟩

theorem store_eq (h : b.Step literal x? c c') (hx : x? ≠ some x) : c'.store x = c.store x := by
  cases h with
  | pass => rfl
  | define hq hs hdef hw =>
    have hne : x ≠ _ := fun he ↦ hx (congrArg some he.symm)
    exact Function.update_of_ne hne _ _
  | throw => rfl

theorem defines (h : b.Step literal (some x) c c') : b.Defines c.position x := by
  cases h with
  | define hq hs hdef hw => rw [Defines, hs, Option.bind_some, hdef]

theorem mem_succs (h : b.Step literal (some x) c c') :
    c'.position ∈ b.flowGraph.succs c.position := by
  cases h with
  | define hq hs hdef hw => exact hq

theorem store_of_copied {s : Stmt} {v : Value} (h : b.Step literal (some x) c c')
    (hs : b.stmtAt? c.position = some s) (hv : s.copied? = some v) (hne : v ≠ .var x) :
    c'.store x = v.eval literal c'.store := by
  cases h with
  | @define p q σ s' _ w hq hs' hdef hw =>
    obtain rfl := Option.some.inj (hs'.symm.trans hs)
    rw [Value.eval_update hne, ← hw v hv]
    exact Function.update_self x w σ

end Step

namespace Runs

theorem path (h : b.Runs literal may c c') :
    Relation.ReflTransGen (b.Moves may) c.position c'.position :=
  Relation.ReflTransGen.lift State.position (fun _ _ ⟨_, hx, hstep⟩ ↦ hstep.moves hx) _ _ h

theorem store_eq (h : b.Runs literal may c c') (hx : ¬ may (some x)) :
    c'.store x = c.store x := by
  induction h with
  | refl => rfl
  | tail _ hstep ih =>
    obtain ⟨x?, hmay, hstep⟩ := hstep
    have hne : x? ≠ some x := fun he ↦ hx (he ▸ hmay)
    exact (hstep.store_eq hne).trans ih

theorem mono {may' : Option LocalId → Prop} (h : b.Runs literal may c c')
    (himp : ∀ x?, may x? → may' x?) : b.Runs literal may' c c' :=
  Relation.ReflTransGen.mono (fun _ _ ⟨x?, hx, hstep⟩ ↦ ⟨x?, himp x? hx, hstep⟩) _ _ h

/-- A run completes no definition of `x`, or there is a last step in it that does. -/
theorem last_definition (h : b.Runs literal may c c') (x : LocalId) :
    b.Runs literal (fun x? ↦ may x? ∧ x? ≠ some x) c c' ∨
    ∃ c₁ c₂, b.Runs literal may c c₁ ∧ may (some x) ∧ b.Step literal (some x) c₁ c₂ ∧
      b.Runs literal (fun x? ↦ may x? ∧ x? ≠ some x) c₂ c' := by
  induction h with
  | refl => exact .inl .refl
  | @tail c₁ c₂ hrun hstep ih =>
    obtain ⟨x?, hmay, hstep⟩ := hstep
    by_cases hx : x? = some x
    · subst hx
      exact .inr ⟨c₁, c₂, hrun, hmay, hstep, .refl⟩
    · have hquiet : ∃ x?, (may x? ∧ x? ≠ some x) ∧ b.Step literal x? c₁ c₂ := ⟨x?, ⟨hmay, hx⟩, hstep⟩
      obtain ih | ⟨c₃, c₄, hbefore, hsome, hlast, hafter⟩ := ih
      · exact .inl (ih.tail hquiet)
      · exact .inr ⟨c₃, c₄, hbefore, hsome, hlast, hafter.tail hquiet⟩

theorem keeps (h : b.Runs literal may c c') (hx : ¬ may (some x)) :
    Relation.ReflTransGen (b.Keeps x) c.position c'.position := by
  have hquiet : b.Runs literal (· ≠ some x) c c' := h.mono fun x? hmay he ↦ hx (he ▸ hmay)
  simpa only [moves_ne] using hquiet.path

/-- What `x` holds behind a completed definition, of whatever local, is there at the end of a run
that defines `x` no more. -/
theorem survives {c'' : State V} (h : b.Runs literal may c' c'')
    (hstep : b.Step literal (some y) c c') (hx : ¬ may (some x)) :
    b.Survives x c.position c''.position :=
  ⟨c'.position, hstep.mem_succs, h.keeps hx⟩

end Runs

/-- No definition of `x` is a plain copy or a constant load, so each may store any value. -/
def StoresAnything (b : Body) (x : LocalId) : Prop :=
  ∀ p s, b.stmtAt? p = some s → s.def? = some x → s.copied? = none

theorem Moves.leads (h : b.Moves may p q) : b.Leads p q := h.imp And.left And.left

/-- Every edge can be taken, whatever the locals hold; where a definition on it may store anything,
it may store `w`. -/
theorem exists_step (h : b.Moves may p q) (literal : Constant → V) (σ : LocalId → V) (w : V) :
    ∃ x? τ, may x? ∧ b.Step literal x? ⟨p, σ⟩ ⟨q, τ⟩ ∧
      ∀ y, b.StoresAnything y → τ y = σ y ∨ τ y = w := by
  obtain ⟨u, hu⟩ := exists_unit_of_lt h.leads.lt.1
  have hs : b.stmtAt? p = some u.stmt := stmtAt?_of_unit hu
  obtain ⟨hq, hmay⟩ | ⟨hq, hmay⟩ := h
  · rw [hs, Option.bind_some] at hmay
    cases hdef : u.stmt.def? with
    | none =>
      exact ⟨none, σ, by rwa [hdef] at hmay, .pass hq (by rw [hs, Option.bind_some, hdef]),
        fun y _ ↦ .inl rfl⟩
    | some x =>
      let stored := (u.stmt.copied?.map (·.eval literal σ)).getD w
      have hstored : ∀ v, u.stmt.copied? = some v → stored = v.eval literal σ := by
        intro v hv
        simp [stored, hv]
      refine ⟨some x, Function.update σ x stored, by rwa [hdef] at hmay,
        .define hq hs hdef hstored, fun y hy ↦ ?_⟩
      by_cases hxy : y = x
      · subst hxy
        right
        rw [Function.update_self]
        simp [stored, hy p u.stmt hs hdef]
      · exact .inl (Function.update_of_ne hxy _ _)
  · exact ⟨none, σ, hmay, .throw hq, fun y _ ↦ .inl rfl⟩

theorem exists_runs (h : Relation.ReflTransGen (b.Moves may) p q) (literal : Constant → V)
    (σ : LocalId → V) (w : V) :
    ∃ τ, b.Runs literal may ⟨p, σ⟩ ⟨q, τ⟩ ∧ ∀ y, b.StoresAnything y → τ y = σ y ∨ τ y = w := by
  induction h with
  | refl => exact ⟨σ, .refl, fun y _ ↦ .inl rfl⟩
  | tail _ hmove ih =>
    obtain ⟨ρ, hrun, hρ⟩ := ih
    obtain ⟨x?, τ, hmay, hstep, hτ⟩ := exists_step hmove literal ρ w
    refine ⟨τ, hrun.tail ⟨x?, hmay, hstep⟩, fun y hy ↦ ?_⟩
    obtain hkept | hnew := hτ y hy
    · rw [hkept]
      exact hρ y hy
    · exact .inr hnew

/-- A definition of `y` that may store anything can part it from `x`, as long as `x` is not defined
again. -/
theorem exists_parting (hto : Relation.ReflTransGen b.Leads p e) (he : b.Defines e y)
    (hy : b.StoresAnything y) (hne : x ≠ y) (h : b.Survives x e q) (literal : Constant → Bool)
    (σ : LocalId → Bool) :
    ∃ τ, b.Runs literal (fun _ ↦ True) ⟨p, σ⟩ ⟨q, τ⟩ ∧ τ x ≠ τ y := by
  obtain ⟨r, hr, honwards⟩ := h
  rw [← moves_true] at hto
  rw [← moves_ne] at honwards
  obtain ⟨ρ, hbefore, -⟩ := exists_runs hto literal σ false
  obtain ⟨s, hs, hdef⟩ := Option.bind_eq_some_iff.1 he
  have hstep : b.Step literal (some y) ⟨e, ρ⟩ ⟨r, Function.update ρ y (!ρ x)⟩ :=
    .define hr hs hdef (by simp [hy e s hs hdef])
  obtain ⟨τ, hafter, hτ⟩ := exists_runs honwards literal (Function.update ρ y (!ρ x)) (!ρ x)
  have hx : τ x = ρ x := (hafter.store_eq (by simp)).trans (Function.update_of_ne hne _ _)
  have hy : τ y = !ρ x := by simpa using hτ y hy
  refine ⟨τ, (hbefore.tail ⟨some y, trivial, hstep⟩).trans (hafter.mono fun _ _ ↦ trivial), ?_⟩
  simp [hx, hy]

end Body

end ThreeAddress
