import Mathlib
import ThreeAddress.Proofs.Flow.Stores
import ThreeAddress.Proofs.Pass.CopyPropagation

namespace ThreeAddress

open Relation

namespace CopyPropagation

variable {b : Body} {t : Substitution} {d : Nat}

namespace Substitution

/-- On every run, the local and its source hold one value when control arrives at the unit. -/
def Agrees (b : Body) (t : Substitution) : Prop :=
  ∀ (V : Type) (literal : Constant → V) (σ τ : LocalId → V),
    b.Runs literal (fun _ ↦ True) ⟨0, σ⟩ ⟨t.position, τ⟩ → τ t.old = t.source.eval literal τ

/-- Control can come from the copy `d` over a definition `e` of its source to the unit, and from
`e` to the copy again. -/
def Overtaken (b : Body) (t : Substitution) : Prop :=
  ∃ y d e, t.source = .var y ∧ b.Defines d t.old ∧ b.Defines e y ∧ b.Survives t.old d e ∧
    b.Survives t.old e t.position ∧ ∃ q, b.Leads e q ∧ ReflTransGen (b.Keeps y) q d

theorem Overtaken.cyclic (h : t.Overtaken b) : ∃ d, b.Defines d t.old ∧ TransGen b.Leads d d := by
  obtain ⟨y, d, e, -, hd, -, ⟨q, hq, hforth⟩, -, r, hr, hback⟩ := h
  have hforth : TransGen b.Leads d e := .head' (.inl hq) (Body.leads_of_keeps hforth)
  exact ⟨d, hd, hforth.trans (.head' hr (Body.leads_of_keeps hback))⟩

end Substitution

/-- Control comes to the unit over the copy only, which is then the last definition of the local. -/
structure Copied (b : Body) (t : Substitution) (d : Nat) : Prop where
  stmt : b.stmtAt? d = some (.assign (.var t.old) (.value t.source))
  ne : t.source ≠ .var t.old
  assigned : ¬ ReflTransGen (b.Keeps t.old) 0 t.position
  only : ∀ e, b.Defines e t.old → b.Survives t.old e t.position → e = d
  same : ∀ y, t.source = .var y → b.reaching.reachingDefinitions y t.position =
    b.reaching.reachingDefinitions y d

theorem copied_of_mem (h : t ∈ substitutions b) : ∃ d, Copied b t d := by
  obtain ⟨hsource, u, hu, hread⟩ := source_of_mem h
  obtain ⟨hassigned, d, place, hd, hs, hne, hsame⟩ := source?_eq_some hsource
  have hread : b.Reads t.position t.old := ⟨u.stmt, Body.stmtAt?_of_unit hu, hread⟩
  have honly : ∀ e, e ∈ b.reaching.reachingDefinitions t.old t.position ↔ e = d := by
    simp [hd]
  have hdef : b.Defines d t.old := (Body.mem_reachingDefinitions.1 ((honly d).2 rfl)).1
  rw [Body.Defines, hs, Option.bind_some] at hdef
  refine ⟨d, by rw [hs, Place.var?_eq_some.1 hdef], hne, ?_, ?_, fun y hy ↦ (hsame y hy).2⟩
  · intro hpath
    have hun := Body.mayBeUnassigned_iff.2 ⟨hread.mentioned, Nat.zero_lt_of_lt hread.lt, hpath⟩
    exact Bool.false_ne_true (hassigned.symm.trans hun)
  · intro e he hsurvives
    exact (honly e).1 (hsurvives.mem_reachingDefinitions he)

theorem Copied.defines (h : Copied b t d) : b.Defines d t.old := by
  rw [Body.Defines, h.stmt]
  rfl

theorem Copied.split {V : Type} {literal : Constant → V} {σ τ : LocalId → V} (h : Copied b t d)
    (hrun : b.Runs literal (fun _ ↦ True) ⟨0, σ⟩ ⟨t.position, τ⟩) :
    ∃ c c', b.Runs literal (fun _ ↦ True) ⟨0, σ⟩ c ∧ c.position = d ∧
      b.Step literal (some t.old) c c' ∧
      b.Runs literal (fun x? ↦ True ∧ x? ≠ some t.old) c' ⟨t.position, τ⟩ := by
  obtain hquiet | ⟨c, c', hbefore, -, hcopy, hafter⟩ := hrun.last_definition t.old
  · exact absurd (hquiet.keeps (by simp)) h.assigned
  · have hd : c.position = d := h.only c.position hcopy.defines (hafter.survives hcopy (by simp))
    exact ⟨c, c', hbefore, hd, hcopy, hafter⟩

theorem Copied.agrees (h : Copied b t d) (hno : ¬ t.Overtaken b) : t.Agrees b := by
  intro V literal σ τ hrun
  obtain ⟨c, c', -, rfl, hcopy, hafter⟩ := h.split hrun
  have hold : τ t.old = c'.store t.old := hafter.store_eq (by simp)
  rw [hold, hcopy.store_of_copied h.stmt rfl h.ne]
  cases hsource : t.source with
  | const a => rfl
  | var y =>
    obtain hquiet | ⟨c₁, c₂, hforth, -, hagain, hlast⟩ := hafter.last_definition y
    · exact (hquiet.store_eq (by simp)).symm
    · -- the last definition of the source reaches the unit, so it reaches the copy as well
      have hsurvives : b.Survives y c₁.position t.position := hlast.survives hagain (by simp)
      have hreach := hsurvives.mem_reachingDefinitions hagain.defines
      rw [h.same y hsource] at hreach
      have hback := (Body.mem_reachingDefinitions.1 hreach).2
      have honwards : b.Survives t.old c₁.position t.position := hlast.survives hagain (by simp)
      exact absurd ⟨y, c.position, c₁.position, hsource, h.defines, hagain.defines,
        hforth.survives hcopy (by simp), honwards, hback⟩ hno

theorem Copied.leads (h : Copied b t d) (hreach : ReflTransGen b.Leads 0 t.position) :
    ReflTransGen b.Leads 0 d := by
  rw [← Body.moves_true] at hreach ⊢
  obtain ⟨τ, hrun, -⟩ := Body.exists_runs hreach (fun _ ↦ ()) (fun _ ↦ ()) ()
  obtain ⟨c, -, hbefore, rfl, -⟩ := h.split hrun
  exact hbefore.path

theorem Copied.not_agrees (h : Copied b t d) (hreach : ReflTransGen b.Leads 0 t.position)
    (hany : ∀ y, t.source = .var y → b.StoresAnything y) (hover : t.Overtaken b) :
    ¬ t.Agrees b := by
  intro hagrees
  obtain ⟨y, d', e, hsource, hd', he, ⟨q, hq, hforth⟩, honwards, -⟩ := hover
  have hne : t.old ≠ y := fun hxy ↦ h.ne (by rw [hsource, hxy])
  obtain rfl : d' = d := by
    obtain ⟨r, hr, hrest⟩ := honwards
    have hkeeps : b.Keeps t.old e r := .inl ⟨hr, by rw [he]; simpa using hne.symm⟩
    exact h.only d' hd' ⟨q, hq, hforth.trans (.head hkeeps hrest)⟩
  have hto : ReflTransGen b.Leads 0 e :=
    (h.leads hreach).trans (.head (.inl hq) (Body.leads_of_keeps hforth))
  obtain ⟨τ, hrun, hdiffer⟩ := Body.exists_parting hto he (hany y hsource) hne honwards
    (fun _ ↦ false) (fun _ ↦ false)
  have hequal := hagrees Bool _ _ τ hrun
  rw [hsource] at hequal
  exact hdiffer hequal

/-- A planned replacement reads an equal value unless its source can be overtaken, and an overtaken
one does not if the definitions of the source may store anything. -/
theorem sources_agree (h : t ∈ substitutions b) : (¬ t.Overtaken b → t.Agrees b) ∧
    (ReflTransGen b.Leads 0 t.position → (∀ y, t.source = .var y → b.StoresAnything y) →
      t.Overtaken b → ¬ t.Agrees b) := by
  obtain ⟨d, hd⟩ := copied_of_mem h
  exact ⟨hd.agrees, hd.not_agrees⟩

def handed : Body where
  locals := [⟨⟨0⟩, "y", .int⟩, ⟨⟨1⟩, "x", .int⟩]
  units :=
    [⟨⟨0⟩, .identity ⟨0⟩ (.parameter 0)⟩,
      ⟨⟨1⟩, .assign (.var ⟨1⟩) (.value (.var ⟨0⟩))⟩,
      ⟨⟨2⟩, .ret (some (.var ⟨1⟩))⟩]
  nextUnit := 3

def countedDown : Body where
  locals := [⟨⟨0⟩, "y", .int⟩, ⟨⟨1⟩, "x", .int⟩]
  units :=
    [⟨⟨0⟩, .identity ⟨0⟩ (.parameter 0)⟩,
      ⟨⟨1⟩, .assign (.var ⟨1⟩) (.value (.var ⟨0⟩))⟩,
      ⟨⟨2⟩, .branch ⟨.eq, .var ⟨0⟩, .const (.int 0)⟩ ⟨4⟩⟩,
      ⟨⟨3⟩, .assign (.var ⟨0⟩) (.binary .sub (.var ⟨0⟩) (.const (.int 1)))⟩,
      ⟨⟨4⟩, .branch ⟨.gt, .var ⟨1⟩, .const (.int 1)⟩ ⟨1⟩⟩,
      ⟨⟨5⟩, .ret none⟩]
  nextUnit := 6

theorem storesAnything_countedDown : countedDown.StoresAnything ⟨0⟩ := by
  intro p s hs hdef
  obtain ⟨u, hu, rfl⟩ := Option.map_eq_some_iff.1 hs
  have hall : ∀ u ∈ countedDown.units, u.stmt.def? = some ⟨0⟩ → u.stmt.copied? = none := by decide
  exact hall u (List.mem_of_getElem? hu) hdef

theorem overtaken_countedDown : Substitution.Overtaken countedDown ⟨4, ⟨1⟩, .var ⟨0⟩⟩ := by
  have hon : countedDown.Survives ⟨1⟩ 1 3 :=
    ⟨2, by decide, .single (.inl ⟨by decide, by decide⟩)⟩
  have hout : countedDown.Survives ⟨1⟩ 3 4 := ⟨4, by decide, .refl⟩
  have hback : countedDown.Keeps ⟨0⟩ 4 1 := .inl ⟨by decide, by decide⟩
  exact ⟨⟨0⟩, 1, 3, rfl, rfl, rfl, hon, hout, 4, .inl (by decide), .single hback⟩

theorem sources_agree_handed :
    (⟨2, ⟨1⟩, .var ⟨0⟩⟩ ∈ substitutions handed ∧
      Substitution.Agrees handed ⟨2, ⟨1⟩, .var ⟨0⟩⟩) ∧
    ⟨4, ⟨1⟩, .var ⟨0⟩⟩ ∈ substitutions countedDown ∧
      ¬ Substitution.Agrees countedDown ⟨4, ⟨1⟩, .var ⟨0⟩⟩ := by
  have hhanded : ⟨2, ⟨1⟩, .var ⟨0⟩⟩ ∈ substitutions handed := by decide_cbv
  have hcounted : ⟨4, ⟨1⟩, .var ⟨0⟩⟩ ∈ substitutions countedDown := by decide_cbv
  refine ⟨⟨hhanded, (sources_agree hhanded).1 ?_⟩, hcounted, (sources_agree hcounted).2 ?_ ?_ ?_⟩
  · intro hover
    obtain ⟨d, -, hcycle⟩ := hover.cyclic
    have hforward : ∀ p q, handed.Leads p q → p < q := by
      intro p q hpq
      have hall : ∀ p < 3, ∀ q < 3, q ∈ handed.flowGraph.succs p ∨
          q ∈ handed.flowGraph.catches p → p < q := by decide
      exact hall p hpq.lt.1 q hpq.lt.2 hpq
    have hlt : d < d := transGen_minimal hforward d d hcycle
    exact Nat.lt_irrefl d hlt
  · exact .head (.inl (by decide : 1 ∈ countedDown.flowGraph.succs 0))
      (.head (.inl (by decide : 2 ∈ countedDown.flowGraph.succs 1))
        (.single (.inl (by decide : 4 ∈ countedDown.flowGraph.succs 2))))
  · intro y hy
    cases hy
    exact storesAnything_countedDown
  · exact overtaken_countedDown

/-- Started with two, the loop comes to its end with two in `x` and one in `y`. -/
theorem sources_disagree_countedDown : countedDown.validate = .ok () ∧
    ⟨4, ⟨1⟩, .var ⟨0⟩⟩ ∈ substitutions countedDown ∧
    ¬ Substitution.Agrees countedDown ⟨4, ⟨1⟩, .var ⟨0⟩⟩ := by
  refine ⟨by decide, by decide_cbv, fun hagrees ↦ ?_⟩
  let literal : Constant → Int := fun c ↦ (c.integer?.map (·.toInt)).getD 0
  let σ : LocalId → Int := fun _ ↦ 2
  let σ₁ := Function.update σ ⟨0⟩ 2
  let σ₂ := Function.update σ₁ ⟨1⟩ 2
  let σ₃ := Function.update σ₂ ⟨0⟩ 1
  have hargument : countedDown.Step literal (some ⟨0⟩) ⟨0, σ⟩ ⟨1, σ₁⟩ :=
    .define (by decide) rfl rfl (by simp [Stmt.copied?])
  have hcopy : countedDown.Step literal (some ⟨1⟩) ⟨1, σ₁⟩ ⟨2, σ₂⟩ :=
    .define (by decide) rfl rfl (by simp [Stmt.copied?, Value.eval, σ₁])
  have hbranch : countedDown.Step literal none ⟨2, σ₂⟩ ⟨3, σ₂⟩ := .pass (by decide) rfl
  have hcount : countedDown.Step literal (some ⟨0⟩) ⟨3, σ₂⟩ ⟨4, σ₃⟩ :=
    .define (by decide) rfl rfl (by simp [Stmt.copied?])
  have hrun : countedDown.Runs literal (fun _ ↦ True) ⟨0, σ⟩ ⟨4, σ₃⟩ :=
    .head ⟨_, trivial, hargument⟩ (.head ⟨_, trivial, hcopy⟩
      (.head ⟨_, trivial, hbranch⟩ (.single ⟨_, trivial, hcount⟩)))
  have hequal := hagrees Int literal σ σ₃ hrun
  simp [Value.eval, σ₃, σ₂] at hequal

end CopyPropagation

end ThreeAddress
