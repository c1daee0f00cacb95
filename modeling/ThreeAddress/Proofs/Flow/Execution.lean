import Mathlib.Logic.Function.Basic
import ThreeAddress.Proofs.Body.Motion
import ThreeAddress.Proofs.Flow.Stores

namespace ThreeAddress

structure Semantics (V H E : Type) where
  literal : Constant → V
  holds : CompareOp → V → V → Bool
  /-- What an operation of the given form, with its operands left out, may make of operands and a
  heap: a value or an exception, and the heap after that. -/
  compute : Expr → List V → H → Except E V × H → Prop
  input : Input → H → V
  putField : Option V → Field → V → H → Except E H
  putElement : V → V → V → H → Except E H
  /-- The case of a switch that a key selects. -/
  index? : V → Option Nat
  thrown : V → H → E
  catches : Ty → E → Bool
  /-- The heap that the handler of an exception finds. -/
  caught : E → H → H

namespace Semantics

variable {V H E : Type}

structure State (V H : Type) where
  locals : LocalId → V
  heap : H

inductive Outcome (V H E : Type) where
  | next (σ : State V H)
  | jump (i : Nat) (σ : State V H)
  | raise (e : E) (σ : State V H)
  | done (value : Option V) (σ : State V H)

abbrev Config (V H : Type) := UnitId × State V H

abbrev Result (V H E : Type) := Except (Outcome V H E) (Config V H)

def Config.map (f : UnitId → UnitId) (x : Config V H) : Config V H := (f x.1, x.2)

section

variable (M : Semantics V H E)

def value (v : Value) (σ : State V H) : V := v.eval M.literal σ.locals

def test (c : Comparison) (σ : State V H) : Bool :=
  M.holds c.op (M.value c.left σ) (M.value c.right σ)

/-- What an expression may yield. Copies and comparisons touch no heap and throw nothing. -/
def Yields (σ : State V H) (r : Except E V × H) : Expr → Prop
  | .value v => r = (.ok (M.value v σ), σ.heap)
  | .compare c => r = (.ok (M.literal (.bool (M.test c σ))), σ.heap)
  | e => M.compute (e.mapValues fun _ ↦ .const .null) (e.values.map (M.value · σ)) σ.heap r

def put (v : V) (σ : State V H) : Place → Except E (State V H)
  | .var x => .ok { σ with locals := Function.update σ.locals x v }
  | .field receiver ref =>
    (M.putField (receiver.map (M.value · σ)) ref v σ.heap).map fun h ↦ { σ with heap := h }
  | .element array index =>
    (M.putElement (M.value array σ) (M.value index σ) v σ.heap).map fun h ↦ { σ with heap := h }

/-- The number of the target that a switch with `n` cases jumps to, the default being the last. -/
def caseOf (key : Value) (n : Nat) (σ : State V H) : Nat :=
  ((M.index? (M.value key σ)).filter (· < n)).getD n

inductive Exec (σ : State V H) : Stmt → Outcome V H E → Prop
  | identity {x : LocalId} {source : Input} : Exec σ (.identity x source)
      (.next { σ with locals := Function.update σ.locals x (M.input source σ.heap) })
  | assign {place : Place} {e : Expr} {v : V} {h : H} {σ' : State V H} :
      M.Yields σ (.ok v, h) e → M.put v { σ with heap := h } place = .ok σ' →
      Exec σ (.assign place e) (.next σ')
  | exprRaises {place : Place} {e : Expr} {x : E} {h : H} :
      M.Yields σ (.error x, h) e → Exec σ (.assign place e) (.raise x { σ with heap := h })
  | putRaises {place : Place} {e : Expr} {v : V} {x : E} {h : H} :
      M.Yields σ (.ok v, h) e → M.put v { σ with heap := h } place = .error x →
      Exec σ (.assign place e) (.raise x { σ with heap := h })
  | taken {c : Comparison} {t : UnitId} : M.test c σ = true → Exec σ (.branch c t) (.jump 0 σ)
  | untaken {c : Comparison} {t : UnitId} : M.test c σ = false → Exec σ (.branch c t) (.next σ)
  | goto {t : UnitId} : Exec σ (.goto t) (.jump 0 σ)
  | switch {key : Value} {ts : List UnitId} {d : UnitId} :
      Exec σ (.switch key ts d) (.jump (M.caseOf key ts.length σ) σ)
  | invoke {call : Call} {v : V} {h : H} :
      M.Yields σ (.ok v, h) (.invoke call) → Exec σ (.invoke call) (.next { σ with heap := h })
  | invokeRaises {call : Call} {x : E} {h : H} : M.Yields σ (.error x, h) (.invoke call) →
      Exec σ (.invoke call) (.raise x { σ with heap := h })
  | ret {value : Option Value} : Exec σ (.ret value) (.done (value.map (M.value · σ)) σ)
  | throw {v : Value} : Exec σ (.throw v) (.raise (M.thrown (M.value v σ) σ.heap) σ)
  | nop : Exec σ .nop (.next σ)

def follow? (b : Body) (u : UnitId) (s : Stmt) : Outcome V H E → Option (Config V H)
  | .next σ => (b.successor? u).map (·, σ)
  | .jump i σ => s.targets[i]?.map (·, σ)
  | .raise e σ => ((b.around u).find? (M.catches ·.exception e)).map fun t ↦
      (t.handler, { σ with heap := M.caught e σ.heap })
  | .done .. => none

/-- What comes of the outcome of a unit. The execution ends when the unit returns, throws what no
trap around it catches, or runs off the end. -/
def land (b : Body) (u : UnitId) (s : Stmt) (o : Outcome V H E) : Result V H E :=
  (M.follow? b u s o).elim (.error o) .ok

/-- What the unit at hand may do: lead on to a configuration, or end the execution. -/
def Acts (b : Body) (x : Config V H) (r : Result V H E) : Prop :=
  ∃ s o, b.stmt? x.1 = some s ∧ M.Exec x.2 s o ∧ r = M.land b x.1 s o

def Step (b : Body) (x y : Config V H) : Prop := M.Acts b x (.ok y)

def Reaches (b : Body) : Config V H → Config V H → Prop := Relation.ReflTransGen (M.Step b)

def Ends (b : Body) (x : Config V H) (o : Outcome V H E) : Prop :=
  ∃ y, M.Reaches b x y ∧ M.Acts b y (.error o)

def Within (b : Body) (inner : UnitId → Prop) : Config V H → Config V H → Prop :=
  Relation.ReflTransGen fun x y ↦ M.Step b x y ∧ inner y.1

/-- What a run over inner units comes to in the end: a unit that is not inner, or its end. -/
def Crosses (b : Body) (inner : UnitId → Prop) (x : Config V H) (r : Result V H E) : Prop :=
  ∃ y, M.Within b inner x y ∧ M.Acts b y r ∧ ∀ z, r = .ok z → ¬ inner z.1

/-- What each unit of `b` does, a run of `c` does from the unit that stands for it, over units that
stand for none. -/
def Simulates (f : UnitId → UnitId) (b c : Body) : Prop :=
  ∀ u ∈ b.ids, ∀ σ r, M.Crosses c (fun w ↦ ∀ u ∈ b.ids, f u ≠ w) (f u, σ) r ↔
    ∃ q, M.Acts b (u, σ) q ∧ r = q.map (Config.map f)

end

variable {M : Semantics V H E} {b c : Body} {f : UnitId → UnitId} {inner : UnitId → Prop}
  {u u' : UnitId} {σ σ' : State V H} {s : Stmt} {o : Outcome V H E} {x y z : Config V H}
  {r : Result V H E}

theorem Within.reaches (h : M.Within b inner x y) : M.Reaches b x y :=
  Relation.ReflTransGen.mono (fun _ _ hs ↦ hs.1) _ _ h

theorem crosses_iff : M.Crosses b inner x r ↔
    (M.Acts b x r ∧ ∀ z, r = .ok z → ¬ inner z.1) ∨
      ∃ y, M.Step b x y ∧ inner y.1 ∧ M.Crosses b inner y r := by
  constructor
  · rintro ⟨y, hy, hlast⟩
    obtain rfl | ⟨w, ⟨hstep, hw⟩, hrest⟩ := hy.cases_head
    · exact .inl hlast
    · exact .inr ⟨w, hstep, hw, y, hrest, hlast⟩
  · rintro (hlast | ⟨w, hstep, hw, y, hy, hlast⟩)
    · exact ⟨x, .refl, hlast⟩
    · exact ⟨y, .head ⟨hstep, hw⟩ hy, hlast⟩

theorem Crosses.single (h : M.Step b x z) (hz : ¬ inner z.1) : M.Crosses b inner x (.ok z) :=
  crosses_iff.2 (.inl ⟨h, by rintro _ ⟨⟩; exact hz⟩)

theorem Crosses.head (h : M.Step b x y) (hy : inner y.1) (hr : M.Crosses b inner y r) :
    M.Crosses b inner x r :=
  crosses_iff.2 (.inr ⟨y, h, hy, hr⟩)

theorem crosses_iff_acts (h : ∀ y, M.Step b x y → ¬ inner y.1) :
    M.Crosses b inner x r ↔ M.Acts b x r := by
  rw [crosses_iff]
  constructor
  · rintro (hlast | ⟨y, hstep, hy, -⟩)
    · exact hlast.1
    · exact absurd hy (h y hstep)
  · intro hr
    refine .inl ⟨hr, ?_⟩
    rintro z rfl
    exact h z hr

/-- A unit that leads to an inner unit, and to nothing else, crosses to what that one crosses to. -/
theorem crosses_iff_of_step (h : ∀ r, M.Acts b x r ↔ r = .ok y) (hy : inner y.1) :
    M.Crosses b inner x r ↔ M.Crosses b inner y r := by
  constructor
  · intro hr
    obtain ⟨hlast, houter⟩ | ⟨w, hstep, -, hw⟩ := crosses_iff.1 hr
    · exact absurd hy (houter y ((h _).1 hlast))
    · obtain rfl : w = y := Except.ok.inj ((h _).1 hstep)
      exact hw
  · exact .head ((h _).2 rfl) hy

theorem reaches_of_crosses
    (h : Relation.ReflTransGen (fun x y ↦ M.Crosses b inner x (.ok y)) x z) :
    M.Reaches b x z := by
  induction h with
  | refl => exact .refl
  | tail _ hlast ih =>
    obtain ⟨y, hy, hstep, -⟩ := hlast
    exact ih.trans (.tail hy.reaches hstep)

theorem crosses_of_reaches (h : M.Reaches b x z) (hz : ¬ inner z.1) :
    Relation.ReflTransGen (fun x y ↦ M.Crosses b inner x (.ok y)) x z := by
  induction h using Relation.ReflTransGen.head_induction_on with
  | refl => exact .refl
  | @head x y hstep _ ih =>
    by_cases hy : inner y.1
    · obtain rfl | ⟨w, hw, hrest⟩ := ih.cases_head
      · exact absurd hy hz
      · exact .head (.head hstep hy hw) hrest
    · exact .head (.single hstep hy) ih

theorem ends_iff_crosses : M.Ends b x o ↔
    ∃ y, Relation.ReflTransGen (fun x y ↦ M.Crosses b inner x (.ok y)) x y ∧
      M.Crosses b inner y (.error o) := by
  constructor
  · rintro ⟨z, hz, hend⟩
    induction hz using Relation.ReflTransGen.head_induction_on with
    | refl => exact ⟨z, .refl, z, .refl, hend, by simp⟩
    | @head x y hstep _ ih =>
      obtain ⟨w, hw, hend⟩ := ih
      by_cases hy : inner y.1
      · obtain rfl | ⟨v, hv, hrest⟩ := hw.cases_head
        · exact ⟨x, .refl, .head hstep hy hend⟩
        · exact ⟨w, .head (.head hstep hy hv) hrest, hend⟩
      · exact ⟨w, .head (.single hstep hy) hw, hend⟩
  · rintro ⟨y, hy, z, hz, hend, -⟩
    exact ⟨z, (reaches_of_crosses hy).trans hz.reaches, hend⟩

theorem exec_branch_iff {c : Comparison} {t : UnitId} : M.Exec σ (.branch c t) o ↔
    o = if M.test c σ then .jump 0 σ else .next σ := by
  constructor
  · intro h
    cases h with
    | taken ht => rw [if_pos ht]
    | untaken ht => rw [ht, if_neg Bool.false_ne_true]
  · rintro rfl
    split
    · next ht => exact .taken ht
    · next ht => exact .untaken (Bool.eq_false_iff.2 ht)

theorem exec_goto_iff {t : UnitId} : M.Exec σ (.goto t) o ↔ o = .jump 0 σ :=
  ⟨by rintro ⟨⟩; rfl, by rintro rfl; exact .goto⟩

theorem exec_switch_iff {key : Value} {ts : List UnitId} {d : UnitId} :
    M.Exec σ (.switch key ts d) o ↔ o = .jump (M.caseOf key ts.length σ) σ :=
  ⟨by rintro ⟨⟩; rfl, by rintro rfl; exact .switch⟩

theorem exec_mapTargets (f : UnitId → UnitId) (s : Stmt) :
    M.Exec σ (s.mapTargets f) o ↔ M.Exec σ s o := by
  cases s with
  | branch c t => rw [Stmt.mapTargets, exec_branch_iff, exec_branch_iff]
  | goto t => rw [Stmt.mapTargets, exec_goto_iff, exec_goto_iff]
  | switch key ts d =>
    rw [Stmt.mapTargets, exec_switch_iff, exec_switch_iff, List.length_map]
  | _ => rfl

def Outcome.ofPut (σ : State V H) : Except E (State V H) → Outcome V H E
  | .ok σ' => .next σ'
  | .error e => .raise e σ

theorem exec_assign_iff {place : Place} {e : Expr} {v : V}
    (he : ∀ r, M.Yields σ r e ↔ r = (.ok v, σ.heap)) :
    M.Exec σ (.assign place e) o ↔ o = .ofPut σ (M.put v σ place) := by
  constructor
  · intro h
    cases h with
    | assign hv hp =>
      cases (he _).1 hv
      rw [hp]
      rfl
    | exprRaises hv => cases (he _).1 hv
    | putRaises hv hp =>
      cases (he _).1 hv
      rw [hp]
      rfl
  · rintro rfl
    cases hp : M.put v σ place with
    | ok σ' => exact .assign ((he _).2 rfl) hp
    | error x => exact .putRaises ((he _).2 rfl) hp

theorem exec_compare_iff {place : Place} {c : Comparison} :
    M.Exec σ (.assign place (.compare c)) o ↔
      o = .ofPut σ (M.put (M.literal (.bool (M.test c σ))) σ place) :=
  exec_assign_iff fun _ ↦ .rfl

theorem exec_literal_iff {place : Place} {k : Constant} :
    M.Exec σ (.assign place (.value (.const k))) o ↔ o = .ofPut σ (M.put (M.literal k) σ place) :=
  exec_assign_iff fun _ ↦ .rfl

theorem acts_iff_of_exec {o' : Outcome V H E} (hs : b.stmt? u = some s)
    (ho : ∀ o, M.Exec σ s o ↔ o = o') : M.Acts b (u, σ) r ↔ r = M.land b u s o' := by
  constructor
  · rintro ⟨s', o, hs', ho', rfl⟩
    obtain rfl := Option.some.inj (hs.symm.trans hs')
    rw [(ho o).1 ho']
  · rintro rfl
    exact ⟨s, o', hs, (ho o').2 rfl, rfl⟩

theorem acts_compare {place : Place} {c : Comparison}
    (hs : b.stmt? u = some (.assign place (.compare c))) : M.Acts b (u, σ) r ↔
      r = M.land b u (.assign place (.compare c))
        (.ofPut σ (M.put (M.literal (.bool (M.test c σ))) σ place)) :=
  acts_iff_of_exec hs fun _ ↦ exec_compare_iff

theorem acts_literal {place : Place} {k : Constant}
    (hs : b.stmt? u = some (.assign place (.value (.const k)))) : M.Acts b (u, σ) r ↔
      r = M.land b u (.assign place (.value (.const k))) (.ofPut σ (M.put (M.literal k) σ place)) :=
  acts_iff_of_exec hs fun _ ↦ exec_literal_iff

theorem follow?_mem (hb : b.Coherent) (hs : b.stmt? u = some s) (h : M.follow? b u s o = some x) :
    x.1 ∈ b.ids := by
  cases o with
  | next σ =>
    obtain ⟨w, hw, rfl⟩ := Option.map_eq_some_iff.1 h
    obtain ⟨p, -, hp⟩ := (Body.successor?_eq_some hb.nodup).1 hw
    exact List.mem_of_getElem? hp
  | jump i σ =>
    obtain ⟨t, ht, rfl⟩ := Option.map_eq_some_iff.1 h
    exact hb.targets _ ((Body.stmt?_eq_some hb.nodup).1 hs) t (List.mem_of_getElem? ht)
  | raise e σ =>
    obtain ⟨t, ht, rfl⟩ := Option.map_eq_some_iff.1 h
    exact hb.handlers t ((Body.mem_around hb.nodup).1 (List.mem_of_find?_eq_some ht)).1
  | done => simp [follow?] at h

theorem Step.mem_ids (hb : b.Coherent) (h : M.Step b x y) : y.1 ∈ b.ids := by
  obtain ⟨s, o, hs, -, hr⟩ := h
  rw [land] at hr
  cases hf : M.follow? b x.1 s o with
  | none => simp [hf] at hr
  | some z =>
    rw [hf] at hr
    exact Except.ok.inj hr ▸ follow?_mem hb hs hf

theorem Reaches.mem_ids (hb : b.Coherent) (hx : x.1 ∈ b.ids) (h : M.Reaches b x y) :
    y.1 ∈ b.ids := by
  induction h with
  | refl => exact hx
  | tail _ hlast _ => exact hlast.mem_ids hb

theorem follow?_moved {keep : UnitId → Prop} (h : Body.Moved keep f b c) (hu : keep u) (s : Stmt)
    (o : Outcome V H E) :
    M.follow? c u (s.mapTargets f) o = (M.follow? b u s o).map (Config.map f) := by
  cases o with
  | next σ =>
    rw [follow?, h.successor u hu, follow?, Option.map_map, Option.map_map]
    rfl
  | jump i σ =>
    rw [follow?, Stmt.targets_mapTargets, List.getElem?_map, follow?, Option.map_map,
      Option.map_map]
    rfl
  | raise e σ =>
    rw [follow?, h.around u hu, List.find?_map, follow?, Option.map_map, Option.map_map]
    rfl
  | done => rfl

theorem land_of_follow? {w : UnitId} {s' : Stmt}
    (h : M.follow? c w s' o = (M.follow? b u s o).map (Config.map f)) :
    M.land c w s' o = (M.land b u s o).map (Config.map f) := by
  rw [land, h, land]
  cases M.follow? b u s o <;> rfl

theorem acts_moved {keep : UnitId → Prop} (h : Body.Moved keep f b c) (hu : keep u) :
    M.Acts c (u, σ) r ↔ ∃ q, M.Acts b (u, σ) q ∧ r = q.map (Config.map f) := by
  have hland (s : Stmt) (o : Outcome V H E) :
      M.land c u (s.mapTargets f) o = (M.land b u s o).map (Config.map f) :=
    land_of_follow? (follow?_moved h hu s o)
  constructor
  · rintro ⟨s', o, hs', ho, rfl⟩
    rw [h.stmt u hu] at hs'
    obtain ⟨s, hs, rfl⟩ := Option.map_eq_some_iff.1 hs'
    exact ⟨_, ⟨s, o, hs, (exec_mapTargets f s).1 ho, rfl⟩, hland s o⟩
  · rintro ⟨_, ⟨s, o, hs, ho, rfl⟩, rfl⟩
    refine ⟨s.mapTargets f, o, ?_, (exec_mapTargets f s).2 ho, (hland s o).symm⟩
    rw [h.stmt u hu, hs, Option.map_some]

theorem crosses_iff_of_acts (hb : b.Coherent)
    (h : ∀ r, M.Acts c y r ↔ ∃ q, M.Acts b x q ∧ r = q.map (Config.map f)) :
    M.Crosses c (fun w ↦ ∀ u ∈ b.ids, f u ≠ w) y r ↔
      ∃ q, M.Acts b x q ∧ r = q.map (Config.map f) := by
  refine (crosses_iff_acts fun z hz hinner ↦ ?_).trans (h r)
  obtain ⟨q, hq, he⟩ := (h _).1 hz
  cases q with
  | error o => simp [Except.map] at he
  | ok z' =>
    obtain rfl : z = z'.map f := Except.ok.inj he
    exact hinner z'.1 (Step.mem_ids hb hq) rfl

namespace Simulates

theorem reaches_iff_crosses (h : M.Simulates f b c) (hb : b.Coherent) (hu : u ∈ b.ids) :
    Relation.ReflTransGen (fun x y ↦ M.Crosses c (fun w ↦ ∀ u ∈ b.ids, f u ≠ w) x (.ok y)) (f u, σ)
      z ↔ ∃ x, M.Reaches b (u, σ) x ∧ z = x.map f := by
  constructor
  · intro hz
    induction hz with
    | refl => exact ⟨(u, σ), .refl, rfl⟩
    | tail _ hlast ih =>
      obtain ⟨x, hx, rfl⟩ := ih
      obtain ⟨q, hq, he⟩ := (h x.1 (hx.mem_ids hb hu) x.2 _).1 hlast
      cases q with
      | error o => simp [Except.map] at he
      | ok y => exact ⟨y, .tail hx hq, Except.ok.inj he⟩
  · rintro ⟨x, hx, rfl⟩
    induction hx with
    | refl => exact .refl
    | tail hx hlast ih =>
      exact .tail ih ((h _ (Reaches.mem_ids hb hu hx) _ _).2 ⟨_, hlast, rfl⟩)

/-- Between units that stand for units of `b`, the runs of `c` are those of `b`. -/
theorem reaches_iff (h : M.Simulates f b c) (hb : b.Coherent)
    (hf : ∀ u ∈ b.ids, ∀ w ∈ b.ids, f u = f w → u = w) (hu : u ∈ b.ids) (hu' : u' ∈ b.ids) :
    M.Reaches c (f u, σ) (f u', σ') ↔ M.Reaches b (u, σ) (u', σ') := by
  constructor
  · intro hreach
    obtain ⟨x, hx, he⟩ := (h.reaches_iff_crosses hb hu).1
      (crosses_of_reaches hreach fun hinner ↦ hinner u' hu' rfl)
    obtain ⟨hf', rfl⟩ := Prod.mk.inj he
    obtain rfl := hf u' hu' x.1 (hx.mem_ids hb hu) hf'
    exact hx
  · exact fun hreach ↦ reaches_of_crosses ((h.reaches_iff_crosses hb hu).2 ⟨_, hreach, rfl⟩)

theorem ends_iff (h : M.Simulates f b c) (hb : b.Coherent) (hu : u ∈ b.ids) :
    M.Ends c (f u, σ) o ↔ M.Ends b (u, σ) o := by
  rw [ends_iff_crosses]
  constructor
  · rintro ⟨y, hy, hend⟩
    obtain ⟨x, hx, rfl⟩ := (h.reaches_iff_crosses hb hu).1 hy
    obtain ⟨q, hq, he⟩ := (h x.1 (hx.mem_ids hb hu) x.2 _).1 hend
    cases q with
    | error o' => exact ⟨x, hx, Except.error.inj he ▸ hq⟩
    | ok y => simp [Except.map] at he
  · rintro ⟨x, hx, hend⟩
    exact ⟨x.map f, (h.reaches_iff_crosses hb hu).2 ⟨x, hx, rfl⟩,
      (h x.1 (Reaches.mem_ids hb hu hx) x.2 _).2 ⟨_, hend, rfl⟩⟩

end Simulates

end Semantics

end ThreeAddress
