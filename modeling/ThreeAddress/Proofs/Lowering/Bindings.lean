import ThreeAddress.Lowering.Method
import ThreeAddress.Proofs.Fragment.Merge
import ThreeAddress.Proofs.Pass.LocalNames
import ThreeAddress.Proofs.Pass.Openings
import ThreeAddress.Proofs.Pipeline.Runs

namespace ThreeAddress

namespace Fragment

variable {f : Fragment} {n : Nat}

/-- What the fragment refers to stays apart from lower units when it moves up so far. The target of
an open jump does not count, but where its label is set. -/
structure RefsFit (f : Fragment) (n : Nat) : Prop where
  targets : ∀ v ∈ f.units, (∀ x ∈ f.openJumps, x.unit ≠ v.id) → ∀ t ∈ v.stmt.targets, t.Fits n
  refs : ∀ t ∈ f.traps, ∀ u ∈ t.refs, u.Fits n
  labels : ∀ x ∈ f.openJumps, ∀ u, f.labels.lookup x.label = some u → u.Fits n

structure RefsAbove (n : Nat) (f : Fragment) : Prop where
  targets : ∀ v ∈ f.units, (∀ x ∈ f.openJumps, x.unit ≠ v.id) → ∀ t ∈ v.stmt.targets, n ≤ t.index
  refs : ∀ t ∈ f.traps, ∀ u ∈ t.refs, n ≤ u.index
  labels : ∀ x ∈ f.openJumps, ∀ u, f.labels.lookup x.label = some u → n ≤ u.index

theorem RefsFit.above_shift (h : f.RefsFit n) : (f.shift n).RefsAbove n := by
  refine ⟨fun v' hv' hclosed t' ht' ↦ ?_, fun t' ht' u' hu' ↦ ?_, fun x' hx' u' hu' ↦ ?_⟩
  · obtain ⟨v, hv, rfl⟩ := List.mem_map.1 hv'
    rw [Stmt.targets_mapTargets] at ht'
    obtain ⟨t, ht, rfl⟩ := List.mem_map.1 ht'
    refine UnitId.le_index_shift (h.targets v hv (fun x hx he ↦ ?_) t ht)
    exact hclosed _ (List.mem_map_of_mem hx) (congrArg (UnitId.shift n) he)
  · obtain ⟨t, ht, rfl⟩ := List.mem_map.1 ht'
    obtain ⟨u, hu, rfl⟩ := List.mem_map.1 (Trap.refs_mapRefs _ t ▸ hu')
    exact UnitId.le_index_shift (h.refs t ht u hu)
  · obtain ⟨x, hx, rfl⟩ := List.mem_map.1 hx'
    have hlookup : (f.shift n).labels.lookup x.label = (f.labels.lookup x.label).map (.shift n) :=
      lookup_map_value ..
    obtain ⟨u, hu, rfl⟩ := Option.map_eq_some_iff.1 (hlookup.symm.trans hu')
    exact UnitId.le_index_shift (h.labels x hx u hu)

end Fragment

namespace Body

variable {m : Signature} {b : Body}

theorem prefix_declareLocal (b : Body) (l : Local) : b.locals <+: (b.declareLocal l).locals := by
  unfold declareLocal
  split
  · exact List.prefix_refl _
  · exact List.prefix_append _ _

theorem Begins.declareLocal (h : b.Begins m) (l : Local) : (b.declareLocal l).Begins m := by
  have hl := h.locals.trans (b.prefix_declareLocal l)
  unfold Body.declareLocal at hl ⊢
  split
  · exact h
  · next hd =>
    rw [if_neg hd] at hl
    exact h.withLocals hl

theorem Begins.declareLocals (h : b.Begins m) (ls : List Local) :
    (ls.foldl Body.declareLocal b).Begins m := by
  induction ls generalizing b with
  | nil => exact h
  | cons l ls ih => exact ih (h.declareLocal l)

/-- The units of the opening are there, so what is not there yet has another identity. -/
theorem Begins.le_of_not_mem (h : b.Begins m) {u : UnitId} (hu : u ∉ b.ids) :
    m.inputCount ≤ u.index := by
  by_contra hlt
  obtain ⟨source, hs⟩ := h.unit (Nat.lt_of_not_le hlt)
  exact hu (List.mem_of_getElem? (id_of_unit hs))

theorem Begins.append (us : List CodeUnit) (h : b.Begins m) : (b.append us).2.Begins m := by
  induction us generalizing b with
  | nil => exact h
  | cons u us ih =>
    rw [Body.append]
    split
    · exact h
    · next hnew =>
      have hid := h.le_of_not_mem fun hm ↦ hnew (hasUnit_iff.2 hm)
      refine ih ⟨fun p hp ↦ ?_, fun p v hv hp ↦ ?_, h.locals, h.refs⟩
      · obtain ⟨source, hs⟩ := h.unit hp
        rw [← h.units p hp, List.getElem?_append_left (List.getElem?_eq_some_iff.1 hs).1]
      · have hv : (b.ids ++ [u.id])[p]? = some v := by simpa [ids] using hv
        by_cases hlt : p < b.ids.length
        · exact h.apart p v ((List.getElem?_append_left hlt).symm.trans hv) hp
        · rw [List.getElem?_append_right (Nat.le_of_not_lt hlt)] at hv
          obtain rfl : v = u.id := by simpa using List.mem_of_getElem? hv
          exact hid

theorem Begins.pushTraps (ts : List Trap) (h : b.Begins m)
    (hts : ∀ t ∈ ts, ∀ u ∈ t.refs, m.inputCount ≤ u.index) : (ts.foldl pushTrap b).Begins m := by
  induction ts generalizing b with
  | nil => exact h
  | cons t ts ih =>
    refine ih (h.withTraps fun s hs ↦ ?_) fun s hs ↦ hts s (List.mem_cons_of_mem t hs)
    obtain hs | hs := List.mem_append.1 hs
    · exact h.refs s hs
    · exact List.mem_singleton.1 hs ▸ hts t List.mem_cons_self

section Resolve

variable {labels : List (String × UnitId)} {jumps : List OpenJump} {c : Body}

theorem Begins.resolve (h : b.Begins m) (hc : b.resolve labels jumps = .ok c) :
    c.Begins m ∧ c.ids = b.ids := by
  induction jumps generalizing b with
  | nil =>
    cases hc
    exact ⟨h, rfl⟩
  | cons x jumps ih =>
    obtain ⟨s, target, hs, hjump, -, hnext⟩ := resolve_cons hc
    obtain ⟨v, hv, hvx, rfl⟩ := exists_unit_of_stmt? hs
    have hplace : m.inputCount ≤ x.unit.index := hvx ▸ h.le_of_mem hv hjump.ne_identity
    obtain ⟨hbegins, hi⟩ := ih (h.setStmt hplace) hnext
    exact ⟨hbegins, hi.trans (ids_setStmt b x.unit _)⟩

/-- Once all is resolved, what an open jump named goes where some label is set, and what none named
is as it was. -/
theorem mem_units_resolve (hc : b.resolve labels jumps = .ok c) {w : CodeUnit} (hw : w ∈ c.units) :
    (w ∈ b.units ∧ ∀ x ∈ jumps, x.unit ≠ w.id) ∨
      ∀ t ∈ w.stmt.targets, ∃ x ∈ jumps, labels.lookup x.label = some t := by
  induction jumps generalizing b with
  | nil =>
    cases hc
    exact .inl ⟨hw, by simp⟩
  | cons x jumps ih =>
    obtain ⟨s, target, -, -, ht, hnext⟩ := resolve_cons hc
    obtain ⟨hold, hnone⟩ | hset := ih hnext
    · obtain ⟨v, hv, rfl⟩ := List.mem_map.1 hold
      by_cases hvx : v.id = x.unit
      · right
        rw [if_pos hvx, Stmt.targets_mapTargets]
        intro t ht'
        obtain ⟨-, -, rfl⟩ := List.mem_map.1 ht'
        exact ⟨x, List.mem_cons_self, ht⟩
      · left
        rw [if_neg hvx] at hnone ⊢
        exact ⟨hv, List.forall_mem_cons.2 ⟨Ne.symm hvx, hnone⟩⟩
    · right
      intro t ht'
      obtain ⟨y, hy, hlabel⟩ := hset t ht'
      exact ⟨y, List.mem_cons_of_mem x hy, hlabel⟩

end Resolve

theorem Opens.merge {f : Fragment} {c : Body} (h : b.Opens m) (hn : b.ids.Nodup)
    (hbound : m.inputCount = b.nextUnit) (hfit : f.RefsFit b.nextUnit) (hc : b.merge f = .ok c) :
    c.Opens m ∧ c.ids.Nodup := by
  have hf : (f.shift b.nextUnit).RefsAbove m.inputCount := hbound ▸ hfit.above_shift
  have hdeclared := h.declareLocals (f.shift b.nextUnit).locals
  have hbegins := hdeclared.append (f.shift b.nextUnit).units
  unfold Body.merge at hc
  dsimp only at hc
  split at hc
  · cases hc
  · next d hd =>
    have hunits : d.units = b.units ++ (f.shift b.nextUnit).units := by
      have happended := units_append (congrArg Prod.fst hd)
      rwa [hd, declareLocals_eq] at happended
    have hids : d.ids.Nodup := by
      have hstart : ((f.shift b.nextUnit).locals.foldl Body.declareLocal b).ids.Nodup := by
        rwa [declareLocals_eq]
      have happended := nodup_append hstart (f.shift b.nextUnit).units
      rwa [hd] at happended
    rw [hd] at hbegins
    obtain ⟨hend, hi⟩ := (hbegins.pushTraps (f.shift b.nextUnit).traps hf.refs).resolve hc
    refine ⟨⟨hend, fun w hw t ht ↦ ?_⟩, ?_⟩
    · obtain ⟨hw, hclosed⟩ | hset := mem_units_resolve hc hw
      · rw [pushTraps_eq, hunits] at hw
        obtain hw | hw := List.mem_append.1 hw
        · exact h.targets w hw t ht
        · exact hf.targets w hw hclosed t ht
      · obtain ⟨x, hx, hlabel⟩ := hset t ht
        exact hf.labels x hx t hlabel
    · rwa [hi, pushTraps_eq]

end Body

namespace Lowering

variable {m : Signature}

theorem foldl_bind (xs : List (String × Ty × Input)) (n : Nat) (st : Scope × Body)
    (hs : st.1.supply.freshId = n) (hu : st.2.nextUnit = n)
    (hl : ∀ l ∈ st.2.locals, l.id.index < n) (hroom : n + xs.length < idCount) :
    (xs.foldl bind st).2 =
      { st.2 with
        locals := st.2.locals ++ (xs.zipIdx n).map fun ((name, ty, _), i) ↦ ⟨⟨i⟩, name, ty⟩
        units := st.2.units ++ (xs.zipIdx n).map fun ((_, _, source), i) ↦
          ⟨⟨i⟩, .identity ⟨i⟩ source⟩
        nextUnit := n + xs.length } := by
  induction xs generalizing n st with
  | nil => simp [← hu]
  | cons x xs ih =>
    obtain ⟨name, ty, source⟩ := x
    obtain ⟨scope, b⟩ := st
    simp only at hs hu hl
    rw [List.length_cons, Nat.add_comm xs.length, ← Nat.add_assoc] at hroom
    have hcount : wrapId n = n := wrapId_of_lt (by omega)
    have hnext : wrapId (n + 1) = n + 1 := wrapId_of_lt (by omega)
    have hnew : b.declares ⟨n⟩ = false := by
      refine List.any_eq_false.2 fun l hm he ↦ ?_
      have hlt := hl l hm
      rw [beq_iff_eq.1 he] at hlt
      exact Nat.lt_irrefl n hlt
    have hfirst : (bind (scope, b) (name, ty, source)).2 =
        { b with
          locals := b.locals ++ [⟨⟨n⟩, name, ty⟩]
          units := b.units ++ [⟨⟨n⟩, .identity ⟨n⟩ source⟩]
          nextUnit := n + 1 } := by
      simp [bind, Scope.declare, LocalSupply.named, hs, Body.declareLocal, hnew, Body.push,
        Body.fresh, hu, hcount, hnext]
    have hlater : ∀ l ∈ b.locals ++ [⟨⟨n⟩, name, ty⟩], l.id.index < n + 1 := by
      intro l hm
      obtain hm | hm := List.mem_append.1 hm
      · exact Nat.lt_succ_of_lt (hl l hm)
      · rw [List.mem_singleton.1 hm]
        exact Nat.lt_succ_self n
    rw [List.foldl_cons, ih (n + 1) _ ?_ (by rw [hfirst]) (by rw [hfirst]; exact hlater) hroom,
      hfirst]
    · simp [Nat.add_assoc, Nat.add_comm 1]
    · simp [bind, Scope.declare, LocalSupply.named, hs, hnext]

/-- Parameter numbers have sixteen bits, so there are identities for all bindings. -/
theorem inputCount_le {st : Scope × Body} (h : prologue m = .ok st) : m.inputCount ≤ 65537 := by
  unfold prologue at h
  split at h
  · cases h
  · rw [m.inputCount_eq]
    split <;> omega

theorem prologue_eq {scope : Scope} {b : Body} (h : prologue m = .ok (scope, b)) :
    b = { locals := m.boundLocals, units := m.opening, nextUnit := m.inputCount } := by
  have hcount := inputCount_le h
  have hroom : 0 + m.bindings.length < idCount := by
    rw [Signature.length_bindings, idCount]
    omega
  unfold prologue at h
  split at h
  · cases h
  · have hb := congrArg Prod.snd (Except.ok.inj h)
    rw [foldl_bind m.bindings 0 ({}, {}) rfl rfl (by simp) hroom] at hb
    have hunits : m.opening = m.bindings.zipIdx.map fun ((_, _, source), i) ↦
        (⟨⟨i⟩, .identity ⟨i⟩ source⟩ : CodeUnit) := by
      rw [Signature.opening, ← Signature.sources_bindings, List.zipIdx_map, List.map_map]
      rfl
    refine hb.symm.trans ?_
    rw [hunits]
    simp [Signature.boundLocals]

theorem opens_prologue {scope : Scope} {b : Body} (h : prologue m = .ok (scope, b)) :
    b.Opens m ∧ b.ids.Nodup := by
  obtain rfl := prologue_eq h
  refine ⟨⟨⟨fun _ _ ↦ rfl, fun p u hu hp ↦ ?_, List.prefix_refl _, ?_⟩, fun u hu t ht ↦ ?_⟩, ?_⟩
  · have hlt := (List.getElem?_eq_some_iff.1 hu).1
    simp only [Body.ids, List.length_map, Signature.length_opening] at hlt
    exact absurd hlt (Nat.not_lt_of_le hp)
  · simp
  · obtain ⟨p, hp⟩ := List.getElem?_of_mem hu
    have hlt := (List.getElem?_eq_some_iff.1 hp).1
    rw [Signature.length_opening] at hlt
    obtain ⟨source, hs⟩ := Signature.getElem?_opening hlt
    obtain rfl := Option.some.inj (hp.symm.trans hs)
    cases ht
  · rw [Body.ids, Signature.ids_opening]
    exact List.Nodup.map (fun _ _ h ↦ congrArg UnitId.index h) List.nodup_range

theorem opens_declareAll (st : Scope × Body) (vs : List Variable) (h : st.2.Opens m)
    (hn : st.2.ids.Nodup) : (declareAll st vs).2.Opens m ∧ (declareAll st vs).2.ids.Nodup := by
  induction vs generalizing st with
  | nil => exact ⟨h, hn⟩
  | cons v vs ih =>
    refine ih _ ⟨h.declareLocal _, ?_⟩ (by rwa [declareOne, Body.ids_declareLocal])
    rw [declareOne, Body.units_declareLocal]
    exact h.targets

theorem nextUnit_declareAll (st : Scope × Body) (vs : List Variable) :
    (declareAll st vs).2.nextUnit = st.2.nextUnit := by
  induction vs generalizing st with
  | nil => rfl
  | cons v vs ih => exact (ih _).trans (st.2.nextUnit_declareLocal _)

variable {α : Type} {l : Lowering α} {input : Method α} {b : Body}

/-- The front end, given the variables in scope, yields no fragment that refers to units so far up
that they would come to lie on the bindings when it moves up behind these. -/
def RefsFit (l : Lowering α) (input : Method α) : Prop :=
  ∀ st f, prologue input.signature = .ok st →
    l.frontEnd input.code (declareAll st input.declarations).1 = .ok f →
      f.RefsFit input.signature.inputCount

/-- Whatever such a front end yields, the body before the first pass opens with the bindings. -/
theorem opens_assemble (hfit : l.RefsFit input) (h : l.assemble input = .ok b) :
    (∃ scope start, prologue input.signature = .ok (scope, start)) ∧
      b.Opens input.signature ∧ b.ids.Nodup := by
  unfold assemble at h
  cases hp : prologue input.signature with
  | error e => simp [hp, Bind.bind, Except.bind] at h
  | ok st =>
    obtain ⟨scope, start⟩ := st
    obtain ⟨ho, hn⟩ := opens_prologue hp
    obtain ⟨ho, hn⟩ := opens_declareAll (scope, start) input.declarations ho hn
    have hbound : input.signature.inputCount =
        (declareAll (scope, start) input.declarations).2.nextUnit := by
      rw [nextUnit_declareAll, prologue_eq hp]
    simp only [hp, Bind.bind, Except.bind] at h
    split at h
    · cases h
    · next f hf =>
      exact ⟨⟨scope, start, rfl⟩, ho.merge hn hbound (hbound ▸ hfit (scope, start) f hp hf) h⟩

end Lowering

namespace Pipeline.Completes

variable {m : Signature} {ps : List Pass} {b c : Body}

theorem opens (h : Completes m ps b c) (hps : ∀ pass ∈ ps, pass.KeepsOpenings)
    (hn : b.ids.Nodup) (hb : b.Opens m) : c.Opens m := by
  induction h with
  | nil => exact hb
  | @cons pass ps b c hok hv _ ih =>
    exact ih (fun p hp ↦ hps p (List.mem_cons_of_mem pass hp)) hv.nodup
      (hps pass List.mem_cons_self m b hn hb hok hv.nodup)

/-- The last stage makes names distinct, and no stage before it touches a name. -/
theorem names_last (h : Completes m (standard.passes.take 22 ++ [.localNames]) b c) :
    ∃ d, Completes m (standard.passes.take 22) b d ∧ c = (LocalNames.revise d).body := by
  obtain ⟨d, hfront, hlast⟩ := h.split
  exact ⟨d, hfront, hlast.eq_of_single⟩

end Pipeline.Completes

theorem Pipeline.keepsOpenings_front :
    ∀ pass ∈ standard.passes.take 22, pass.KeepsOpenings := by
  have hnames : ((standard.passes.take 22).all fun pass ↦
      pass.name != Pass.localNames.name) = true := by decide
  intro pass hpass
  have hmem : pass ∈ Pass.all := standard_subset_all (List.mem_of_mem_take hpass)
  exact Pass.keepsOpenings_of_mem_all hmem (by simpa using List.all_eq_true.1 hnames pass hpass)

/-- The body binds the inputs of the method in its first units and its first locals, and nothing
refers to these units. Their locals keep their names where no two inputs share one. -/
structure Body.Binds (m : Signature) (b : Body) : Prop where
  units : b.units.take m.inputCount = m.opening
  locals : (b.locals.take m.inputCount).map (fun l ↦ (l.id, l.ty)) =
    m.boundLocals.map fun l ↦ (l.id, l.ty)
  names : (m.boundLocals.map (·.name)).Nodup → b.locals.take m.inputCount = m.boundLocals
  targets : ∀ u ∈ b.units, ∀ t ∈ u.stmt.targets, t ∉ m.opening.map (·.id)
  refs : ∀ t ∈ b.traps, ∀ u ∈ t.refs, u ∉ m.opening.map (·.id)

theorem LocalNames.binds_revise {m : Signature} {b : Body} (h : b.Opens m) :
    (revise b).body.Binds m := by
  obtain ⟨rest, hrest⟩ := h.locals
  refine ⟨h.take_units, ?_, fun hn ↦ ?_, fun u hu t ht ↦ h.not_target hu ht,
    fun t ht u hu ↦ h.not_ref ht hu⟩
  · change ((disambiguate [] 0 b.locals).1.take m.inputCount).map (fun l ↦ (l.id, l.ty)) = _
    rw [List.map_take, types_disambiguate, ← hrest, List.map_append]
    exact List.take_left' (by simp)
  · have hpre := prefix_disambiguate [] 0 m.boundLocals rest hn (by simp)
    rw [hrest] at hpre
    have htake := List.prefix_iff_eq_take.1 hpre
    rw [Signature.length_boundLocals] at htake
    exact htake.symm

namespace Lowering

variable {α : Type}

def returning : Lowering String where
  frontEnd name scope :=
    match scope.lookup name with
    | some x => .ok { units := [⟨⟨0⟩, .nop⟩, ⟨⟨1⟩, .ret (some (.var x))⟩] }
    | none => .error (.unsupported (.construct name))

def second : Method String where
  signature :=
    { declaringType := "Demo", name := "second",
      parameters := [⟨some "m", .int⟩, ⟨some "n", .int⟩], returnType := .int }
  code := "n"

theorem refsFit_second : returning.RefsFit second := by
  intro st f _ hf
  simp only [returning] at hf
  split at hf
  · obtain rfl := Except.ok.inj hf
    refine ⟨by simp [Stmt.targets], by simp, by simp⟩
  · cases hf

def relaying : Lowering Fragment where
  frontEnd f _ := .ok f

def circle (f : Fragment) : Method Fragment where
  signature :=
    { declaringType := "Demo", name := "circle", isStatic := true,
      parameters := [⟨some "n", .int⟩], returnType := .void }
  code := f

end Lowering

end ThreeAddress
