import ThreeAddress.Proofs.Body.Skipping
import ThreeAddress.Proofs.Flow.Reached
import ThreeAddress.Proofs.Flow.Traces
import ThreeAddress.Proofs.Pass.Tightness

namespace ThreeAddress

namespace Body

variable {b : Body} {u w : UnitId} {s : Stmt} {z : LocalId} {t : Trap} {p q : Nat}

/-- The local is live where the unit begins. -/
def Needs (b : Body) (u : UnitId) (z : LocalId) : Prop :=
  ∃ p, b.ids[p]? = some u ∧ z ∈ b.liveness.liveIn p

theorem needs_of_uses (hn : b.ids.Nodup) (hs : b.stmt? u = some s) (hz : z ∈ s.uses) :
    b.Needs u z := by
  obtain ⟨p, hp, hunit⟩ := exists_position_of_stmt? hn hs
  exact ⟨p, hp, mem_liveIn.2 ⟨p, ⟨s, stmtAt?_of_unit hunit, hz⟩, .refl⟩⟩

theorem Needs.of_keeps (hn : b.ids.Nodup) (h : b.Needs w z) (hp : b.ids[p]? = some u)
    (hq : b.ids[q]? = some w) (hk : b.Keeps z p q) : b.Needs u z := by
  obtain ⟨q', hq', hz⟩ := h
  obtain rfl := index_unique hn hq hq'
  exact ⟨p, hp, liveIn_of_keeps hk hz⟩

theorem not_needs_of_isUnused (hn : b.ids.Nodup) (hp : b.units[p]? = some ⟨u, s⟩)
    (hd : s.def? = some z) (hunused : b.reaching.isUnused p = true) (hf : s.fallsThrough = true)
    (hw : b.successor? u = some w) : ¬ b.Needs w z := by
  intro ⟨q, hq, hz⟩
  have hdef : (b.stmtAt? p).bind Stmt.def? = some z := by
    rw [stmtAt?_of_unit hp, Option.bind_some, hd]
  rw [successor?_of_getElem? hn (id_of_unit hp)] at hw
  obtain rfl := index_unique hn hw hq
  exact (isUnused_iff_not_live hdef).1 hunused _ (.inl (mem_succs_of_successor? hp hf hw)) hz

/-- The unit assigns to a local what is there already, or a value that is needed no more and that
nothing but an allocation may be done for. -/
def Dispensable (b : Body) (u : UnitId) : Prop :=
  ∃ z e, b.stmt? u = some (.assign (.var z) e) ∧
    (e = .value (.var z) ∨
      (e.isPure = true ∨ e.isAllocation = true) ∧ ∀ w, b.successor? u = some w → ¬ b.Needs w z)

end Body

theorem Expr.isPure_mapValues (f : Value → Value) (e : Expr) :
    (e.mapValues f).isPure = e.isPure := by
  cases e <;> rfl

theorem Stmt.def?_of_targets {s : Stmt} {t : UnitId} (h : t ∈ s.targets) : s.def? = none := by
  cases s <;> first | rfl | simp [targets] at h

namespace Semantics

variable {V H E : Type}

/-- Pure expressions do no more than yield a value, allocations no more that could be noticed, and
nothing raises an exception but what may throw. -/
structure Discreet (M : Semantics V H E) (alike : H → H → Prop) : Prop where
  respects : M.Respects alike
  pure : ∀ {e : Expr}, e.isPure = true → ∀ vs h, ∃ v, ∀ r, M.compute e vs h r ↔ r = (.ok v, h)
  allocates : ∀ ty h, ∃ v h', M.compute (.new ty) [] h (.ok v, h')
  allocated : ∀ {ty h r}, M.compute (.new ty) [] h r → ∃ v h', r = (.ok v, h') ∧ alike h h'
  raises : ∀ {e vs h x h'}, M.compute e vs h (.error x, h') → e.mayThrow = true
  static : ∀ ref v h x, M.putField none ref v h ≠ .error x

variable {M : Semantics V H E} {alike : H → H → Prop} {b c : Body} {f : UnitId → UnitId}
  {u w : UnitId} {σ σ' τ : State V H} {s : Stmt} {x y : Config V H} {r r' : Result V H E}
  {v : Visit V E} {vs vs' : List (Visit V E)}

theorem Discreet.mayThrow_expr (hM : M.Discreet alike) {e : Expr} {x : E} {h : H}
    (he : M.Yields σ (.error x, h) e) : e.mayThrow = true := by
  cases e with
  | value | compare => cases he
  | _ =>
    rw [← Expr.mayThrow_mapValues fun _ ↦ .const .null]
    exact hM.raises he

theorem Discreet.mayThrow_place (hM : M.Discreet alike) {place : Place} {v : V} {x : E}
    (hp : M.put v σ place = .error x) : place.mayThrow = true := by
  cases place with
  | var z => cases hp
  | field receiver ref =>
    cases receiver with
    | none =>
      obtain ⟨h, hput⟩ : ∃ h, M.putField none ref v σ.heap = .ok h := by
        cases hput : M.putField none ref v σ.heap with
        | ok h => exact ⟨h, rfl⟩
        | error y => exact absurd hput (hM.static ref v σ.heap y)
      simp [put, hput, Except.map] at hp
    | some w => rfl
  | element array index => rfl

theorem Discreet.mayThrow (hM : M.Discreet alike) {x : E} (h : M.Exec σ s (.raise x σ')) :
    s.mayThrow = true := by
  cases h with
  | exprRaises he => simp [Stmt.mayThrow, hM.mayThrow_expr he]
  | putRaises he hp => simp [Stmt.mayThrow, hM.mayThrow_place hp]
  | invokeRaises | throw => rfl

theorem Discreet.carries (hM : M.Discreet alike) (hb : b.Coherent) (hs : b.stmt? u = some s) :
    M.Carries b b.Needs u s := by
  obtain ⟨p, hp, hunit⟩ := Body.exists_position_of_stmt? hb.nodup hs
  have hat : b.stmtAt? p = some s := Body.stmtAt?_of_unit hunit
  refine ⟨⟨fun hf w hw z hz ↦ ?_, fun t ht z hz ↦ ?_, fun σ e σ' he t ht z hz ↦ ?_⟩,
    fun z ↦ Body.needs_of_uses hb.nodup hs⟩
  · rw [Body.successor?_of_getElem? hb.nodup hp] at hw
    by_cases hd : s.def? = some z
    · exact .inr hd
    · refine .inl (hz.of_keeps hb.nodup hp hw (.inl ⟨?_, by rwa [hat, Option.bind_some]⟩))
      exact Body.mem_succs_of_successor? hunit hf hw
  · obtain ⟨q, hq⟩ := List.getElem?_of_mem (hb.targets _ (List.mem_of_getElem? hunit) t ht)
    refine hz.of_keeps hb.nodup hp hq (.inl ⟨Body.mem_succs_of_targets hb.nodup hunit ht hq, ?_⟩)
    rw [hat, Option.bind_some, Stmt.def?_of_targets ht]
    exact (Option.some_ne_none z).symm
  · obtain ⟨q, hq⟩ := List.getElem?_of_mem (hb.handlers t ((Body.mem_around hb.nodup).1 ht).1)
    exact hz.of_keeps hb.nodup hp hq
      (.inr (Body.mem_catches_of_around hb.nodup hunit (hM.mayThrow he) ht hq))

theorem Discreet.yields (hM : M.Discreet alike) {e : Expr}
    (he : e.isPure = true ∨ e.isAllocation = true) (σ : State V H) :
    (∃ v h, M.Yields σ (.ok v, h) e) ∧
      ∀ r, M.Yields σ r e → ∃ v h, r = (.ok v, h) ∧ alike σ.heap h := by
  have hrefl : alike σ.heap σ.heap := hM.respects.equivalence.refl _
  have hcopy {v : V} : ∀ r : Except E V × H, r = (.ok v, σ.heap) →
      ∃ v h, r = (.ok v, h) ∧ alike σ.heap h := fun r hr ↦ ⟨v, σ.heap, hr, hrefl⟩
  cases e with
  | value | compare => exact ⟨⟨_, _, rfl⟩, hcopy⟩
  | new ty => exact ⟨hM.allocates ty σ.heap, fun r hr ↦ hM.allocated hr⟩
  | _ =>
    have hpure := he.resolve_right Bool.false_ne_true
    rw [← Expr.isPure_mapValues fun _ ↦ .const .null] at hpure
    obtain ⟨v, hv⟩ := hM.pure hpure _ σ.heap
    exact ⟨⟨v, σ.heap, (hv _).2 rfl⟩, fun r hr ↦ hcopy r ((hv r).1 hr)⟩

theorem Discreet.agree_behind (hM : M.Discreet alike) (hb : b.Coherent) {z : LocalId} {e : Expr}
    (hs : b.stmt? u = some (.assign (.var z) e))
    (hcause : e = .value (.var z) ∨ ¬ b.Needs w z) (hw : b.successor? u = some w) {v : V} {h : H}
    (hv : M.Yields σ (.ok v, h) e) (hh : alike σ.heap h) (ha : Agree alike (b.Needs u) σ τ) :
    Agree alike (b.Needs w) ⟨Function.update σ.locals z v, h⟩ τ := by
  refine ⟨?_, fun y hy ↦ ?_⟩
  · exact hM.respects.equivalence.trans (hM.respects.equivalence.symm hh) ha.heap
  · by_cases hyz : y = z
    · subst hyz
      obtain rfl := hcause.resolve_right (not_not.2 hy)
      cases hv
      have hread : b.Needs u y := Body.needs_of_uses hb.nodup hs (by
        simp [Stmt.uses, Stmt.values, Place.values, Expr.values, Value.var?])
      simpa [value, Value.eval] using ha.locals y hread
    · have hyu : b.Needs u y := by
        obtain hyu | hd := (hM.carries hb hs).next rfl w hw y hy
        · exact hyu
        · exact absurd (Option.some.inj hd).symm hyz
      simpa [Function.update_of_ne hyz] using ha.locals y hyu

/-- A dispensable unit leads on to the next one, and to nothing else. What agrees with another state
before it, as far as needed, does so behind it. -/
theorem Discreet.passes (hM : M.Discreet alike) (hb : b.Coherent) (hu : b.Dispensable u)
    (hw : b.successor? u = some w) (σ : State V H) :
    (∃ v σ', M.Shows b (u, σ) v (.ok (w, σ'))) ∧
      ∀ v r, M.Shows b (u, σ) v r → ∃ σ', r = .ok (w, σ') ∧
        ∀ τ, Agree alike (b.Needs u) σ τ → Agree alike (b.Needs w) σ' τ := by
  obtain ⟨z, e, hs, hcause⟩ := hu
  have hpure : e.isPure = true ∨ e.isAllocation = true := by
    obtain rfl | ⟨he, -⟩ := hcause
    · exact .inl rfl
    · exact he
  obtain ⟨⟨v₀, h₀, hyields⟩, hall⟩ := hM.yields hpure σ
  have hland (v : V) (h : H) : M.land b u (.assign (.var z) e)
      (.ofPut { σ with heap := h } (M.put v { σ with heap := h } (.var z))) =
      .ok (w, ⟨Function.update σ.locals z v, h⟩) := by
    simp [land, put, Outcome.ofPut, follow?, hw]
  refine ⟨⟨_, _, _, _, _, hs, .stores hyields, rfl, (hland v₀ h₀).symm⟩, ?_⟩
  intro v r hshows
  obtain ⟨s', k, o, hs', hk, -, rfl⟩ := hshows
  obtain rfl := Option.some.inj (hs.symm.trans hs')
  cases hk with
  | @stores _ _ v h hv =>
    obtain ⟨v', h', heq, hh⟩ := hall _ hv
    cases heq
    have hneeds := hcause.imp_right fun hc ↦ hc.2 w hw
    exact ⟨_, hland v h, fun τ ha ↦ hM.agree_behind hb hs hneeds hw hv hh ha⟩
  | fails hv =>
    obtain ⟨v', h', heq, -⟩ := hall _ hv
    cases heq
  | plain hne => exact absurd rfl (hne _ _)

/-- The visits to the units of a body. -/
def visitsOf (b : Body) (vs : List (Visit V E)) : List (Visit V E) :=
  vs.filter fun v ↦ v.unit ∈ b.ids

theorem Shows.unit_eq (h : M.Shows b x v r) : v.unit = x.1 := by
  obtain ⟨s, k, o, -, -, rfl, -⟩ := h
  rfl

theorem visitsOf_cons_of_mem (hv : M.Shows b x v r) (hx : x.1 ∈ c.ids) :
    visitsOf c (v :: vs) = v :: visitsOf c vs :=
  List.filter_cons_of_pos (by simpa [hv.unit_eq] using hx)

theorem visitsOf_cons_of_not_mem (hv : M.Shows b x v r) (hx : x.1 ∉ c.ids) :
    visitsOf c (v :: vs) = visitsOf c vs :=
  List.filter_cons_of_neg (by simpa [hv.unit_eq] using hx)

theorem Shows.mem_ids (hb : b.Coherent) (h : M.Shows b x v (.ok y)) : y.1 ∈ b.ids :=
  Step.mem_ids hb (acts_iff_shows.2 ⟨v, h⟩)

theorem Shows.source_mem (h : M.Shows b x v r) : x.1 ∈ b.ids := by
  obtain ⟨s, hs⟩ := h.exists_stmt
  exact Body.mem_ids_of_stmt? hs

/-- What a run shows without the visits to dispensable units, a run without these units shows. -/
theorem Run.abridge (hM : M.Discreet alike) (hb : b.Coherent) (hc : Body.Skips f b c)
    (hspare : ∀ u ∈ b.ids, u ∉ c.ids → b.Dispensable u) (h : M.Run b x vs r)
    (ha : Agree alike (b.Needs x.1) x.2 τ) :
    ∃ r', M.Run c (f x.1, τ) (visitsOf c vs) r' ∧ Result.Alike alike b.Needs f r r' := by
  induction h generalizing τ with
  | stay x => exact ⟨_, .stay _, .ok ha⟩
  | @go x y v vs r hv _ ih =>
    by_cases hx : x.1 ∈ c.ids
    · obtain ⟨s, hs⟩ := hv.exists_stmt
      obtain ⟨r', hv', hr'⟩ := hv.forth hM.respects hc.moved hx hs (hM.carries hb hs) ha
      cases hr' with
      | @ok w σ' τ' ha' =>
        obtain ⟨r'', hrun, hr''⟩ := ih ha'
        rw [hc.fixed x.1 hx, visitsOf_cons_of_mem hv hx]
        exact ⟨r'', .go hv' hrun, hr''⟩
    · obtain ⟨w, hw, hfw⟩ := hc.skipped x.1 hv.source_mem hx
      obtain ⟨σ', he, hagree⟩ := (hM.passes hb (hspare x.1 hv.source_mem hx) hw x.2).2 v _ hv
      cases he
      obtain ⟨r', hrun, hr'⟩ := ih (hagree τ ha)
      rw [hfw, visitsOf_cons_of_not_mem hv hx]
      exact ⟨r', hrun, hr'⟩
  | @stop x v o hv =>
    by_cases hx : x.1 ∈ c.ids
    · obtain ⟨s, hs⟩ := hv.exists_stmt
      obtain ⟨r', hv', hr'⟩ := hv.forth hM.respects hc.moved hx hs (hM.carries hb hs) ha
      cases hr' with
      | error ho =>
        rw [hc.fixed x.1 hx, visitsOf_cons_of_mem hv hx]
        exact ⟨_, .stop hv', .error ho⟩
    · obtain ⟨w, hw, -⟩ := hc.skipped x.1 hv.source_mem hx
      obtain ⟨σ', he, -⟩ := (hM.passes hb (hspare x.1 hv.source_mem hx) hw x.2).2 v _ hv
      cases he

theorem Discreet.reaches_kept (hM : M.Discreet alike) (hb : b.Coherent) (hc : Body.Skips f b c)
    (hspare : ∀ u ∈ b.ids, u ∉ c.ids → b.Dispensable u) (hu : u ∈ b.ids)
    (ha : Agree alike (b.Needs u) σ τ) : ∃ vs w σ', M.Run b (u, σ) vs (.ok (w, σ')) ∧
      visitsOf c vs = [] ∧ w ∈ c.ids ∧ f u = w ∧ Agree alike (b.Needs w) σ' τ := by
  obtain ⟨p, hp⟩ := List.getElem?_of_mem hu
  -- on the number of units from there to the end
  induction hd : b.size - p using Nat.strong_induction_on generalizing u p σ with
  | _ d ih =>
    by_cases hkept : u ∈ c.ids
    · exact ⟨[], u, σ, .stay _, rfl, hkept, hc.fixed u hkept, ha⟩
    · obtain ⟨w, hw, hfw⟩ := hc.skipped u hu hkept
      obtain ⟨⟨v, σ', hv⟩, hall⟩ := hM.passes hb (hspare u hu hkept) hw σ
      obtain ⟨σ'', he, hagree⟩ := hall v _ hv
      cases he
      rw [Body.successor?_of_getElem? hb.nodup hp] at hw
      have hlt := Body.lt_size_of_getElem? hw
      obtain ⟨vs, w', τ', hrun, hvs, hw', hf, ha'⟩ :=
        ih (b.size - (p + 1)) (by omega) (List.mem_of_getElem? hw) (hagree τ ha) (p + 1) hw rfl
      refine ⟨v :: vs, w', τ', .go hv hrun, ?_, hw', hfw.trans hf, ha'⟩
      rw [visitsOf_cons_of_not_mem hv hkept, hvs]

theorem visitsOf_append (c : Body) (vs vs' : List (Visit V E)) :
    visitsOf c (vs ++ vs') = visitsOf c vs ++ visitsOf c vs' :=
  List.filter_append ..

theorem visitsOf_visitsOf {d : Body} (h : d.ids ⊆ c.ids) (vs : List (Visit V E)) :
    visitsOf d (visitsOf c vs) = visitsOf d vs := by
  rw [visitsOf, visitsOf, List.filter_filter]
  refine List.filter_congr fun v _ ↦ ?_
  simpa using fun hv ↦ h hv

/-- What a unit that stays does, it does when the dispensable units before it have been passed. -/
theorem Shows.complete (hM : M.Discreet alike) (hb : b.Coherent) (hc : Body.Skips f b c)
    (hspare : ∀ u ∈ b.ids, u ∉ c.ids → b.Dispensable u) (h : M.Shows c y v r') (hu : u ∈ b.ids)
    (hy : y.1 = f u) (ha : Agree alike (b.Needs u) σ y.2) :
    ∃ vs x r, M.Run b (u, σ) vs (.ok x) ∧ visitsOf c vs = [] ∧ x.1 ∈ c.ids ∧
      M.Shows b x v r ∧ Result.Alike alike b.Needs f r r' := by
  obtain ⟨vs, w, σ', hreach, hnone, hw, hf, ha'⟩ := hM.reaches_kept hb hc hspare hu ha
  obtain ⟨w', τ⟩ := y
  obtain rfl : w' = w := hy.trans hf
  obtain ⟨s, hs⟩ : ∃ s, b.stmt? w' = some s := by
    obtain ⟨s', hs'⟩ := h.exists_stmt
    rw [hc.moved.stmt w' hw] at hs'
    obtain ⟨s, hs, -⟩ := Option.map_eq_some_iff.1 hs'
    exact ⟨s, hs⟩
  obtain ⟨r, hv, hr⟩ := h.back hM.respects hc.moved hw hs (hM.carries hb hs) ha'
  exact ⟨vs, (w', σ'), r, hreach, hnone, hw, hv, hr⟩

/-- What a run without dispensable units shows, one with them shows, but for the visits to them. -/
theorem Run.complete (hM : M.Discreet alike) (hb : b.Coherent) (hc : Body.Skips f b c)
    (hspare : ∀ u ∈ b.ids, u ∉ c.ids → b.Dispensable u) (h : M.Run c y vs' r') (hu : u ∈ b.ids)
    (hy : y.1 = f u) (ha : Agree alike (b.Needs u) σ y.2) :
    ∃ vs r, M.Run b (u, σ) vs r ∧ visitsOf c vs = vs' ∧ Result.Alike alike b.Needs f r r' := by
  induction h generalizing u σ with
  | stay y =>
    obtain ⟨w, τ⟩ := y
    cases hy
    exact ⟨[], _, .stay _, rfl, .ok ha⟩
  | @go y y' v vs' r' hv' _ ih =>
    obtain ⟨vs, x, r, hreach, hnone, hx, hv, hr⟩ := hv'.complete hM hb hc hspare hu hy ha
    cases hr with
    | ok ha' =>
      obtain ⟨vs'', r, hrun, hvs'', hr⟩ := ih (hv.mem_ids hb) rfl ha'
      refine ⟨vs ++ v :: vs'', r, hreach.append (.go hv hrun), ?_, hr⟩
      rw [visitsOf_append, hnone, visitsOf_cons_of_mem hv hx, hvs'', List.nil_append]
  | @stop y v o hv' =>
    obtain ⟨vs, x, r, hreach, hnone, hx, hv, hr⟩ := hv'.complete hM hb hc hspare hu hy ha
    cases hr with
    | error ho =>
      refine ⟨vs ++ [v], _, hreach.append (.stop hv), ?_, .error ho⟩
      rw [visitsOf_append, hnone, visitsOf_cons_of_mem hv hx]
      rfl

/-- The runs of `c` from its first unit show what the runs of `b` show at the units of `c`, and come
to the same units or end in the same way. -/
structure Retraces (M : Semantics V H E) (alike : H → H → Prop) (f : UnitId → UnitId)
    (b c : Body) : Prop where
  forth : ∀ u, b.first? = some u → ∀ σ vs r, M.Run b (u, σ) vs r →
    ∃ r', M.Run c (f u, σ) (visitsOf c vs) r' ∧ Result.Alike alike (fun _ _ ↦ False) f r r'
  back : ∀ u, b.first? = some u → ∀ σ vs' r', M.Run c (f u, σ) vs' r' →
    ∃ vs r, M.Run b (u, σ) vs r ∧ visitsOf c vs = vs' ∧
      Result.Alike alike (fun _ _ ↦ False) f r r'

theorem Retraces.trans (hM : M.Respects alike) {g : UnitId → UnitId} {d : Body}
    (h : M.Retraces alike f b c) (h' : M.Retraces alike g c d) (hc : Body.Skips f b c)
    (hd : Body.Skips g c d) : M.Retraces alike (g ∘ f) b d := by
  have hvisits (vs : List (Visit V E)) : visitsOf d (visitsOf c vs) = visitsOf d vs :=
    visitsOf_visitsOf hd.units.subset vs
  have hfirst {u : UnitId} (hu : b.first? = some u) : c.first? = some (f u) := by
    rw [hc.first, hu, Option.map_some]
  constructor
  · intro u hu σ vs r hrun
    obtain ⟨r', hrun', hr'⟩ := h.forth u hu σ vs r hrun
    obtain ⟨r'', hrun'', hr''⟩ := h'.forth (f u) (hfirst hu) σ _ r' hrun'
    rw [hvisits] at hrun''
    exact ⟨r'', hrun'', hr'.trans hM hr'' fun _ _ hz ↦ hz.elim⟩
  · intro u hu σ vs'' r'' hrun''
    obtain ⟨vs', r', hrun', hvs', hr''⟩ := h'.back (f u) (hfirst hu) σ vs'' r'' hrun''
    obtain ⟨vs, r, hrun, hvs, hr'⟩ := h.back u hu σ vs' r' hrun'
    exact ⟨vs, r, hrun, by rw [← hvs', ← hvs, hvisits], hr'.trans hM hr'' fun _ _ hz ↦ hz.elim⟩

theorem Discreet.retraces (hM : M.Discreet alike) (hb : b.Coherent) (hc : Body.Skips f b c)
    (hspare : ∀ u ∈ b.ids, u ∉ c.ids → b.Dispensable u) : M.Retraces alike f b c := by
  constructor
  · intro u hu σ vs r hrun
    obtain ⟨r', hrun', hr'⟩ := hrun.abridge hM hb hc hspare (.refl hM.respects σ)
    exact ⟨r', hrun', hr'.mono fun _ _ hz ↦ hz.elim⟩
  · intro u hu σ vs' r' hrun'
    rw [Body.first?_eq] at hu
    obtain ⟨vs, r, hrun, hvs, hr⟩ :=
      hrun'.complete hM hb hc hspare (List.mem_of_getElem? hu) rfl (.refl hM.respects σ)
    exact ⟨vs, r, hrun, hvs, hr.mono fun _ _ hz ↦ hz.elim⟩

end Semantics

end ThreeAddress
