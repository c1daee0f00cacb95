import ThreeAddress.Proofs.Flow.Traces
import ThreeAddress.Proofs.Pass.FoldedPairs
import ThreeAddress.Proofs.WellFormedness

namespace ThreeAddress

namespace Semantics

variable {V H E : Type}

def Event.written? : Event V E → Option LocalId
  | .write x _ => some x
  | _ => none

def hide (hidden : List LocalId) (ks : List (Event V E)) : List (Event V E) :=
  ks.filter fun k ↦ k.written?.all (· ∉ hidden)

def seen (hidden : List LocalId) (vs : List (Visit V E)) : List (Event V E) :=
  hide hidden (vs.flatMap (·.events))

/-- The run stands at a unit of the body, if it has not ended. -/
def Settled (c : Body) (r : Result V H E) : Prop := ∀ y, r = .ok y → y.1 ∈ c.ids

abbrev Matches (hidden : List LocalId) : Result V H E → Result V H E → Prop :=
  Result.Alike Eq (fun _ z ↦ z ∉ hidden) fun u ↦ u

/-- From the first unit on, the runs of `b` and of `c` show the same but for what hidden locals
receive. A run of `b` that stands at a unit which `c` is without may have part of what that unit
belongs to still before it. -/
structure Mirrors (M : Semantics V H E) (hidden : List LocalId) (b c : Body) : Prop where
  forth : ∀ u, b.first? = some u → ∀ σ vs r, M.Run b (u, σ) vs r →
    ∃ vs' r', M.Run c (u, σ) vs' r' ∧ seen hidden vs <+: seen hidden vs' ∧
      (Settled c r → seen hidden vs' = seen hidden vs ∧ Matches hidden r r')
  back : ∀ u, b.first? = some u → ∀ σ vs' r', M.Run c (u, σ) vs' r' →
    ∃ vs r, M.Run b (u, σ) vs r ∧ seen hidden vs = seen hidden vs' ∧ Matches hidden r r'

variable {M : Semantics V H E} {b c d : Body} {u w : UnitId} {x : LocalId} {e : Expr}
  {place : Place} {hidden xs : List LocalId} {σ τ : State V H} {y z : Config V H}
  {r r' : Result V H E} {v : Visit V E} {vs vs' : List (Visit V E)} {ks ks' : List (Event V E)}

theorem hide_append : hide hidden (ks ++ ks') = hide hidden ks ++ hide hidden ks' :=
  List.filter_append ..

theorem hide_hide (ks : List (Event V E)) : hide xs (hide hidden ks) = hide (hidden ++ xs) ks := by
  rw [hide, hide, List.filter_filter, hide]
  refine List.filter_congr fun k _ ↦ ?_
  cases k.written? <;> simp [Bool.and_comm]

theorem hide_comm (ks : List (Event V E)) : hide xs (hide hidden ks) = hide hidden (hide xs ks) :=
  List.filter_comm ..

theorem hide_prefix (h : ks <+: ks') : hide hidden ks <+: hide hidden ks' :=
  h.filter _

theorem hide_evaluation (σ : State V H) (e : Expr) :
    hide hidden (M.evaluation σ e) = M.evaluation σ e := by
  refine List.filter_eq_self.2 fun k hk ↦ ?_
  cases e with
  | value => simp [evaluation] at hk
  | _ =>
    obtain rfl := List.mem_singleton.1 hk
    rfl

theorem hide_write_self (v : V) : hide (E := E) [x] [.write x v] = [] := by
  simp [hide, Event.written?]

theorem seen_cons : seen hidden (v :: vs) = hide hidden v.events ++ seen hidden vs := by
  rw [seen, List.flatMap_cons, hide_append, seen]

theorem seen_append : seen hidden (vs ++ vs') = seen hidden vs ++ seen hidden vs' := by
  rw [seen, List.flatMap_append, hide_append, seen, seen]

theorem seen_singleton : seen hidden [v] = hide hidden v.events := by
  rw [seen, List.flatMap_singleton]

theorem seen_hidden (vs : List (Visit V E)) : seen (hidden ++ xs) vs = hide xs (seen hidden vs) :=
  (hide_hide _).symm

theorem seen_hidden' (vs : List (Visit V E)) : seen (hidden ++ xs) vs = hide hidden (seen xs vs) :=
  (seen_hidden vs).trans (hide_comm _)

theorem Matches.settled (h : Matches hidden r r') (hr : Settled c r) : Settled c r' := by
  cases h with
  | @ok u σ τ ha =>
    intro y hy
    obtain rfl := Except.ok.inj hy
    exact hr (u, σ) rfl
  | error => exact nofun

theorem Matches.trans (M : Semantics V H E) {r'' : Result V H E} (h : Matches hidden r r')
    (h' : Matches xs r' r'') : Matches (hidden ++ xs) r r'' :=
  Result.Alike.trans (respects_eq M) h h' fun _ z hz ↦ by simpa [not_or] using hz

theorem Mirrors.refl (M : Semantics V H E) (b : Body) : M.Mirrors [] b b where
  forth _ _ _ vs r hrun := ⟨vs, r, hrun, List.prefix_rfl, fun _ ↦ ⟨rfl, .refl (respects_eq M) r⟩⟩
  back _ _ _ vs r hrun := ⟨vs, r, hrun, rfl, .refl (respects_eq M) r⟩

theorem Mirrors.trans (h : M.Mirrors hidden b c) (h' : M.Mirrors xs c d)
    (hfirst : c.first? = b.first?) (hsub : d.ids ⊆ c.ids) : M.Mirrors (hidden ++ xs) b d := by
  constructor
  · intro u hu σ vs r hrun
    obtain ⟨vs', r', hrun', hprefix, hsettled⟩ := h.forth u hu σ vs r hrun
    obtain ⟨vs'', r'', hrun'', hprefix', hsettled'⟩ := h'.forth u (hfirst.trans hu) σ vs' r' hrun'
    refine ⟨vs'', r'', hrun'', ?_, fun hr ↦ ?_⟩
    · have hfirst : seen (hidden ++ xs) vs <+: seen (hidden ++ xs) vs' := by
        rw [seen_hidden, seen_hidden]
        exact hide_prefix hprefix
      have hsecond : seen (hidden ++ xs) vs' <+: seen (hidden ++ xs) vs'' := by
        rw [seen_hidden', seen_hidden']
        exact hide_prefix hprefix'
      exact hfirst.trans hsecond
    · obtain ⟨hseen, hr'⟩ := hsettled fun y hy ↦ hsub (hr y hy)
      obtain ⟨hseen', hr''⟩ := hsettled' (hr'.settled hr)
      refine ⟨?_, hr'.trans M hr''⟩
      rw [seen_hidden', hseen', ← seen_hidden', seen_hidden, hseen, ← seen_hidden]
  · intro u hu σ vs'' r'' hrun''
    obtain ⟨vs', r', hrun', hseen', hr'⟩ := h'.back u (hfirst.trans hu) σ vs'' r'' hrun''
    obtain ⟨vs, r, hrun, hseen, hr⟩ := h.back u hu σ vs' r' hrun'
    refine ⟨vs, r, hrun, ?_, hr.trans M hr'⟩
    rw [seen_hidden, hseen, ← seen_hidden, seen_hidden', hseen', ← seen_hidden']

/-- Where the two runs stand. Behind the first unit of the pair, the merged body has the pair still
before it, and owes what has been seen of the evaluation. -/
inductive Stands (M : Semantics V H E) (u w : UnitId) (x : LocalId) (e : Expr) :
    Config V H → Config V H → List (Event V E) → Prop
  | apart {a : UnitId} {σ τ : State V H} : a ≠ w → Agree Eq (· ∉ [x]) σ τ →
      Stands M u w x e (a, σ) (a, τ) []
  | between {σ τ : State V H} : M.Yields τ (.ok (σ.locals x), σ.heap) e →
      Agree Eq (· ∉ [x]) σ { τ with heap := σ.heap } →
      Stands M u w x e (w, σ) (u, τ) (M.evaluation τ e)

theorem agree_between (ha : Agree Eq (· ∉ [x]) σ τ) (v : V) (g : H) :
    Agree Eq (· ∉ [x]) ⟨Function.update σ.locals x v, g⟩ { τ with heap := g } := by
  refine ⟨rfl, fun z hz ↦ ?_⟩
  have hzx : z ≠ x := fun he ↦ hz (he ▸ List.mem_singleton_self x)
  simpa [Function.update_of_ne hzx] using ha.locals z hz

/-- The two runs come to the same, and not to stand between the two units. -/
structure Lands (w : UnitId) (x : LocalId) (r r' : Result V H E) : Prop where
  same : Matches [x] r r'
  apart : ∀ y, r = .ok y → y.1 ≠ w

def copying (M : Semantics V H E) (a : UnitId) (place : Place) (x : LocalId) (σ : State V H) :
    Visit V E where
  unit := a
  operands := (Stmt.assign place (.value (.var x))).values.map (M.value · σ)
  events := M.storing (σ.locals x) σ place ++
    (Outcome.ofPut σ (M.put (σ.locals x) σ place)).raised

theorem shows_copy_iff (hs : b.stmt? w = some (.assign place (.value (.var x)))) :
    M.Shows b (w, σ) v r ↔ v = M.copying w place x σ ∧
      r = M.land b w (.assign place (.value (.var x)))
        (.ofPut σ (M.put (σ.locals x) σ place)) := by
  constructor
  · intro hshows
    obtain ⟨s, k, o, hs', hk, rfl, rfl⟩ := hshows
    obtain rfl := Option.some.inj (hs.symm.trans hs')
    cases hk with
    | stores hv =>
      cases hv
      exact ⟨rfl, rfl⟩
    | fails hv => cases hv
    | plain hne => exact absurd rfl (hne _ _)
  · intro ⟨hv, hr⟩
    exact ⟨_, _, _, hs, .stores rfl, hv, hr⟩

theorem events_write (v : V) (g : H) : M.evaluation σ e ++ M.storing v σ (.var x) ++
    (Outcome.ofPut { σ with heap := g } (M.put v { σ with heap := g } (.var x))).raised =
      M.evaluation σ e ++ [.write x v] := by
  simp [put, storing, Outcome.ofPut, Outcome.raised]

section

variable {s s' : Stmt} {o o' : Outcome V H E} {a : UnitId} {owed : List (Event V E)}
  (h : b.Fused c u w x e place)

include h

theorem ne_of_fused : u ≠ w := by
  have hu : u ∈ c.ids := Body.mem_ids_of_stmt? h.fused
  exact ((h.mem_ids u).1 hu).2

theorem apart_of_fused :
    (∀ z ∈ place.values.filterMap Value.var?, z ∉ [x]) ∧ ∀ z ∈ e.uses, z ∉ [x] := by
  have habsent := h.absent
  rw [Stmt.locals_assign, List.mem_append, List.mem_append, not_or, not_or] at habsent
  exact ⟨fun _ hz ↦ List.disjoint_singleton.2 habsent.1.1 hz,
    fun _ hz ↦ List.disjoint_singleton.2 habsent.1.2 hz⟩

/-- Control comes to the second unit of the pair from the first one only, in sequence. -/
theorem ne_of_land (hs : b.stmt? a = some s) (ha : a ≠ u ∨ ∀ σ', o ≠ .next σ')
    (hl : M.land b a s o = .ok y) : y.1 ≠ w := by
  rw [land] at hl
  cases hf : M.follow? b a s o with
  | none => simp [hf] at hl
  | some z =>
    rw [hf] at hl
    obtain rfl := Except.ok.inj hl
    cases o with
    | next σ' =>
      obtain ⟨a', ha', rfl⟩ := Option.map_eq_some_iff.1 hf
      rintro rfl
      exact ha.elim (fun hne ↦ hne (h.only_next a ha')) fun hne ↦ hne σ' rfl
    | jump i σ' =>
      obtain ⟨t, ht, rfl⟩ := Option.map_eq_some_iff.1 hf
      rintro rfl
      exact h.not_target a s hs (List.mem_of_getElem? ht)
    | raise k σ' =>
      obtain ⟨t, ht, rfl⟩ := Option.map_eq_some_iff.1 hf
      exact h.not_handler t (List.mem_of_mem_filter (List.mem_of_find?_eq_some ht))
    | done => simp [follow?] at hf

theorem ne_of_shows (ha : a ≠ u) (hv : M.Shows b (a, σ) v (.ok y)) : y.1 ≠ w := by
  obtain ⟨s, k, o, hs, -, -, hl⟩ := hv
  exact ne_of_land h hs (.inl ha) hl.symm

theorem lands_raise {k : E} (hs : b.stmt? a = some s) (haround : c.around u = b.around a)
    (ha : Agree Eq (· ∉ [x]) σ τ) :
    Lands w x (M.land b a s (.raise k σ)) (M.land c u s' (.raise k τ)) := by
  refine ⟨?_, fun y ↦ ne_of_land h hs (.inr nofun)⟩
  rw [land, land, follow?, follow?, haround]
  cases (b.around a).find? (M.catches ·.exception k) with
  | none => exact .error (.raise (ha.mono fun _ hz ↦ hz.elim))
  | some t => exact .ok ⟨congrArg (M.caught k) ha.heap, ha.locals⟩

theorem lands_next (ha : Agree Eq (· ∉ [x]) σ τ) :
    Lands w x (M.land b w (.assign place (.value (.var x))) (.next σ))
      (M.land c u (.assign place e) (.next τ)) := by
  refine ⟨?_, fun y ↦ ne_of_land h h.second (.inl (ne_of_fused h).symm)⟩
  rw [land, land, follow?, follow?, h.after]
  cases b.successor? w with
  | none => exact .error (.next (ha.mono fun _ hz ↦ hz.elim).or_none)
  | some a => exact .ok ha

theorem lands_put {q q' : Except E (State V H)}
    (ha : (Outcome.ofPut σ q).Alike Eq (· ∉ [x]) place.var? (.ofPut τ q')) :
    Lands w x (M.land b w (.assign place (.value (.var x))) (.ofPut σ q))
      (M.land c u (.assign place e) (.ofPut τ q')) := by
  match q, q', ha with
  | .ok _, .ok _, .next ha => exact lands_next h (ha.mono fun z hz ↦ .inl hz)
  | .error _, .error _, .raise ha =>
    exact lands_raise h h.second (h.around_first.trans h.around_second.symm) ha

/-- What the second unit does, the unit that stands for both does behind the evaluation. -/
theorem copying_fused {v : V} {g : H} (hx : σ.locals x = v)
    (ha : Agree Eq (· ∉ [x]) σ { τ with heap := g }) :
    hide [x] (M.evaluation τ e ++ M.storing v τ place ++
        (Outcome.ofPut { τ with heap := g } (M.put v { τ with heap := g } place)).raised) =
        M.evaluation τ e ++ hide [x] (M.copying w place x σ).events ∧
      Lands w x (M.land b w (.assign place (.value (.var x)))
          (.ofPut σ (M.put (σ.locals x) σ place)))
        (M.land c u (.assign place e) (.ofPut { τ with heap := g }
          (M.put v { τ with heap := g } place))) := by
  subst hx
  have hplace := (apart_of_fused h).1
  have hput := ha.put (respects_eq M) hplace (σ.locals x)
  refine ⟨?_, lands_put h hput⟩
  have hstoring : M.storing (σ.locals x) τ place = M.storing (σ.locals x) σ place := by
    rw [ha.storing_eq hplace]
    cases place <;> rfl
  rw [List.append_assoc, hide_append, hide_evaluation, hstoring, ← hput.raised_eq, copying]

theorem carries_of_fused (hs : b.stmt? a = some s) (hu : a ≠ u) (hw : a ≠ w) :
    M.Carries b (fun _ z ↦ z ∉ [x]) a s where
  toLeads := leads_const M b _ a s
  uses _ hz := List.disjoint_singleton.2
    (fun hx ↦ h.temporary a s hs hu hw (List.mem_append_left _ hx)) hz

/-- What the first unit does when the expression has a value: it writes the temporary, and leads on
to the second unit. -/
theorem first_lands (v : V) (g : H) :
    M.land b u (.assign (.var x) e)
      (.ofPut { σ with heap := g } (M.put v { σ with heap := g } (.var x))) =
      .ok (w, ⟨Function.update σ.locals x v, g⟩) := by
  simp [land, put, Outcome.ofPut, follow?, h.next]

theorem shows_first {v : V} {g : H} (hv : M.Yields σ (.ok v, g) e) :
    M.Shows b (u, σ) ⟨u, (Stmt.assign (.var x) e).values.map (M.value · σ),
      M.evaluation σ e ++ [.write x v]⟩ (.ok (w, ⟨Function.update σ.locals x v, g⟩)) :=
  ⟨_, _, _, h.first, .stores hv, by rw [events_write], (first_lands h v g).symm⟩

theorem Stands.step_first (ha : Agree Eq (· ∉ [x]) σ τ) (hv : M.Shows b (u, σ) v r) :
    (∃ y, r = .ok y ∧ M.Stands u w x e y (u, τ) (hide [x] v.events)) ∨
      ∃ v' r', M.Shows c (u, τ) v' r' ∧ v'.events = v.events ∧ Lands w x r r' := by
  obtain ⟨s, k, o, hs, hk, rfl, rfl⟩ := hv
  obtain rfl := Option.some.inj (h.first.symm.trans hs)
  have hexpr := (apart_of_fused h).2
  cases hk with
  | @stores _ _ v g hv =>
    obtain ⟨_, hv', rfl⟩ := ha.yields (respects_eq M) hexpr hv
    refine .inl ⟨_, first_lands h v g, ?_⟩
    rw [events_write, hide_append, hide_evaluation, hide_write_self, List.append_nil,
      ha.evaluation_eq hexpr]
    exact .between (by simpa using hv') (agree_between ha v g)
  | fails hv =>
    obtain ⟨_, hv', rfl⟩ := ha.yields (respects_eq M) hexpr hv
    refine .inr ⟨_, _, ⟨_, _, _, h.fused, .fails hv', rfl, rfl⟩, ?_, ?_⟩
    · rw [ha.evaluation_eq hexpr]
      rfl
    · exact lands_raise h h.first h.around_first (ha.withHeap rfl)
  | plain hne => exact absurd rfl (hne _ _)

theorem Stands.step (hs : M.Stands u w x e y z owed) (hv : M.Shows b y v r) :
    (∃ y', r = .ok y' ∧ M.Stands u w x e y' z (owed ++ hide [x] v.events)) ∨
      ∃ v' r', M.Shows c z v' r' ∧ hide [x] v'.events = owed ++ hide [x] v.events ∧
        Lands w x r r' := by
  cases hs with
  | @apart a σ τ haw ha =>
    by_cases hau : a = u
    · subst hau
      obtain hfirst | ⟨v', r', hv', hevents, hl⟩ := step_first h ha hv
      · exact .inl hfirst
      · exact .inr ⟨v', r', hv', by rw [hevents, List.nil_append], hl⟩
    · obtain ⟨s, hs⟩ := hv.exists_stmt
      obtain ⟨r', hv', hr⟩ :=
        hv.forth (respects_eq M) h.moved ⟨hau, haw⟩ hs (carries_of_fused h hs hau haw) ha
      refine .inr ⟨v, r', hv', rfl, hr, fun y hy ↦ ?_⟩
      subst hy
      exact ne_of_shows h hau hv
  | @between σ τ hyields ha =>
    obtain ⟨rfl, rfl⟩ := (shows_copy_iff h.second).1 hv
    obtain ⟨hevents, hl⟩ := copying_fused h rfl ha
    exact .inr ⟨_, _, ⟨_, _, _, h.fused, .stores hyields, rfl, rfl⟩, hevents, hl⟩

theorem Run.fuse (hrun : M.Run b y vs r) (hs : M.Stands u w x e y z owed) :
    ∃ vs' r', M.Run c z vs' r' ∧ owed ++ seen [x] vs <+: seen [x] vs' ∧
      (Settled c r → seen [x] vs' = owed ++ seen [x] vs ∧ Matches [x] r r') := by
  induction hrun generalizing z owed with
  | stay y =>
    cases hs with
    | apart haw ha => exact ⟨[], _, .stay _, List.prefix_rfl, fun _ ↦ ⟨rfl, .ok ha⟩⟩
    | @between σ τ hyields ha =>
      have hgone : ¬ Settled c (.ok (w, σ) : Result V H E) := fun hset ↦
        ((h.mem_ids w).1 (hset _ rfl)).2 rfl
      have hevents := (copying_fused (M := M) h rfl ha).1
      refine ⟨_, _, Shows.run ⟨_, _, _, h.fused, .stores hyields, rfl, rfl⟩, ?_,
        fun hset ↦ absurd hset hgone⟩
      rw [seen_singleton]
      exact hevents ▸ (List.prefix_append_right_inj _).2 List.nil_prefix
  | @go y y' v vs r hv _ ih =>
    obtain ⟨y'', he, hs'⟩ | ⟨v', r₁, hv', hevents, hl⟩ := hs.step h hv
    · obtain rfl := Except.ok.inj he
      obtain ⟨vs', r', hrun', hseen⟩ := ih hs'
      rw [List.append_assoc, ← seen_cons] at hseen
      exact ⟨vs', r', hrun', hseen⟩
    · obtain ⟨hsame, hapart⟩ := hl
      cases hsame with
      | ok ha =>
        obtain ⟨vs', r', hrun', hprefix, hsettled⟩ := ih (.apart (hapart _ rfl) ha)
        refine ⟨v' :: vs', r', .go hv' hrun', ?_, fun hset ↦ ?_⟩
        · rw [seen_cons, seen_cons, hevents, ← List.append_assoc]
          exact (List.prefix_append_right_inj _).2 hprefix
        · obtain ⟨hseen, hsame⟩ := hsettled hset
          rw [seen_cons, seen_cons, hevents, hseen, List.nil_append, List.append_assoc]
          exact ⟨rfl, hsame⟩
  | @stop y v o hv =>
    obtain ⟨y'', he, -⟩ | ⟨v', r', hv', hevents, hl⟩ := hs.step h hv
    · cases he
    · have hseen : seen [x] [v'] = owed ++ seen [x] [v] := by
        rw [seen_singleton, seen_singleton, hevents]
      exact ⟨[v'], r', hv'.run, hseen ▸ List.prefix_rfl, fun _ ↦ ⟨hseen, hl.same⟩⟩

/-- What a unit of the merged body does, a run of the body does from the same unit. -/
theorem Shows.unfuse (hv : M.Shows c (a, τ) v r') (haw : a ≠ w) (ha : Agree Eq (· ∉ [x]) σ τ) :
    ∃ vs r, M.Run b (a, σ) vs r ∧ seen [x] vs = hide [x] v.events ∧ Lands w x r r' := by
  by_cases hau : a = u
  · subst hau
    obtain ⟨s, k, o, hs, hk, rfl, rfl⟩ := hv
    obtain rfl := Option.some.inj (h.fused.symm.trans hs)
    have hexpr := (apart_of_fused h).2
    have ha' := ha.symm (respects_eq M)
    cases hk with
    | @stores _ _ v g hv =>
      obtain ⟨_, hv', rfl⟩ := ha'.yields (respects_eq M) hexpr hv
      have hfirst := shows_first h hv'
      obtain ⟨hevents, hl⟩ :=
        copying_fused (M := M) h (Function.update_self ..) (agree_between ha v g)
      refine ⟨_, _, .go hfirst (Shows.run ((shows_copy_iff h.second).2 ⟨rfl, rfl⟩)), ?_, hl⟩
      rw [seen_cons, seen_singleton, hide_append, hide_evaluation, hide_write_self,
        List.append_nil, ha.evaluation_eq hexpr]
      exact hevents.symm
    | fails hv =>
      obtain ⟨_, hv', rfl⟩ := ha'.yields (respects_eq M) hexpr hv
      refine ⟨_, _, Shows.run ⟨_, _, _, h.first, .fails hv', rfl, rfl⟩, ?_, ?_⟩
      · rw [seen_singleton, ha.evaluation_eq hexpr]
        rfl
      · exact lands_raise h h.first h.around_first (ha.withHeap rfl)
    | plain hne => exact absurd rfl (hne _ _)
  · obtain ⟨s, hs⟩ : ∃ s, b.stmt? a = some s := by
      obtain ⟨s', hs'⟩ := hv.exists_stmt
      rw [h.moved.stmt a ⟨hau, haw⟩] at hs'
      obtain ⟨s, hs, -⟩ := Option.map_eq_some_iff.1 hs'
      exact ⟨s, hs⟩
    obtain ⟨r, hv', hr⟩ :=
      hv.back (respects_eq M) h.moved ⟨hau, haw⟩ hs (carries_of_fused h hs hau haw) ha
    refine ⟨[v], r, hv'.run, seen_singleton, hr, fun y hy ↦ ?_⟩
    subst hy
    exact ne_of_shows h hau hv'

theorem Run.unfuse (hrun : M.Run c z vs' r') (hz : z.1 ≠ w) (ha : Agree Eq (· ∉ [x]) σ z.2) :
    ∃ vs r, M.Run b (z.1, σ) vs r ∧ seen [x] vs = seen [x] vs' ∧ Matches [x] r r' := by
  induction hrun generalizing σ with
  | stay z => exact ⟨[], _, .stay _, rfl, .ok ha⟩
  | @go z z' v vs' r' hv _ ih =>
    obtain ⟨vs, r, hrun, hseen, hsame, hapart⟩ := Shows.unfuse h hv hz ha
    cases hsame with
    | @ok a σ' τ' ha' =>
      obtain ⟨vs'', r'', hrun', hseen', hsame'⟩ := ih (hapart (a, σ') rfl) ha'
      refine ⟨vs ++ vs'', r'', hrun.append hrun', ?_, hsame'⟩
      rw [seen_append, hseen, hseen', seen_cons]
  | stop hv =>
    obtain ⟨vs, r, hrun, hseen, hl⟩ := Shows.unfuse h hv hz ha
    exact ⟨vs, r, hrun, by rw [hseen, seen_singleton], hl.same⟩

theorem mirrors_of_fused (M : Semantics V H E) : M.Mirrors [x] b c := by
  have hne {v : UnitId} (hv : b.first? = some v) : v ≠ w := by
    rintro rfl
    exact h.entry_ne hv
  constructor
  · intro v hv σ vs r hrun
    exact hrun.fuse h (.apart (hne hv) (.refl (respects_eq M) σ))
  · intro v hv σ vs' r' hrun'
    exact hrun'.unfuse h (hne hv) (.refl (respects_eq M) σ)

end

end Semantics

namespace TemporaryFolding

variable {b c : Body} {xs : List LocalId}

/-- `c` is what merges make of `b`, each of two units `x = e; place = x` with another of the
locals `xs`. -/
inductive Merges : Body → List LocalId → Body → Prop
  | done (b : Body) : Merges b [] b
  | merge {b c : Body} {p : Nat} {x : LocalId} {e : Expr} {place : Place} {xs : List LocalId} :
      Pair b p x e place → Merges (merge b p) xs c → Merges b (x :: xs) c

structure Folded (b : Body) (xs : List LocalId) (c : Body) : Prop where
  merges : Merges b xs c
  valid : c.Valid
  first : c.first? = b.first?
  ids : c.ids ⊆ b.ids
  mentioned : c.mentioned ⊆ b.mentioned
  gone : ∀ x ∈ xs, x ∉ c.mentioned
  mirrors : ∀ {V H E : Type} (M : Semantics V H E), M.Mirrors xs b c

theorem Folded.refl (hb : b.Valid) : Folded b [] b :=
  ⟨.done b, hb, rfl, List.Subset.refl _, List.Subset.refl _, nofun, fun M ↦ .refl M b⟩

theorem Foldable.folded {p : Nat} {x : LocalId} {e : Expr} {place : Place}
    (h : Foldable b p x e place) (hb : b.Valid) (hc : Folded (merge b p) xs c) :
    Folded b (x :: xs) c := by
  obtain ⟨u, w, hfused⟩ := h.exists_fused hb.coherent
  have hn : (merge b p).ids.Nodup := (h.valid_merge hb).nodup
  refine ⟨.merge h.toPair hc.merges, hc.valid, hc.first.trans hfused.entry, ?_, ?_, ?_, fun M ↦ ?_⟩
  · exact fun v hv ↦ ((hfused.mem_ids v).1 (hc.ids hv)).1
  · exact List.Subset.trans hc.mentioned (hfused.mentioned_subset hn)
  · intro z hz
    obtain rfl | hz := List.mem_cons.1 hz
    · exact fun hmem ↦ hfused.not_mentioned hn (hc.mentioned hmem)
    · exact hc.gone z hz
  · exact (Semantics.mirrors_of_fused hfused M).trans (hc.mirrors M) hfused.entry hc.ids

theorem folded_mergeAll (r : Revision) (hr : r.body.Valid) :
    ∃ xs, Folded r.body xs (mergeAll r).body := by
  fun_induction mergeAll r with
  | case1 r h => exact ⟨[], .refl hr⟩
  | case2 r p h hlt ih =>
    obtain ⟨x, e, place, hp⟩ := foldable_of_find? h
    obtain ⟨xs, hxs⟩ := ih (hp.valid_merge hr)
    exact ⟨x :: xs, hp.folded hr hxs⟩
  | case3 r p h hlt => exact ⟨[], .refl hr⟩

end TemporaryFolding

namespace Pass

/-- Temporary folding succeeds on a valid body, and leaves a valid one, in which nothing mentions
the temporaries of the pairs that were merged. Under every interpretation, runs from the first unit
show the same in both bodies, in the same order: all operations with their operands, and what all
other locals receive. -/
theorem folding_mirrored (m : Signature) {b : Body} (hb : b.validate = .ok ()) :
    (∃ changed, (temporaryFolding.run m b).result = .ok changed) ∧
    (temporaryFolding.run m b).body.validate = .ok () ∧
    (temporaryFolding.run m b).body.first? = b.first? ∧
    ∃ temporaries, TemporaryFolding.Merges b temporaries (temporaryFolding.run m b).body ∧
      (∀ x ∈ temporaries, x ∉ (temporaryFolding.run m b).body.mentioned) ∧
      ∀ {V H E : Type} (M : Semantics V H E),
        M.Mirrors temporaries b (temporaryFolding.run m b).body := by
  obtain ⟨xs, hxs⟩ := TemporaryFolding.folded_mergeAll ⟨b, [], false⟩ (Body.validate_eq_ok.1 hb)
  exact ⟨⟨_, rfl⟩, Body.validate_eq_ok.2 hxs.valid, hxs.first, xs, hxs.merges, hxs.gone,
    hxs.mirrors⟩

/-- A loop that halves its input by way of two temporaries under a trap, and stores it by way of a
third one. -/
def detour : Body where
  locals := [⟨⟨0⟩, "n", .int⟩, ⟨⟨1⟩, "t", .int⟩, ⟨⟨2⟩, "s", .int⟩, ⟨⟨3⟩, "r", .int⟩]
  units :=
    [⟨⟨0⟩, .identity ⟨0⟩ (.parameter 0)⟩,
      ⟨⟨1⟩, .branch ⟨.le, .var ⟨0⟩, .const (.int 1)⟩ ⟨8⟩⟩,
      ⟨⟨2⟩, .assign (.var ⟨1⟩) (.binary .div (.var ⟨0⟩) (.const (.int 2)))⟩,
      ⟨⟨3⟩, .assign (.var ⟨2⟩) (.value (.var ⟨1⟩))⟩,
      ⟨⟨4⟩, .assign (.var ⟨0⟩) (.value (.var ⟨2⟩))⟩,
      ⟨⟨5⟩, .assign (.var ⟨3⟩) (.value (.var ⟨0⟩))⟩,
      ⟨⟨6⟩, .assign (.field none ⟨"Demo", "last", .int⟩) (.value (.var ⟨3⟩))⟩,
      ⟨⟨7⟩, .goto ⟨1⟩⟩,
      ⟨⟨8⟩, .ret (some (.var ⟨0⟩))⟩]
  traps := [⟨⟨2⟩, ⟨7⟩, ⟨8⟩, .object "E"⟩]
  nextUnit := 9

theorem folding_mirrored_detour :
    detour.validate = .ok () ∧
    (temporaryFolding.run countdown detour).body.units =
      [⟨⟨0⟩, .identity ⟨0⟩ (.parameter 0)⟩,
        ⟨⟨1⟩, .branch ⟨.le, .var ⟨0⟩, .const (.int 1)⟩ ⟨8⟩⟩,
        ⟨⟨2⟩, .assign (.var ⟨0⟩) (.binary .div (.var ⟨0⟩) (.const (.int 2)))⟩,
        ⟨⟨5⟩, .assign (.field none ⟨"Demo", "last", .int⟩) (.value (.var ⟨0⟩))⟩,
        ⟨⟨7⟩, .goto ⟨1⟩⟩,
        ⟨⟨8⟩, .ret (some (.var ⟨0⟩))⟩] ∧
    ∃ temporaries,
      TemporaryFolding.Merges detour temporaries (temporaryFolding.run countdown detour).body ∧
      ∀ {V H E : Type} (M : Semantics V H E),
        M.Mirrors temporaries detour (temporaryFolding.run countdown detour).body := by
  have hb : detour.validate = .ok () := by decide +kernel
  obtain ⟨-, -, -, temporaries, hmerges, -, hmirrors⟩ := folding_mirrored countdown hb
  exact ⟨hb, by decide_cbv, temporaries, hmerges, hmirrors⟩

end Pass

end ThreeAddress
