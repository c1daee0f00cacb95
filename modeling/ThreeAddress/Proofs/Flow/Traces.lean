import ThreeAddress.Proofs.Flow.Execution

namespace ThreeAddress.Semantics

variable {V H E : Type}

/-- What an execution may do, other than to copy a value. Operations and places come without their
operands, which are listed apart. -/
inductive Event (V E : Type) where
  | operate (form : Expr) (operands : List V)
  | store (form : Place) (operands : List V) (v : V)
  | write (x : LocalId) (v : V)
  | select (key : V)
  | throw (v : V)
  | raise (e : E)
  | ret (value : Option V)

structure Visit (V E : Type) where
  unit : UnitId
  operands : List V
  events : List (Event V E)

def Outcome.raised : Outcome V H E → List (Event V E)
  | .raise e _ => [.raise e]
  | _ => []

section

variable (M : Semantics V H E)

def evaluation (σ : State V H) : Expr → List (Event V E)
  | .value _ => []
  | e => [.operate (e.mapValues fun _ ↦ .const .null) (e.values.map (M.value · σ))]

def storing (v : V) (σ : State V H) : Place → List (Event V E)
  | .var x => [.write x v]
  | place => [.store (place.mapValues fun _ ↦ .const .null) (place.values.map (M.value · σ)) v]

def action (σ : State V H) : Stmt → List (Event V E)
  | .identity x source => [.write x (M.input source σ.heap)]
  | .branch c _ => M.evaluation σ (.compare c)
  | .switch key _ _ => [.select (M.value key σ)]
  | .invoke call => M.evaluation σ (.invoke call)
  | .ret value => [.ret (value.map (M.value · σ))]
  | .throw v => [.throw (M.value v σ)]
  | _ => []

/-- The executions of a statement, each with what is done in it. -/
inductive Performs (σ : State V H) : Stmt → List (Event V E) → Outcome V H E → Prop
  | stores {place : Place} {e : Expr} {v : V} {h : H} : M.Yields σ (.ok v, h) e →
      Performs σ (.assign place e) (M.evaluation σ e ++ M.storing v σ place)
        (.ofPut { σ with heap := h } (M.put v { σ with heap := h } place))
  | fails {place : Place} {e : Expr} {x : E} {h : H} : M.Yields σ (.error x, h) e →
      Performs σ (.assign place e) (M.evaluation σ e) (.raise x { σ with heap := h })
  | plain {s : Stmt} {o : Outcome V H E} : (∀ place e, s ≠ .assign place e) → M.Exec σ s o →
      Performs σ s (M.action σ s) o

/-- What the unit at hand may do, and what is seen of it. -/
def Shows (b : Body) (x : Config V H) (v : Visit V E) (r : Result V H E) : Prop :=
  ∃ s k o, b.stmt? x.1 = some s ∧ M.Performs x.2 s k o ∧
    v = ⟨x.1, s.values.map (M.value · x.2), k ++ o.raised⟩ ∧ r = M.land b x.1 s o

/-- A run with its visits. -/
inductive Run (b : Body) : Config V H → List (Visit V E) → Result V H E → Prop
  | stay (x : Config V H) : Run b x [] (.ok x)
  | go {x y : Config V H} {v : Visit V E} {vs : List (Visit V E)} {r : Result V H E} :
      M.Shows b x v (.ok y) → Run b y vs r → Run b x (v :: vs) r
  | stop {x : Config V H} {v : Visit V E} {o : Outcome V H E} :
      M.Shows b x v (.error o) → Run b x [v] (.error o)

structure Agree (alike : H → H → Prop) (among : LocalId → Prop) (σ τ : State V H) : Prop where
  heap : alike σ.heap τ.heap
  locals : ∀ z, among z → σ.locals z = τ.locals z

/-- The outcomes are the same but for the states. A local that the statement defines agrees where it
is left in sequence. -/
inductive Outcome.Alike (alike : H → H → Prop) (among : LocalId → Prop) (x? : Option LocalId) :
    Outcome V H E → Outcome V H E → Prop
  | next {σ τ : State V H} : Agree alike (fun z ↦ among z ∨ x? = some z) σ τ →
      Alike alike among x? (.next σ) (.next τ)
  | jump {i : Nat} {σ τ : State V H} : Agree alike among σ τ →
      Alike alike among x? (.jump i σ) (.jump i τ)
  | raise {e : E} {σ τ : State V H} : Agree alike among σ τ →
      Alike alike among x? (.raise e σ) (.raise e τ)
  | done {value : Option V} {σ τ : State V H} : Agree alike among σ τ →
      Alike alike among x? (.done value σ) (.done value τ)

/-- The results are the same but for the states and the names of units. At each unit, the states
agree on what is needed there. -/
inductive Result.Alike (alike : H → H → Prop) (needs : UnitId → LocalId → Prop)
    (f : UnitId → UnitId) : Result V H E → Result V H E → Prop
  | ok {u : UnitId} {σ τ : State V H} : Agree alike (needs u) σ τ →
      Alike alike needs f (.ok (u, σ)) (.ok (f u, τ))
  | error {o o' : Outcome V H E} : o.Alike alike (fun _ ↦ False) none o' →
      Alike alike needs f (.error o) (.error o')

def StoresAlike (alike : H → H → Prop) : Except E H → Except E H → Prop
  | .ok h, .ok h' => alike h h'
  | .error e, .error e' => e = e'
  | _, _ => False

structure Respects (alike : H → H → Prop) : Prop where
  equivalence : Equivalence alike
  compute : ∀ {e vs h h' r g}, alike h h' → M.compute e vs h (r, g) →
    ∃ g', M.compute e vs h' (r, g') ∧ alike g g'
  input : ∀ {source h h'}, alike h h' → M.input source h = M.input source h'
  putField : ∀ {receiver ref v h h'}, alike h h' →
    StoresAlike alike (M.putField receiver ref v h) (M.putField receiver ref v h')
  putElement : ∀ {array index v h h'}, alike h h' →
    StoresAlike alike (M.putElement array index v h) (M.putElement array index v h')
  thrown : ∀ {v h h'}, alike h h' → M.thrown v h = M.thrown v h'
  caught : ∀ {e h h'}, alike h h' → alike (M.caught e h) (M.caught e h')

end

variable {M : Semantics V H E} {b c : Body} {f g : UnitId → UnitId} {u w : UnitId}
  {σ σ' τ τ' υ : State V H} {s : Stmt} {o o' : Outcome V H E} {x y z : Config V H}
  {r r' : Result V H E} {k : List (Event V E)} {v : Visit V E} {vs vs' : List (Visit V E)}
  {alike : H → H → Prop} {among among' : LocalId → Prop} {x? : Option LocalId}
  {needs : UnitId → LocalId → Prop}

theorem respects_eq (M : Semantics V H E) : M.Respects Eq where
  equivalence := eq_equivalence
  compute := by
    rintro e vs h _ r g rfl hr
    exact ⟨g, hr, rfl⟩
  input := by
    rintro source h _ rfl
    rfl
  putField := by
    rintro receiver ref v h _ rfl
    cases M.putField receiver ref v h <;> rfl
  putElement := by
    rintro array index v h _ rfl
    cases M.putElement array index v h <;> rfl
  thrown := by
    rintro v h _ rfl
    rfl
  caught := by
    rintro e h _ rfl
    rfl

namespace Agree

theorem mono (h : Agree alike among σ τ) (hm : ∀ z, among' z → among z) :
    Agree alike among' σ τ :=
  ⟨h.heap, fun z hz ↦ h.locals z (hm z hz)⟩

theorem or_none (h : Agree alike among σ τ) :
    Agree alike (fun z ↦ among z ∨ none = some z) σ τ :=
  h.mono fun _ hz ↦ hz.resolve_right nofun

theorem withHeap {g g' : H} (h : Agree alike among σ τ) (hg : alike g g') :
    Agree alike among { σ with heap := g } { τ with heap := g' } :=
  ⟨hg, h.locals⟩

theorem refl (hM : M.Respects alike) (σ : State V H) : Agree alike among σ σ :=
  ⟨hM.equivalence.refl σ.heap, fun _ _ ↦ rfl⟩

theorem symm (hM : M.Respects alike) (h : Agree alike among σ τ) : Agree alike among τ σ :=
  ⟨hM.equivalence.symm h.heap, fun z hz ↦ (h.locals z hz).symm⟩

theorem trans (hM : M.Respects alike) (h : Agree alike among σ τ) (h' : Agree alike among τ υ) :
    Agree alike among σ υ :=
  ⟨hM.equivalence.trans h.heap h'.heap, fun z hz ↦ (h.locals z hz).trans (h'.locals z hz)⟩

theorem update (h : Agree alike among σ τ) (z : LocalId) (v : V) :
    Agree alike (fun y ↦ among y ∨ some z = some y)
      { σ with locals := Function.update σ.locals z v }
      { τ with locals := Function.update τ.locals z v } := by
  refine ⟨h.heap, fun y hy ↦ ?_⟩
  by_cases he : y = z
  · subst he
    simp
  · have hy : among y := hy.resolve_right fun h ↦ he (Option.some.inj h).symm
    simpa [Function.update_of_ne he] using h.locals y hy

theorem value_eq (h : Agree alike among σ τ) {v : Value} (hv : ∀ z, v = .var z → among z) :
    M.value v σ = M.value v τ := by
  cases v with
  | var z => exact h.locals z (hv z rfl)
  | const c => rfl

theorem values_eq (h : Agree alike among σ τ) {vs : List Value}
    (hvs : ∀ z ∈ vs.filterMap Value.var?, among z) :
    vs.map (M.value · σ) = vs.map (M.value · τ) := by
  refine List.map_congr_left fun v hv ↦ h.value_eq fun z hz ↦ hvs z ?_
  exact List.mem_filterMap.2 ⟨v, hv, Value.var?_eq_some.2 hz⟩

theorem test_eq (h : Agree alike among σ τ) {c : Comparison}
    (hc : ∀ z ∈ c.values.filterMap Value.var?, among z) : M.test c σ = M.test c τ := by
  have hvalues := h.values_eq (M := M) hc
  simp only [Comparison.values, List.map_cons, List.cons.injEq] at hvalues
  rw [test, hvalues.1, hvalues.2.1, test]

theorem evaluation_eq (h : Agree alike among σ τ) {e : Expr} (he : ∀ z ∈ e.uses, among z) :
    M.evaluation σ e = M.evaluation τ e := by
  have hvalues := h.values_eq (M := M) he
  cases e with
  | value v => rfl
  | _ => simp only [evaluation, hvalues]

theorem storing_eq (h : Agree alike among σ τ) {place : Place}
    (hp : ∀ z ∈ place.values.filterMap Value.var?, among z) (v : V) :
    M.storing v σ place = M.storing v τ place := by
  have hvalues := h.values_eq (M := M) hp
  cases place with
  | var x => rfl
  | _ => simp only [storing, hvalues]

theorem yields (hM : M.Respects alike) (h : Agree alike among σ τ) {e : Expr}
    (he : ∀ z ∈ e.uses, among z) {r : Except E V} {g : H} (hr : M.Yields σ (r, g) e) :
    ∃ g', M.Yields τ (r, g') e ∧ alike g g' := by
  cases e with
  | value v =>
    cases hr
    have hv : M.value v σ = M.value v τ := h.value_eq fun z hz ↦ he z (by simp [hz, Expr.uses,
      Expr.values, Value.var?])
    exact ⟨τ.heap, by rw [Yields, hv], h.heap⟩
  | compare c =>
    cases hr
    exact ⟨τ.heap, by rw [Yields, h.test_eq he], h.heap⟩
  | _ =>
    have hvalues := h.values_eq (M := M) he
    simp only [Yields] at hr ⊢
    rw [hvalues] at hr
    exact hM.compute h.heap hr

theorem ofPut (h : Agree alike among σ τ) {r r' : Except E H} (hr : StoresAlike alike r r') :
    (Outcome.ofPut (V := V) σ (r.map fun g ↦ { σ with heap := g })).Alike alike among none
      (Outcome.ofPut τ (r'.map fun g ↦ { τ with heap := g })) := by
  match r, r', hr with
  | .ok g, .ok g', hg => exact .next (h.withHeap hg).or_none
  | .error x, .error _, rfl => exact .raise h

theorem put (hM : M.Respects alike) (h : Agree alike among σ τ) {place : Place}
    (hp : ∀ z ∈ place.values.filterMap Value.var?, among z) (v : V) :
    (Outcome.ofPut σ (M.put v σ place)).Alike alike among place.var?
      (Outcome.ofPut τ (M.put v τ place)) := by
  cases place with
  | var x => exact .next (h.update x v)
  | field receiver ref =>
    have hr : receiver.map (M.value · σ) = receiver.map (M.value · τ) := by
      cases receiver with
      | none => rfl
      | some w =>
        exact congrArg some (h.value_eq fun z hz ↦ hp z (by simp [hz, Place.values, Value.var?]))
    simp only [Semantics.put, hr]
    exact h.ofPut (hM.putField h.heap)
  | element array index =>
    have hvalues := h.values_eq (M := M) hp
    simp only [Place.values, List.map_cons, List.cons.injEq] at hvalues
    simp only [Semantics.put, hvalues.1, hvalues.2.1]
    exact h.ofPut (hM.putElement h.heap)

end Agree

theorem Agree.action_eq (hM : M.Respects alike) (h : Agree alike among σ τ)
    (huses : ∀ z ∈ s.uses, among z) : M.action σ s = M.action τ s := by
  have hvalues := h.values_eq (M := M) huses
  cases s with
  | identity x source => rw [action, hM.input h.heap, action]
  | branch c t => exact h.evaluation_eq (e := .compare c) huses
  | switch key ts d =>
    have hkey : M.value key σ = M.value key τ := by simpa [Stmt.values] using hvalues
    rw [action, hkey, action]
  | invoke call => exact h.evaluation_eq (e := .invoke call) huses
  | ret value =>
    cases value with
    | none => rfl
    | some v =>
      have hv : M.value v σ = M.value v τ := by simpa [Stmt.values] using hvalues
      rw [action, Option.map_some, hv, action, Option.map_some]
  | throw v =>
    have hv : M.value v σ = M.value v τ := by simpa [Stmt.values] using hvalues
    rw [action, hv, action]
  | _ => rfl

theorem Exec.agree (hM : M.Respects alike) (ha : Agree alike among σ τ)
    (huses : ∀ z ∈ s.uses, among z) (hs : ∀ place e, s ≠ .assign place e) (h : M.Exec σ s o) :
    ∃ o', M.Exec τ s o' ∧ o.Alike alike among s.def? o' := by
  have hvalues := ha.values_eq (M := M) huses
  cases h with
  | @identity x source =>
    refine ⟨_, .identity, .next ?_⟩
    rw [← hM.input ha.heap]
    exact ha.update x _
  | assign | exprRaises | putRaises => exact absurd rfl (hs _ _)
  | taken ht =>
    rw [ha.test_eq huses] at ht
    exact ⟨_, .taken ht, .jump ha⟩
  | untaken ht =>
    rw [ha.test_eq huses] at ht
    exact ⟨_, .untaken ht, .next ha.or_none⟩
  | goto => exact ⟨_, .goto, .jump ha⟩
  | @switch key ts d =>
    have hkey : M.value key σ = M.value key τ := by simpa [Stmt.values] using hvalues
    refine ⟨_, .switch, ?_⟩
    rw [caseOf, caseOf, hkey]
    exact .jump ha
  | @invoke call v h hv =>
    obtain ⟨h', hv', hh⟩ := ha.yields (e := .invoke call) hM huses hv
    exact ⟨_, .invoke hv', .next (ha.withHeap hh).or_none⟩
  | @invokeRaises call x h hv =>
    obtain ⟨h', hv', hh⟩ := ha.yields (e := .invoke call) hM huses hv
    exact ⟨_, .invokeRaises hv', .raise (ha.withHeap hh)⟩
  | @ret value =>
    have hv : value.map (M.value · σ) = value.map (M.value · τ) := by
      cases value with
      | none => rfl
      | some v => simpa [Stmt.values] using hvalues
    rw [hv]
    exact ⟨_, .ret, .done ha⟩
  | @throw v =>
    have hv : M.value v σ = M.value v τ := by simpa [Stmt.values] using hvalues
    rw [hv, hM.thrown ha.heap]
    exact ⟨_, .throw, .raise ha⟩
  | nop => exact ⟨_, .nop, .next ha.or_none⟩

theorem Performs.agree (hM : M.Respects alike) (ha : Agree alike among σ τ)
    (huses : ∀ z ∈ s.uses, among z) (h : M.Performs σ s k o) :
    ∃ o', M.Performs τ s k o' ∧ o.Alike alike among s.def? o' := by
  have hassign {place : Place} {e : Expr} (hs : s = .assign place e) :
      (∀ z ∈ place.values.filterMap Value.var?, among z) ∧ ∀ z ∈ e.uses, among z := by
    subst hs
    simpa [Stmt.uses, Stmt.values, Expr.uses, or_imp, forall_and] using huses
  cases h with
  | @stores place e v h hv =>
    obtain ⟨hp, he⟩ := hassign rfl
    obtain ⟨h', hv', hh⟩ := ha.yields hM he hv
    rw [ha.evaluation_eq he, ha.storing_eq hp]
    exact ⟨_, .stores hv', (ha.withHeap hh).put hM hp v⟩
  | @fails place e x h hv =>
    obtain ⟨-, he⟩ := hassign rfl
    obtain ⟨h', hv', hh⟩ := ha.yields hM he hv
    rw [ha.evaluation_eq he]
    exact ⟨_, .fails hv', .raise (ha.withHeap hh)⟩
  | plain hs ho =>
    obtain ⟨o', ho', halike⟩ := ho.agree hM ha huses hs
    rw [ha.action_eq hM huses]
    exact ⟨o', .plain hs ho', halike⟩

theorem Performs.exec (h : M.Performs σ s k o) : M.Exec σ s o := by
  cases h with
  | @stores place e v h hv =>
    cases hp : M.put v { σ with heap := h } place with
    | ok σ' => exact .assign hv hp
    | error x => exact .putRaises hv hp
  | fails hv => exact .exprRaises hv
  | plain _ ho => exact ho

theorem Exec.performs (h : M.Exec σ s o) : ∃ k, M.Performs σ s k o := by
  by_cases hs : ∃ place e, s = .assign place e
  · obtain ⟨place, e, rfl⟩ := hs
    cases h with
    | @assign _ _ v h σ' hv hp =>
      have hstores : M.Performs σ (.assign place e) _ _ := .stores hv
      rw [hp] at hstores
      exact ⟨_, hstores⟩
    | exprRaises hv => exact ⟨_, .fails hv⟩
    | @putRaises _ _ v x h hv hp =>
      have hstores : M.Performs σ (.assign place e) _ _ := .stores hv
      rw [hp] at hstores
      exact ⟨_, hstores⟩
  · exact ⟨_, .plain (fun place e he ↦ hs ⟨place, e, he⟩) h⟩

theorem acts_iff_shows : M.Acts b x r ↔ ∃ v, M.Shows b x v r := by
  constructor
  · intro h
    obtain ⟨s, o, hs, ho, hr⟩ := h
    obtain ⟨k, hk⟩ := ho.performs
    exact ⟨_, s, k, o, hs, hk, rfl, hr⟩
  · intro h
    obtain ⟨v, s, k, o, hs, hk, -, hr⟩ := h
    exact ⟨s, o, hs, hk.exec, hr⟩

theorem Exec.fallsThrough (h : M.Exec σ s (.next σ')) : s.fallsThrough = true := by
  cases h <;> rfl

theorem performs_iff (hs : ∀ place e, s ≠ .assign place e) :
    M.Performs σ s k o ↔ k = M.action σ s ∧ M.Exec σ s o := by
  constructor
  · intro h
    cases h with
    | plain _ ho => exact ⟨rfl, ho⟩
    | stores | fails => exact absurd rfl (hs _ _)
  · rintro ⟨rfl, ho⟩
    exact .plain hs ho

theorem performs_mapTargets (f : UnitId → UnitId) (s : Stmt) :
    M.Performs σ (s.mapTargets f) k o ↔ M.Performs σ s k o := by
  by_cases hs : ∃ place e, s = .assign place e
  · obtain ⟨place, e, rfl⟩ := hs
    rfl
  · have hne : ∀ place e, s ≠ .assign place e := fun place e he ↦ hs ⟨place, e, he⟩
    have haction : M.action σ (s.mapTargets f) = M.action σ s := by cases s <;> rfl
    rw [performs_iff hne, performs_iff (by simpa using hne), haction, exec_mapTargets]

namespace Outcome.Alike

theorem raised_eq (h : o.Alike alike among x? o') : o.raised = o'.raised := by
  cases h <;> rfl

theorem refl (hM : M.Respects alike) (o : Outcome V H E) : o.Alike alike among x? o := by
  cases o with
  | next σ => exact .next (.refl hM σ)
  | jump i σ => exact .jump (.refl hM σ)
  | raise e σ => exact .raise (.refl hM σ)
  | done value σ => exact .done (.refl hM σ)

theorem symm (hM : M.Respects alike) (h : o.Alike alike among x? o') :
    o'.Alike alike among x? o := by
  cases h with
  | next ha => exact .next (ha.symm hM)
  | jump ha => exact .jump (ha.symm hM)
  | raise ha => exact .raise (ha.symm hM)
  | done ha => exact .done (ha.symm hM)

theorem heaps (h : o.Alike alike among x? o') : o.Alike alike (fun _ ↦ False) none o' := by
  have hmono {σ τ : State V H} {among' : LocalId → Prop} (ha : Agree alike among' σ τ) :
      Agree alike (fun _ ↦ False) σ τ :=
    ha.mono fun _ hz ↦ hz.elim
  cases h with
  | next ha => exact .next (hmono ha).or_none
  | jump ha => exact .jump (hmono ha)
  | raise ha => exact .raise (hmono ha)
  | done ha => exact .done (hmono ha)

theorem trans {o'' : Outcome V H E} (hM : M.Respects alike)
    (h : o.Alike alike (fun _ ↦ False) none o') (h' : o'.Alike alike (fun _ ↦ False) none o'') :
    o.Alike alike (fun _ ↦ False) none o'' := by
  cases h with
  | next ha => cases h' with | next ha' => exact .next (ha.trans hM ha')
  | jump ha => cases h' with | jump ha' => exact .jump (ha.trans hM ha')
  | raise ha => cases h' with | raise ha' => exact .raise (ha.trans hM ha')
  | done ha => cases h' with | done ha' => exact .done (ha.trans hM ha')

end Outcome.Alike

namespace Result.Alike

variable {needs' needs'' : UnitId → LocalId → Prop}

theorem refl (hM : M.Respects alike) (r : Result V H E) :
    Result.Alike alike needs (fun u ↦ u) r r := by
  cases r with
  | ok y => exact .ok (.refl hM y.2)
  | error o => exact .error (.refl hM o)

theorem mono (h : Result.Alike alike needs f r r') (hm : ∀ u z, needs' u z → needs u z) :
    Result.Alike alike needs' f r r' := by
  cases h with
  | ok ha => exact .ok (ha.mono (hm _))
  | error ho => exact .error ho

theorem trans (hM : M.Respects alike) {r'' : Result V H E} (h : Result.Alike alike needs f r r')
    (h' : Result.Alike alike needs' g r' r'')
    (hm : ∀ u z, needs'' u z → needs u z ∧ needs' (f u) z) :
    Result.Alike alike needs'' (g ∘ f) r r'' := by
  cases h with
  | @ok u σ τ ha =>
    cases h' with
    | ok ha' =>
      exact .ok ((ha.mono fun z hz ↦ (hm u z hz).1).trans hM (ha'.mono fun z hz ↦ (hm u z hz).2))
  | error ho =>
    cases h' with
    | error ho' => exact .error (ho.trans hM ho')

end Result.Alike

/-- What is needed at the units where control may go to from `u` is needed at `u`, but for what the
statement there defines. -/
structure Leads (M : Semantics V H E) (b : Body) (needs : UnitId → LocalId → Prop) (u : UnitId)
    (s : Stmt) : Prop where
  next : s.fallsThrough = true → ∀ w, b.successor? u = some w → ∀ z, needs w z →
    needs u z ∨ s.def? = some z
  jump : ∀ t ∈ s.targets, ∀ z, needs t z → needs u z
  raise : ∀ σ e σ', M.Exec σ s (.raise e σ') → ∀ t ∈ b.around u, ∀ z, needs t.handler z →
    needs u z

/-- And so is what the statement reads. -/
structure Carries (M : Semantics V H E) (b : Body) (needs : UnitId → LocalId → Prop) (u : UnitId)
    (s : Stmt) : Prop extends M.Leads b needs u s where
  uses : ∀ z ∈ s.uses, needs u z

theorem leads_const (M : Semantics V H E) (b : Body) (among : LocalId → Prop) (u : UnitId)
    (s : Stmt) : M.Leads b (fun _ ↦ among) u s :=
  ⟨fun _ _ _ _ hz ↦ .inl hz, fun _ _ _ hz ↦ hz, fun _ _ _ _ _ _ _ hz ↦ hz⟩

theorem land_alike (hM : M.Respects alike) (hc : M.Leads b needs u s) (ho : M.Exec σ s o)
    (h : o.Alike alike (needs u) s.def? o') :
    Result.Alike alike needs f (M.land b u s o) ((M.land b u s o').map (Config.map f)) := by
  have hheaps := h.heaps
  rw [land, land]
  cases h with
  | @next σ' τ' ha =>
    cases hw : b.successor? u with
    | none =>
      simp only [follow?, hw, Option.map_none, Option.elim_none]
      exact .error hheaps
    | some w =>
      simp only [follow?, hw, Option.map_some, Option.elim_some]
      exact .ok (ha.mono fun z hz ↦ hc.next ho.fallsThrough w hw z hz)
  | @jump i σ' τ' ha =>
    cases ht : s.targets[i]? with
    | none =>
      simp only [follow?, ht, Option.map_none, Option.elim_none]
      exact .error hheaps
    | some t =>
      simp only [follow?, ht, Option.map_some, Option.elim_some]
      exact .ok (ha.mono fun z hz ↦ hc.jump t (List.mem_of_getElem? ht) z hz)
  | @raise e σ' τ' ha =>
    cases ht : (b.around u).find? (M.catches ·.exception e) with
    | none =>
      simp only [follow?, ht, Option.map_none, Option.elim_none]
      exact .error hheaps
    | some t =>
      simp only [follow?, ht, Option.map_some, Option.elim_some]
      refine .ok ((ha.withHeap (hM.caught ha.heap)).mono fun z hz ↦ ?_)
      exact hc.raise σ e σ' ho t (List.mem_of_find?_eq_some ht) z hz
  | done => exact .error hheaps

variable {keep : UnitId → Prop}

theorem land_moved (hm : Body.Moved keep f b c) (hu : keep u) (s : Stmt) (o : Outcome V H E) :
    M.land c u (s.mapTargets f) o = (M.land b u s o).map (Config.map f) :=
  land_of_follow? (follow?_moved hm hu s o)

theorem Shows.forth (hM : M.Respects alike) (hm : Body.Moved keep f b c) (hu : keep u)
    (hs : b.stmt? u = some s) (hc : M.Carries b needs u s) (ha : Agree alike (needs u) σ τ)
    (h : M.Shows b (u, σ) v r) :
    ∃ r', M.Shows c (u, τ) v r' ∧ Result.Alike alike needs f r r' := by
  obtain ⟨s', k, o, hs', hk, rfl, rfl⟩ := h
  obtain rfl := Option.some.inj (hs.symm.trans hs')
  obtain ⟨o', hk', ho⟩ := hk.agree hM ha hc.uses
  refine ⟨_, ⟨s.mapTargets f, k, o', ?_, (performs_mapTargets f s).2 hk', ?_, rfl⟩, ?_⟩
  · rw [hm.stmt u hu, hs, Option.map_some]
  · rw [Stmt.values_mapTargets, ho.raised_eq, ha.values_eq hc.uses]
  · rw [land_moved hm hu]
    exact land_alike hM hc.toLeads hk.exec ho

theorem Shows.back (hM : M.Respects alike) (hm : Body.Moved keep f b c) (hu : keep u)
    (hs : b.stmt? u = some s) (hc : M.Carries b needs u s) (ha : Agree alike (needs u) σ τ)
    (h : M.Shows c (u, τ) v r') :
    ∃ r, M.Shows b (u, σ) v r ∧ Result.Alike alike needs f r r' := by
  obtain ⟨s', k, o', hs', hk', rfl, rfl⟩ := h
  obtain rfl : s.mapTargets f = s' := by
    rw [hm.stmt u hu, hs, Option.map_some] at hs'
    exact Option.some.inj hs'
  have hk' := (performs_mapTargets f s).1 hk'
  obtain ⟨o, hk, ho⟩ := hk'.agree hM (ha.symm hM) hc.uses
  refine ⟨_, ⟨s, k, o, hs, hk, ?_, rfl⟩, ?_⟩
  · rw [Stmt.values_mapTargets, ho.raised_eq, ha.values_eq hc.uses]
  · rw [land_moved hm hu]
    exact land_alike hM hc.toLeads hk.exec (ho.symm hM)

theorem Shows.exists_stmt (h : M.Shows b x v r) : ∃ s, b.stmt? x.1 = some s :=
  let ⟨s, _, _, hs, _⟩ := h
  ⟨s, hs⟩

theorem Shows.run (h : M.Shows b x v r) : M.Run b x [v] r := by
  cases r with
  | ok y => exact .go h (.stay y)
  | error o => exact .stop h

theorem Run.append (h : M.Run b x vs (.ok y)) (h' : M.Run b y vs' r) :
    M.Run b x (vs ++ vs') r := by
  generalize he : (Except.ok y : Result V H E) = q at h
  induction h with
  | stay x =>
    cases he
    exact h'
  | go hv _ ih => exact .go hv (ih he)
  | stop => cases he

end ThreeAddress.Semantics
