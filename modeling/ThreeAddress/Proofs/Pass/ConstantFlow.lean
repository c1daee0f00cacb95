import ThreeAddress.Proofs.Body.Motion
import ThreeAddress.Proofs.Pass.ConstantBranches

namespace ThreeAddress

def Constant.key? : Constant → Option Int
  | .int n => some n.toInt
  | .long n => some n.toInt
  | _ => none

def Stmt.isConstantBranch : Stmt → Bool
  | .branch c _ => c.evaluate?.isSome
  | .switch (.const k) _ _ => k.key?.isSome
  | _ => false

/-- Where a goto or a branch on constants sends control when `next` stands behind it. A switch goes
to its default for every key that is no index. -/
inductive Stmt.Sends (next : Option UnitId) : Stmt → UnitId → Prop
  | goto {t : UnitId} : Sends next (.goto t) t
  | taken {c : Comparison} {t : UnitId} : c.evaluate? = some true → Sends next (.branch c t) t
  | untaken {c : Comparison} {t z : UnitId} :
      c.evaluate? = some false → next = some z → Sends next (.branch c t) z
  | index {k : Constant} {ts : List UnitId} {d t : UnitId} {i : Nat} :
      k.key? = some (i : Int) → ts[i]? = some t → Sends next (.switch (.const k) ts d) t
  | default {k : Constant} {ts : List UnitId} {d : UnitId} {n : Int} :
      k.key? = some n → (∀ i : Nat, i < ts.length → n ≠ i) → Sends next (.switch (.const k) ts d) d

namespace Body

variable {b c d : Body} {f g : UnitId → UnitId} {skip : UnitId → Prop} {u v w z : UnitId}

def Sends (b : Body) (u z : UnitId) : Prop :=
  ∃ s, b.stmt? u = some s ∧ s.Sends (b.successor? u) z

def Folds (b : Body) (u : UnitId) : Prop := ∃ s, b.stmt? u = some s ∧ s.isConstantBranch = true

/-- The first unit that control comes to from `u` on, itself included, that is not to be skipped. -/
inductive Comes (b : Body) (skip : UnitId → Prop) : UnitId → UnitId → Prop
  | stop {u : UnitId} : ¬ skip u → Comes b skip u u
  | pass {u w v : UnitId} : skip u → b.Sends u w → Comes b skip w v → Comes b skip u v

theorem Comes.mono (hs : ∀ u z, skip u → b.Sends u z → c.Sends u z) (h : b.Comes skip u v) :
    c.Comes skip u v := by
  induction h with
  | stop hu => exact .stop hu
  | pass hu hz _ ih => exact .pass hu (hs _ _ hu hz) ih

/-- The ways out of a unit: to the next one, to the `i`-th target, or by an exception to the handler
of the `i`-th trap around it. -/
inductive Way where
  | next
  | target (i : Nat)
  | handler (i : Nat) (exception : Ty)

def exit? (b : Body) (u : UnitId) (way : Way) : Option UnitId :=
  (b.stmt? u).bind fun s ↦
    match way with
    | .next => if s.fallsThrough then b.successor? u else none
    | .target i => s.targets[i]?
    | .handler i exception =>
      if s.mayThrow then
        ((b.around u)[i]?.filter (·.exception = exception)).map (·.handler)
      else none

def Onward (b : Body) (skip : UnitId → Prop) (start : Option UnitId) (v : UnitId) : Prop :=
  ∃ u, start = some u ∧ b.Comes skip u v

/-- Control takes the same course through `c` as through `b`, past the units to be skipped. Of these
only gotos are left, and every other unit stays with its statement, but for jumps, and leads on to
the same units. -/
structure SameCourse (skip : UnitId → Prop) (b c : Body) : Prop where
  entry : ∀ v, c.Onward skip c.first? v ↔ b.Onward skip b.first? v
  units : c.ids.Sublist b.ids
  kept : ∀ u ∈ b.ids, ¬ skip u → u ∈ c.ids ∧ ∃ f, c.stmt? u = (b.stmt? u).map (·.mapTargets f)
  onward : ∀ u ∈ b.ids, ¬ skip u → ∀ way v,
    c.Onward skip (c.exit? u way) v ↔ b.Onward skip (b.exit? u way) v
  skipped : ∀ u ∈ c.ids, skip u → (∃ t, c.stmt? u = some (.goto t)) ∧
    ∀ v, c.Comes skip u v ↔ b.Comes skip u v

theorem Moved.exit? {keep : UnitId → Prop} (h : Moved keep f b c) (hu : keep u) (way : Way) :
    c.exit? u way = (b.exit? u way).map f := by
  rw [Body.exit?, Body.exit?, h.stmt u hu, h.successor u hu, h.around u hu]
  cases b.stmt? u with
  | none => rfl
  | some s =>
    cases way with
    | next => cases hs : s.fallsThrough <;> simp [hs]
    | target i => simp
    | handler i e =>
      cases hs : s.mayThrow with
      | false => simp [hs]
      | true =>
        cases ht : (b.around u)[i]? with
        | none => simp [ht]
        | some t => by_cases he : t.exception = e <;> simp [hs, ht, he, Trap.mapRefs, Option.filter]

structure Follows (skip : UnitId → Prop) (f : UnitId → UnitId) (b c : Body) : Prop where
  units : c.ids.Sublist b.ids
  mem : ∀ u ∈ b.ids, f u ∈ c.ids
  fixed : ∀ u ∈ c.ids, f u = u
  first : c.first? = b.first?.map f
  moved : Moved (¬ skip ·) f b c
  comes : ∀ u ∈ b.ids, ∀ v, c.Comes skip (f u) v ↔ b.Comes skip u v

namespace Follows

theorem trans (h : Follows skip f b c) (h' : Follows skip g c d) :
    Follows skip (g ∘ f) b d where
  units := h'.units.trans h.units
  mem u hu := h'.mem _ (h.mem u hu)
  fixed u hu := by
    rw [Function.comp_apply, h.fixed u (h'.units.subset hu), h'.fixed u hu]
  first := by rw [h'.first, h.first, Option.map_map]
  moved := h.moved.trans h'.moved
  comes u hu v := (h'.comes _ (h.mem u hu) v).trans (h.comes u hu v)

/-- Where no unit goes and no reference moves, branches need only send control where they did. -/
theorem of_ids (hi : c.ids = b.ids) (hn : b.ids.Nodup)
    (hs : ∀ u, ¬ skip u → c.stmt? u = b.stmt? u) (ha : ∀ u, c.around u = b.around u)
    (hsend : ∀ u z, skip u → (c.Sends u z ↔ b.Sends u z)) : Follows skip (fun u ↦ u) b c where
  units := hi ▸ .refl _
  mem u hu := hi ▸ hu
  fixed _ _ := rfl
  first := by rw [first?_eq, first?_eq, hi, Option.map_id']
  moved := .of_ids hi hn hs ha
  comes _ _ _ := ⟨.mono fun u z hu ↦ (hsend u z hu).1, .mono fun u z hu ↦ (hsend u z hu).2⟩

theorem refl (hn : b.ids.Nodup) : Follows skip (fun u ↦ u) b b :=
  of_ids rfl hn (fun _ _ ↦ rfl) (fun _ ↦ rfl) fun _ _ _ ↦ .rfl

end Follows

theorem exit?_mem (hb : b.Coherent) {way : Way} (h : b.exit? u way = some z) : z ∈ b.ids := by
  obtain ⟨s, hs, h⟩ := Option.bind_eq_some_iff.1 h
  cases way with
  | next =>
    obtain ⟨-, hz⟩ := Option.ite_none_right_eq_some.1 h
    obtain ⟨p, -, hp⟩ := (successor?_eq_some hb.nodup).1 hz
    exact List.mem_of_getElem? hp
  | target i =>
    exact hb.targets _ ((stmt?_eq_some hb.nodup).1 hs) z (List.mem_of_getElem? h)
  | handler i e =>
    obtain ⟨-, hz⟩ := Option.ite_none_right_eq_some.1 h
    obtain ⟨t, ht, rfl⟩ := Option.map_eq_some_iff.1 hz
    obtain ⟨ht, -⟩ := Option.filter_eq_some_iff.1 ht
    exact hb.handlers t ((mem_around hb.nodup).1 (List.mem_of_getElem? ht)).1

theorem Follows.sameCourse (h : Follows skip f b c) (hb : b.Coherent)
    (hskip : ∀ u ∈ c.ids, skip u → ∃ t, c.stmt? u = some (.goto t)) : SameCourse skip b c := by
  have onward {start : Option UnitId} (hmem : ∀ z, start = some z → z ∈ b.ids) (v : UnitId) :
      c.Onward skip (start.map f) v ↔ b.Onward skip start v := by
    cases start with
    | none => simp [Onward]
    | some z => simp [Onward, h.comes z (hmem z rfl) v]
  refine ⟨fun v ↦ ?_, h.units, fun u hu hk ↦ ⟨?_, f, h.moved.stmt u hk⟩, fun u hu hk way v ↦ ?_,
    fun u hu hk ↦ ⟨hskip u hu hk, fun v ↦ ?_⟩⟩
  · rw [h.first]
    refine onward (fun z hz ↦ ?_) v
    obtain ⟨w, hw, rfl⟩ := Option.map_eq_some_iff.1 hz
    exact id_mem_ids (List.mem_of_mem_head? hw)
  · obtain ⟨x, hx, rfl⟩ := mem_ids.1 hu
    have hstmt := h.moved.stmt x.id hk
    rw [(stmt?_eq_some hb.nodup).2 hx] at hstmt
    obtain ⟨y, hy, -⟩ := Option.map_eq_some_iff.1 hstmt
    have hid : y.id = x.id := by simpa using List.find?_some hy
    exact hid ▸ id_mem_ids (List.mem_of_find?_eq_some hy)
  · rw [h.moved.exit? hk]
    exact onward (fun z ↦ exit?_mem hb) v
  · rw [← h.comes u (h.units.subset hu), h.fixed u hu]

end Body

namespace ConstantBranches

variable {b : Body} {r : Revision} {f : UnitId → UnitId} {skip : UnitId → Prop} {u w z : UnitId}
  {x : CodeUnit} {next : Option UnitId} {s : Stmt} {v : Verdict} {p : Nat}
  {l : List (UnitId × Verdict)}

theorem isSome_verdict? (s : Stmt) : (verdict? s).isSome = s.isConstantBranch := by
  cases s with
  | branch c t => simp [verdict?, Stmt.isConstantBranch]
  | switch key targets default =>
    cases key with
    | var y => rfl
    | const k => cases k <;> rfl
  | _ => rfl

def Verdict.goal? (next : Option UnitId) : Verdict → Option UnitId
  | .jumps t => some t
  | .fallsThrough => next

def route? : Stmt → Option Verdict
  | .goto t => some (.jumps t)
  | s => verdict? s

@[simp] theorem route?_goto (t : UnitId) : route? (.goto t) = some (.jumps t) := rfl

theorem sends_switch_iff {k : Constant} {n : Int} (hk : k.key? = some n) (targets : List UnitId)
    (default : UnitId) : (Stmt.switch (.const k) targets default).Sends next z ↔
      select targets default n = z := by
  constructor
  · intro h
    cases h with
    | index hi ht =>
      obtain rfl := Option.some.inj (hk.symm.trans hi)
      rw [select, if_neg (by omega), List.getD_eq_getElem?_getD, Int.toNat_natCast, ht]
      rfl
    | default hn hd =>
      obtain rfl := Option.some.inj (hk.symm.trans hn)
      unfold select
      split
      · rfl
      · rw [List.getD_eq_getElem?_getD, List.getElem?_eq_none, Option.getD_none]
        by_contra hlt
        exact hd n.toNat (by omega) (by omega)
  · rintro rfl
    unfold select
    split
    · exact .default hk fun i _ ↦ by omega
    · next hn =>
      rw [List.getD_eq_getElem?_getD]
      cases ht : targets[n.toNat]? with
      | none =>
        rw [List.getElem?_eq_none_iff] at ht
        exact .default hk fun i hi ↦ by omega
      | some t => exact .index (hk.trans (congrArg some (by omega))) ht

theorem sends_branch_iff {c : Comparison} {t : UnitId} : (Stmt.branch c t).Sends next z ↔
    (c.evaluate? = some true ∧ t = z) ∨ (c.evaluate? = some false ∧ next = some z) := by
  constructor
  · rintro (_ | h | ⟨h, hz⟩)
    · exact .inl ⟨h, rfl⟩
    · exact .inr ⟨h, hz⟩
  · rintro (⟨h, rfl⟩ | ⟨h, hz⟩)
    · exact .taken h
    · exact .untaken h hz

theorem sends_iff : s.Sends next z ↔ (route? s).bind (·.goal? next) = some z := by
  cases s with
  | goto t => exact ⟨by rintro ⟨⟩; rfl, by rintro ⟨⟩; exact .goto⟩
  | branch c t =>
    rw [sends_branch_iff]
    cases hc : c.evaluate? with
    | none => simp [route?, verdict?, hc]
    | some taken => cases taken <;> simp [route?, verdict?, hc, Verdict.goal?]
  | switch key targets default =>
    cases key with
    | var y => exact iff_of_false (by rintro ⟨⟩) (by simp [route?, verdict?])
    | const k =>
      cases k with
      | int n | long n =>
        rw [sends_switch_iff rfl, route?, verdict?, Option.bind_some, Verdict.goal?,
          Option.some_inj]
        all_goals simp
      | _ =>
        refine iff_of_false ?_ (by simp [route?, verdict?])
        rintro (_ | _ | _ | ⟨h, _⟩ | ⟨h, _⟩) <;> simp [Constant.key?] at h
  | _ => exact iff_of_false (by rintro ⟨⟩) (by simp [route?, verdict?])

theorem route?_mapTargets (f : UnitId → UnitId) (s : Stmt) :
    route? (s.mapTargets f) = (route? s).map (·.mapTarget f) := by
  cases s with
  | branch c t => exact verdict?_mapTargets f (.branch c t)
  | switch key targets default => exact verdict?_mapTargets f (.switch key targets default)
  | _ => rfl

theorem sends_mapTargets :
    (s.mapTargets f).Sends (next.map f) z ↔ ∃ y, s.Sends next y ∧ f y = z := by
  simp only [sends_iff, route?_mapTargets]
  cases route? s with
  | none => simp
  | some v => cases v <;> simp [Verdict.mapTarget, Verdict.goal?]

theorem route?_of_verdict? (h : verdict? s = some v) : route? s = some v := by
  cases s with
  | goto t => simp [verdict?] at h
  | _ => exact h

theorem follows_setStmt {t : UnitId} (hn : b.ids.Nodup) (hs : b.stmt? u = some s)
    (hv : verdict? s = some (.jumps t)) (hu : skip u) :
    Body.Follows skip (fun w ↦ w) b (b.setStmt u (.goto t)) := by
  have hids : (b.setStmt u (.goto t)).ids = b.ids := Body.ids_setStmt _ _ _
  refine .of_ids hids hn (fun w hw ↦ ?_) (Body.around_congr hids rfl) fun w z _ ↦ ?_
  · have hne : w ≠ u := by
      rintro rfl
      exact hw hu
    rw [Body.stmt?_setStmt, if_neg hne]
  · rw [Body.Sends, Body.Sends, Body.successor?_congr hn hids, Body.stmt?_setStmt]
    split
    · next he =>
      subst he
      simp [hs, sends_iff, route?_of_verdict? hv, Verdict.goal?]
    · rfl

theorem sends_removeAt (hn : b.ids.Nodup) (hp : b.units[p]? = some x) (hlt : p + 1 < b.size)
    (hw : w ≠ x.id) : (b.removeAt p).Sends w z ↔ ∃ y, b.Sends w y ∧ b.heir p y = z := by
  rw [Body.Sends, Body.stmt?_removeAt hn hp hw, Body.successor?_removeAt_eq hn hp (fun _ ↦ hlt) hw]
  cases hs : b.stmt? w with
  | none => simp [Body.Sends, hs]
  | some s => simp [Body.Sends, hs, sends_mapTargets]

theorem sends_of_fallsThrough {y : UnitId} (hn : b.ids.Nodup) (hp : b.units[p]? = some x)
    (hy : b.ids[p + 1]? = some y) (hv : verdict? x.stmt = some .fallsThrough) :
    b.Sends x.id z ↔ z = y := by
  rw [Body.Sends, (Body.stmt?_eq_some hn).2 (List.mem_of_getElem? hp),
    Body.successor?_of_getElem? hn (Body.id_of_unit hp), hy]
  simp [sends_iff, route?_of_verdict? hv, Verdict.goal?, eq_comm]

/-- Control that comes to a branch that is never taken comes to the next unit. -/
theorem comes_heir (hn : b.ids.Nodup) (hp : b.units[p]? = some x) (hlt : p + 1 < b.size)
    (hx : skip x.id) (hv : verdict? x.stmt = some .fallsThrough) :
    b.Comes skip (b.heir p u) z ↔ b.Comes skip u z := by
  have hid : b.ids[p]? = some x.id := Body.id_of_unit hp
  obtain ⟨y, hy⟩ := Body.exists_id_of_lt hlt
  have hsend {w : UnitId} : b.Sends x.id w ↔ w = y := sends_of_fallsThrough hn hp hy hv
  by_cases hu : u = x.id
  · rw [hu, Body.heir_self hid hy]
    refine ⟨fun h ↦ .pass hx (hsend.2 rfl) h, fun h ↦ ?_⟩
    cases h with
    | stop hstop => exact absurd hx hstop
    | pass _ hw h => exact hsend.1 hw ▸ h
  · rw [Body.heir_of_ne hid hu]

theorem comes_removeAt (hn : b.ids.Nodup) (hp : b.units[p]? = some x) (hlt : p + 1 < b.size)
    (hx : skip x.id) (hv : verdict? x.stmt = some .fallsThrough) :
    (b.removeAt p).Comes skip (b.heir p u) z ↔ b.Comes skip u z := by
  have hid : b.ids[p]? = some x.id := Body.id_of_unit hp
  obtain ⟨y, hy⟩ := Body.exists_id_of_lt hlt
  have hyx : y ≠ x.id := Body.next_ne hn hid hy
  have hself : b.heir p x.id = y := Body.heir_self hid hy
  have hother {w : UnitId} (hw : w ≠ x.id) : b.heir p w = w := Body.heir_of_ne hid hw
  have hleave (w : UnitId) : b.heir p w ≠ x.id := Body.heir_ne hn hid hlt w
  have hback {w z : UnitId} (h : (b.removeAt p).Comes skip w z) (hw : w ≠ x.id) :
      b.Comes skip w z := by
    induction h with
    | stop hu => exact .stop hu
    | pass hu hs _ ih =>
      obtain ⟨w', hw', rfl⟩ := (sends_removeAt hn hp hlt hw).1 hs
      exact .pass hu hw' ((comes_heir hn hp hlt hx hv).1 (ih (hleave w')))
  refine ⟨fun h ↦ (comes_heir hn hp hlt hx hv).1 (hback h (hleave u)), fun h ↦ ?_⟩
  induction h with
  | stop hu =>
    rw [hother]
    · exact .stop hu
    · rintro rfl
      exact hu hx
  | @pass u w z hu hw _ ih =>
    by_cases hux : u = x.id
    · -- what the removed branch sent control to is its heir
      rw [hux] at hw ⊢
      rw [(sends_of_fallsThrough hn hp hy hv).1 hw, hother hyx] at ih
      rwa [hself]
    · rw [hother hux]
      exact .pass hu ((sends_removeAt hn hp hlt hux).2 ⟨w, hw, rfl⟩) ih

theorem follows_removeAt (hb : b.Coherent) (hp : b.units[p]? = some x) (hlt : p + 1 < b.size)
    (hx : skip x.id) (hv : verdict? x.stmt = some .fallsThrough) :
    Body.Follows skip (b.heir p) b (b.removeAt p) := by
  have hid : b.ids[p]? = some x.id := Body.id_of_unit hp
  have hne {w : UnitId} (hw : ¬ skip w) : w ≠ x.id := by
    rintro rfl
    exact hw hx
  refine ⟨by simpa using List.eraseIdx_sublist b.ids p, fun u hu ↦ ?_, fun u hu ↦ ?_,
    Body.first?_removeAt hb.nodup hp hlt, (Body.moved_removeAt hb hp hlt).mono fun u hu ↦ hne hu,
    fun u _ z ↦ comes_removeAt hb.nodup hp hlt hx hv⟩
  · obtain ⟨q, hq⟩ := List.getElem?_of_mem hu
    exact List.mem_of_getElem? (Body.getElem?_heir hb.nodup hid hq fun _ ↦ hlt)
  · exact Body.heir_of_ne hid ((Body.mem_ids_removeAt hb.nodup hid).1 hu).2

theorem follows_dropEmptyTraps (hn : b.ids.Nodup) :
    Body.Follows skip (fun w ↦ w) b b.dropEmptyTraps :=
  .of_ids rfl hn (fun _ _ ↦ rfl) b.around_dropEmptyTraps fun _ _ _ ↦ .rfl

/-- What is left to fold, and what is folded: the verdicts still are the verdicts on the units, and
every unit to be skipped without one is a goto. -/
structure Due (skip : UnitId → Prop) (b : Body) (l : List (UnitId × Verdict)) : Prop where
  nodup : (l.map (·.1)).Nodup
  skips : ∀ a ∈ l, skip a.1
  stands : ∀ a ∈ l, ∃ s, b.stmt? a.1 = some s ∧ verdict? s = some a.2
  rest : ∀ u ∈ b.ids, skip u → u ∉ l.map (·.1) → ∃ t, b.stmt? u = some (.goto t)

theorem Due.pending (h : Due skip b l) : Pending b l where
  nodup := h.nodup
  forks a ha := by
    obtain ⟨s, hs, hv⟩ := h.stands a ha
    obtain ⟨w, hw, he, rfl⟩ := Body.exists_unit_of_stmt? hs
    exact ⟨w, hw, he, Option.isSome_iff_exists.2 ⟨a.2, hv⟩, (verdict?_spec hv).2.1⟩

theorem Due.setStmt {t : UnitId} (h : Due skip b ((u, .jumps t) :: l)) :
    Due skip (b.setStmt u (.goto t)) l := by
  obtain ⟨s, hstmt, -⟩ := h.stands _ List.mem_cons_self
  obtain ⟨hfresh, hnodup⟩ := List.nodup_cons.1 h.nodup
  refine ⟨hnodup, fun a ha ↦ h.skips a (List.mem_cons_of_mem _ ha), fun a ha ↦ ?_,
    fun w hw hk hl ↦ ?_⟩
  · have hne : a.1 ≠ u := fun he ↦ hfresh (List.mem_map.2 ⟨a, ha, he⟩)
    rw [Body.stmt?_setStmt, if_neg hne]
    exact h.stands a (List.mem_cons_of_mem _ ha)
  · rw [Body.ids_setStmt] at hw
    rw [Body.stmt?_setStmt]
    by_cases he : w = u
    · rw [if_pos he, he, hstmt]
      exact ⟨t, rfl⟩
    · rw [if_neg he]
      exact h.rest w hw hk (by simp [he, hl])

theorem Due.removeAt (h : Due skip b ((x.id, .fallsThrough) :: l)) (hn : b.ids.Nodup)
    (hp : b.units[p]? = some x) (hs : ∀ a ∈ l, a.2 ≠ .jumps x.id) : Due skip (b.removeAt p) l := by
  have hid : b.ids[p]? = some x.id := Body.id_of_unit hp
  obtain ⟨hfresh, hnodup⟩ := List.nodup_cons.1 h.nodup
  refine ⟨hnodup, fun a ha ↦ h.skips a (List.mem_cons_of_mem _ ha), fun a ha ↦ ?_,
    fun w hw hk hl ↦ ?_⟩
  · have hne : a.1 ≠ x.id := fun he ↦ hfresh (List.mem_map.2 ⟨a, ha, he⟩)
    obtain ⟨s, hstmt, hv⟩ := h.stands a (List.mem_cons_of_mem _ ha)
    refine ⟨_, by rw [Body.stmt?_removeAt hn hp hne, hstmt, Option.map_some], ?_⟩
    rw [verdict?_mapTargets, hv, Option.map_some]
    cases ht : a.2 with
    | fallsThrough => rfl
    | jumps t =>
      have htx : t ≠ x.id := by
        rintro rfl
        exact hs a ha ht
      rw [Verdict.mapTarget, Body.heir_of_ne hid htx]
  · obtain ⟨hwb, hwx⟩ := (Body.mem_ids_removeAt hn hid).1 hw
    obtain ⟨t, ht⟩ := h.rest w hwb hk (by simp [hwx, hl])
    exact ⟨_, by rw [Body.stmt?_removeAt hn hp hwx, ht, Option.map_some]; rfl⟩

theorem Due.fold (h : Due skip r.body ((u, v) :: l)) (hr : r.body.Sound)
    (hs : v = .fallsThrough → ∀ a ∈ l, a.2 ≠ .jumps u) : Due skip (fold r u v).body l ∧
      ∃ f, Body.Follows skip f r.body (fold r u v).body := by
  have hn := hr.coherent.nodup
  have hskip := h.skips _ List.mem_cons_self
  obtain ⟨s, hstmt, hv⟩ := h.stands _ List.mem_cons_self
  cases v with
  | jumps t => exact ⟨h.setStmt, _, follows_setStmt hn hstmt hv hskip⟩
  | fallsThrough =>
    obtain ⟨p, hup, hlt, he⟩ := removed_fold hr.end_sealed hn h.pending
    obtain ⟨x, hx, rfl⟩ := Body.unit_of_id hup
    obtain rfl : x.stmt = s := by
      rw [(Body.stmt?_eq_some hn).2 (List.mem_of_getElem? hx)] at hstmt
      exact Option.some.inj hstmt
    rw [he]
    exact ⟨h.removeAt hn hx (hs rfl), _, follows_removeAt hr.coherent hx hlt hskip hv⟩

theorem follows_foldAll (l : List (UnitId × Verdict)) (r : Revision) (hr : r.body.Sound)
    (hd : Due skip r.body l) (ha : Aimed r.body l)
    (hs : l.Pairwise fun a z ↦ a.2 = .fallsThrough → z.2 ≠ .jumps a.1) :
    Due skip (foldAll r l).body [] ∧ ∃ f, Body.Follows skip f r.body (foldAll r l).body := by
  induction l generalizing r with
  | nil => exact ⟨hd, _, .refl hr.coherent.nodup⟩
  | cons a l ih =>
    rw [List.pairwise_cons] at hs
    have hsafe : a.2 = .fallsThrough → ∀ z ∈ l, z.2 ≠ .jumps a.1 := fun hv z hz ↦ hs.1 z hz hv
    obtain ⟨hsound, haimed⟩ := sound_fold hr hd.pending ha hsafe
    obtain ⟨hdue, f, hf⟩ := hd.fold hr hsafe
    obtain ⟨hdone, g, hg⟩ := ih _ hsound hdue haimed hs.2
    exact ⟨hdone, _, hf.trans hg⟩

theorem due_verdicts (hn : b.ids.Nodup) : Due b.Folds b (verdicts b) where
  nodup := (pending_verdicts hn).nodup
  skips a ha := by
    obtain ⟨w, hw, he, hv⟩ := (Body.mem_found verdict?).1 ha
    refine ⟨w.stmt, (Body.stmt?_eq_some hn).2 (he ▸ hw), ?_⟩
    rw [← isSome_verdict?, hv, Option.isSome_some]
  stands a ha := by
    obtain ⟨w, hw, he, hv⟩ := (Body.mem_found verdict?).1 ha
    exact ⟨w.stmt, (Body.stmt?_eq_some hn).2 (he ▸ hw), hv⟩
  rest u _ hu hl := by
    obtain ⟨s, hs, hf⟩ := hu
    obtain ⟨w, hw, rfl, rfl⟩ := Body.exists_unit_of_stmt? hs
    rw [← isSome_verdict?] at hf
    obtain ⟨v, hv⟩ := Option.isSome_iff_exists.1 hf
    exact absurd (List.mem_map_of_mem ((Body.mem_found verdict?).2 ⟨w, hw, rfl, hv⟩)) hl

theorem sameCourse_revise (hb : b.Valid) (he : b.Sealed) (hs : Safe b) :
    Body.SameCourse b.Folds b (revise b).body := by
  have hsound := sound_foldAll hb he hs
  obtain ⟨hdone, f, hf⟩ := follows_foldAll (verdicts b) ⟨b, [], false⟩ (hb.sound he)
    (due_verdicts hb.nodup) (aimed_verdicts hb) (safe_iff.1 hs)
  refine (hf.trans (follows_dropEmptyTraps hsound.coherent.nodup)).sameCourse hb.coherent ?_
  exact fun u hu hk ↦ hdone.rest u hu hk (by simp)

/-- The pass succeeds on every valid body with an end that control does not run off. It leaves a
valid body through which control takes the same course exactly if no branch that is never taken
comes before one that always jumps to it. -/
theorem course_kept_iff (m : Signature) (hb : b.validate = .ok ())
    (he : ∀ u, b.units.getLast? = some u → u.stmt.fallsThrough = false) :
    (∃ changed, (Pass.constantBranches.run m b).result = .ok changed) ∧
    ((Pass.constantBranches.run m b).body.validate = .ok () ∧
      Body.SameCourse b.Folds b (Pass.constantBranches.run m b).body ↔ Safe b) := by
  have hvalid := Body.validate_eq_ok.1 hb
  have hsealed : b.Sealed := fun u hu ↦ .inl (he u hu)
  refine ⟨⟨_, rfl⟩, ?_⟩
  rw [Body.validate_eq_ok]
  constructor
  · rintro ⟨hv, -⟩
    exact (valid_revise_iff hvalid hsealed).1 hv
  · exact fun hs ↦ ⟨(valid_revise_iff hvalid hsealed).2 hs, sameCourse_revise hvalid hsealed hs⟩

def nullary : Signature where
  declaringType := "A"
  name := "m"
  isStatic := true
  parameters := []
  returnType := .void

/-- A switch that jumps to a branch that is never taken, before a branch that always jumps. -/
def decidedChain : Body where
  units :=
    [⟨⟨0⟩, .switch (.const (.long 5)) [⟨1⟩] ⟨2⟩⟩,
      ⟨⟨1⟩, .branch ⟨.lt, .const (.int 1), .const (.int 2)⟩ ⟨3⟩⟩,
      ⟨⟨2⟩, .branch ⟨.gt, .const (.int 1), .const (.int 2)⟩ ⟨1⟩⟩,
      ⟨⟨3⟩, .ret none⟩]
  nextUnit := 4

theorem course_kept_decidedChain :
    (decidedChain.validate = .ok () ∧
      ∀ u, decidedChain.units.getLast? = some u → u.stmt.fallsThrough = false) ∧
    (Pass.constantBranches.run nullary decidedChain).body.validate = .ok () ∧
      Body.SameCourse decidedChain.Folds decidedChain
        (Pass.constantBranches.run nullary decidedChain).body := by
  have hb : decidedChain.validate = .ok () := by decide +kernel
  have he : ∀ u, decidedChain.units.getLast? = some u → u.stmt.fallsThrough = false := by
    intro u hu
    obtain rfl := Option.some.inj hu
    rfl
  exact ⟨⟨hb, he⟩, (course_kept_iff nullary hb he).2.2 (by decide +kernel)⟩

def decidedSwitch : Body where
  units :=
    [⟨⟨0⟩, .branch ⟨.eq, .const (.int 1), .const (.int 2)⟩ ⟨2⟩⟩,
      ⟨⟨1⟩, .switch (.const (.int 0)) [⟨0⟩] ⟨2⟩⟩,
      ⟨⟨2⟩, .ret none⟩]
  nextUnit := 3

theorem course_lost_decidedSwitch :
    decidedSwitch.validate = .ok () ∧
    (∀ u, decidedSwitch.units.getLast? = some u → u.stmt.fallsThrough = false) ∧
    (Pass.constantBranches.run nullary decidedSwitch).body.validate =
      .error (.invariant (.missingTarget ⟨1⟩ ⟨0⟩)) := by
  refine ⟨by decide +kernel, fun u hu ↦ ?_, by decide +kernel⟩
  obtain rfl := Option.some.inj hu
  rfl

end ConstantBranches

end ThreeAddress
