import Mathlib.Logic.Relation
import ThreeAddress.Proofs.Body.Edits

namespace ThreeAddress.Body

def GotoStep (b : Body) (u v : UnitId) : Prop := ⟨u, .goto v⟩ ∈ b.units

/-- The unit lies on a cycle of gotos only. -/
def OnGotoCycle (b : Body) (u : UnitId) : Prop := Relation.TransGen b.GotoStep u u

/-- No jump goes to a goto, unless that goto lies on a cycle of gotos. -/
def Unchained (b : Body) : Prop :=
  ∀ w ∈ b.units, ∀ t ∈ w.stmt.targets, ∀ z, b.GotoStep t z → b.OnGotoCycle t

/-- Control that comes to position `q` goes over statements that can be skipped up to `v`. -/
structure Rests (skip : Stmt → Prop) (b : Body) (q : Nat) (v : CodeUnit) : Prop where
  stays : ¬ skip v.stmt
  ahead : ∃ r, q ≤ r ∧ b.units[r]? = some v ∧
    ∀ i u, q ≤ i → i < r → b.units[i]? = some u → skip u.stmt

/-- No jump comes to rest at a goto, unless that goto lies on a cycle of gotos. -/
def Lands (skip : Stmt → Prop) (b : Body) : Prop :=
  ∀ w ∈ b.units, ∀ t ∈ w.stmt.targets, ∀ q, b.ids[q]? = some t →
    ∀ v, Rests skip b q v → ∀ z, v.stmt = .goto z → b.OnGotoCycle v.id

variable {skip : Stmt → Prop} {b c : Body} {p q : Nat} {u v w : CodeUnit} {t x y z : UnitId}

theorem gotoStep_of_unit (hu : b.units[q]? = some u) (hz : u.stmt = .goto z) :
    b.GotoStep u.id z := by
  rw [GotoStep, ← hz]
  exact List.mem_of_getElem? hu

theorem GotoStep.mem (h : b.GotoStep x y) : x ∈ b.ids := mem_ids.2 ⟨_, h, rfl⟩

theorem GotoStep.stmt_eq (h : b.GotoStep x y) (hn : b.ids.Nodup) (hu : u ∈ b.units)
    (he : u.id = x) : u.stmt = .goto y := by
  rw [eq_of_id_eq hn hu h he]

theorem GotoStep.unique (h : b.GotoStep x y) (hn : b.ids.Nodup) (h' : b.GotoStep x z) : y = z :=
  Stmt.goto.inj (h'.stmt_eq hn h rfl)

theorem OnGotoCycle.step (h : b.OnGotoCycle x) :
    ∃ y, b.GotoStep x y ∧ Relation.ReflTransGen b.GotoStep y x :=
  Relation.TransGen.head'_iff.1 h

theorem OnGotoCycle.next (h : b.OnGotoCycle x) (hn : b.ids.Nodup) (hxy : b.GotoStep x y) :
    b.OnGotoCycle y := by
  obtain ⟨z, hxz, hz⟩ := h.step
  obtain rfl := hxy.unique hn hxz
  exact .tail' hz hxy

theorem OnGotoCycle.exists_goto (h : b.OnGotoCycle x) : ∃ y, b.GotoStep x y := by
  obtain ⟨y, hxy, -⟩ := h.step
  exact ⟨y, hxy⟩

theorem Rests.eq (h : Rests skip b q v) (hu : b.units[q]? = some u) (hs : ¬ skip u.stmt) :
    u = v := by
  obtain ⟨-, r, hqr, hr, hahead⟩ := h
  obtain rfl : q = r := by
    by_contra hne
    exact hs (hahead q u (Nat.le_refl q) (Nat.lt_of_le_of_ne hqr hne) hu)
  exact Option.some.inj (hu.symm.trans hr)

theorem Unchained.goto (h : b.Unchained) (hw : w ∈ b.units) (ht : u.id ∈ w.stmt.targets)
    (hu : b.units[q]? = some u) (hz : u.stmt = .goto z) : b.OnGotoCycle u.id :=
  h w hw u.id ht z (gotoStep_of_unit hu hz)

theorem Unchained.lands (h : b.Unchained) : b.Lands fun _ ↦ False := by
  intro w hw t ht q hq v hv z hz
  obtain ⟨u, hu⟩ := exists_unit_of_lt (lt_size_of_getElem? hq)
  obtain rfl : u.id = t := Option.some.inj ((id_of_unit hu).symm.trans hq)
  obtain rfl := hv.eq hu id
  exact h.goto hw ht hu hz

theorem Lands.unchained (hs : ∀ z, ¬ skip (.goto z)) (h : b.Lands skip) : b.Unchained := by
  intro w hw t ht z hz
  obtain ⟨q, hq⟩ := List.getElem?_of_mem hz
  exact h w hw t ht q (id_of_unit hq) ⟨t, .goto z⟩
    ⟨hs z, q, Nat.le_refl q, hq, fun i u hi hlt ↦ absurd hlt (Nat.not_lt_of_le hi)⟩ z rfl

theorem Unchained.of_units (hu : c.units = b.units) (h : b.Unchained) : c.Unchained := by
  have hstep : c.GotoStep = b.GotoStep := by
    funext x y
    rw [GotoStep, GotoStep, hu]
  intro w hw t ht z hz
  rw [OnGotoCycle, hstep]
  exact h w (hu ▸ hw) t ht z (hstep ▸ hz)

/-- The unit at the position can be skipped, or it is a goto to the next unit. -/
inductive Idle (skip : Stmt → Prop) (b : Body) (p : Nat) (u : CodeUnit) : Prop
  | skipped : b.units[p]? = some u → skip u.stmt → Idle skip b p u
  | goto {next : CodeUnit} : b.units[p]? = some u → b.units[p + 1]? = some next →
      u.stmt = .goto next.id → Idle skip b p u

theorem Idle.unit (h : Idle skip b p u) : b.units[p]? = some u := by
  cases h with
  | skipped hu _ => exact hu
  | goto hu _ _ => exact hu

theorem GotoStep.removeAt (h : b.GotoStep x y) (hp : b.units[p]? = some u) (hne : x ≠ u.id) :
    (b.removeAt p).GotoStep x (b.heir p y) := by
  obtain ⟨q, hq⟩ := List.getElem?_of_mem h
  refine mem_removeAt.2 ⟨q, ⟨x, .goto y⟩, ?_, hq, rfl⟩
  rintro rfl
  exact hne (congrArg CodeUnit.id (Option.some.inj (hq.symm.trans hp)))

section Removal

variable (hs : ∀ z, ¬ skip (.goto z)) (hn : b.ids.Nodup) (hi : Idle skip b p u)

include hs hn hi

/-- The removal moves what a goto to the next unit refers to and what refers to that goto to one
unit. -/
theorem Idle.heir_eq (h : b.GotoStep u.id y) :
    b.heir p u.id = y ∧ b.heir p y = y ∧ y ≠ u.id ∧ b.ids[p + 1]? = some y := by
  have hu := hi.unit
  have hgoto := h.stmt_eq hn (List.mem_of_getElem? hu) rfl
  cases hi with
  | skipped _ hskip => exact absurd (hgoto ▸ hskip) (hs y)
  | @goto next _ hnext hstmt =>
    obtain rfl : next.id = y := Stmt.goto.inj (hstmt.symm.trans hgoto)
    have hne : next.id ≠ u.id := next_ne hn (id_of_unit hu) (id_of_unit hnext)
    exact ⟨heir_self (id_of_unit hu) (id_of_unit hnext), heir_of_ne (id_of_unit hu) hne, hne,
      id_of_unit hnext⟩

theorem reflTransGen_heir (h : Relation.ReflTransGen b.GotoStep x y) :
    Relation.ReflTransGen (b.removeAt p).GotoStep (b.heir p x) (b.heir p y) := by
  refine h.lift' (b.heir p) fun x y hxy ↦ ?_
  change Relation.ReflTransGen _ (b.heir p x) (b.heir p y)
  by_cases hne : x = u.id
  · subst hne
    obtain ⟨hu, hy, -, -⟩ := hi.heir_eq hs hn hxy
    rw [hu, hy]
  · rw [heir_of_ne (id_of_unit hi.unit) hne]
    exact .single (hxy.removeAt hi.unit hne)

theorem OnGotoCycle.heir (h : b.OnGotoCycle x) : (b.removeAt p).OnGotoCycle (b.heir p x) := by
  have hother : ∀ x, x ≠ u.id → b.OnGotoCycle x → (b.removeAt p).OnGotoCycle (b.heir p x) := by
    intro x hne hx
    obtain ⟨y, hxy, hy⟩ := hx.step
    have hback := reflTransGen_heir hs hn hi hy
    rw [heir_of_ne (id_of_unit hi.unit) hne] at hback ⊢
    exact .head' (hxy.removeAt hi.unit hne) hback
  by_cases hne : x = u.id
  · subst hne
    obtain ⟨y, hxy⟩ := h.exists_goto
    obtain ⟨hu, hy, hyne, -⟩ := hi.heir_eq hs hn hxy
    rw [hu, ← hy]
    exact hother y hyne (h.next hn hxy)
  · exact hother x hne h

end Removal

def unslide (p q : Nat) : Nat := if q < p then q else q + 1

theorem unslide_ne (p q : Nat) : unslide p q ≠ p := by
  unfold unslide
  split <;> omega

theorem unslide_mono (p : Nat) {r : Nat} (h : q ≤ r) : unslide p q ≤ unslide p r := by
  unfold unslide
  split <;> split <;> omega

/-- What lay between two places before the removal lies between them after it. -/
theorem exists_unslide {a i r : Nat} (hi : i ≠ p) (ha : unslide p a ≤ i) (hr : i < unslide p r) :
    ∃ j, unslide p j = i ∧ a ≤ j ∧ j < r := by
  unfold unslide at *
  by_cases hip : i < p
  · refine ⟨i, if_pos hip, ?_, ?_⟩
    · split at ha <;> omega
    · split at hr <;> omega
  · refine ⟨i - 1, ?_, ?_, ?_⟩
    · rw [if_neg (by omega)]
      omega
    · split at ha <;> omega
    · split at hr <;> omega

theorem getElem?_removeAt (b : Body) (p q : Nat) : (b.removeAt p).units[q]? =
    b.units[unslide p q]?.map (·.mapStmt (·.mapTargets (b.heir p))) := by
  rw [removeAt_eq, List.getElem?_map, List.getElem?_eraseIdx, unslide]
  split <;> rfl

/-- A jump of the body with the unit removed comes from one of the body before, and its target lies
where the old one did, or behind the unit that went. -/
theorem exists_target (hn : b.ids.Nodup) (hp : b.units[p]? = some u)
    (hw : w ∈ (b.removeAt p).units) (ht : t ∈ w.stmt.targets)
    (hq : (b.removeAt p).ids[q]? = some t) :
    ∃ v ∈ b.units, ∃ z ∈ v.stmt.targets, ∃ a, b.ids[a]? = some z ∧
      (a = unslide p q ∨ a = p ∧ unslide p q = p + 1) := by
  have hback : b.ids[unslide p q]? = some t := by
    rw [getElem?_ids, getElem?_removeAt, Option.map_map] at hq
    rw [getElem?_ids]
    exact hq
  obtain ⟨i, v, -, hv, rfl⟩ := mem_removeAt.1 hw
  obtain ⟨z, hz, rfl⟩ : ∃ z ∈ v.stmt.targets, b.heir p z = t := by simpa using ht
  refine ⟨v, List.mem_of_getElem? hv, z, hz, ?_⟩
  by_cases hzu : z = u.id
  · subst hzu
    refine ⟨p, id_of_unit hp, .inr ⟨rfl, ?_⟩⟩
    cases hnext : b.units[p + 1]? with
    | none =>
      have hself : b.heir p u.id = u.id := by simp [Body.heir, hp, hnext]
      rw [hself] at hback
      exact absurd (index_unique hn hback (id_of_unit hp)) (unslide_ne p q)
    | some next =>
      rw [heir_self (id_of_unit hp) (id_of_unit hnext)] at hback
      exact index_unique hn hback (id_of_unit hnext)
  · rw [heir_of_ne (id_of_unit hp) hzu] at hback
    exact ⟨unslide p q, hback, .inl rfl⟩

/-- Control that comes to rest after the removal came to rest there before it, or at the goto to the
next unit that went, and then it comes to rest from that next unit on. -/
theorem Rests.of_removeAt {a : Nat} {v' : CodeUnit}
    (hm : ∀ (s : Stmt) f, skip (s.mapTargets f) ↔ skip s) (hs : ∀ z, ¬ skip (.goto z))
    (hn : b.ids.Nodup) (hi : Idle skip b p u) (h : Rests skip (b.removeAt p) q v')
    (ha : a = unslide p q ∨ a = p ∧ unslide p q = p + 1) :
    ∃ v : CodeUnit, v' = v.mapStmt (·.mapTargets (b.heir p)) ∧ v.id ≠ u.id ∧
      (Rests skip b a v ∨ ∃ next, u.stmt = .goto next.id ∧ b.units[p + 1]? = some next ∧
        Rests skip b a u ∧ Rests skip b (p + 1) v) := by
  obtain ⟨hstay, r, hqr, hr, hahead⟩ := h
  rw [getElem?_removeAt] at hr
  obtain ⟨v, hv, rfl⟩ := Option.map_eq_some_iff.1 hr
  rw [CodeUnit.stmt_mapStmt, hm] at hstay
  have hne : v.id ≠ u.id := fun he ↦ unslide_ne p r (index_unique hn (he ▸ id_of_unit hv)
    (id_of_unit hi.unit))
  have hqr' := unslide_mono p hqr
  have hle : a ≤ unslide p r := by omega
  have hskips : ∀ i u', a ≤ i → i < unslide p r → i ≠ p → b.units[i]? = some u' →
      skip u'.stmt := by
    intro i u' hai hir hip hu'
    obtain ⟨j, hj, hqj, hjr⟩ := exists_unslide (a := q) hip (by omega) hir
    have hj' := hahead j (u'.mapStmt (·.mapTargets (b.heir p))) hqj hjr (by
      rw [getElem?_removeAt, hj, hu', Option.map_some])
    exact (hm u'.stmt (b.heir p)).1 hj'
  refine ⟨v, rfl, hne, ?_⟩
  by_cases hbetween : a ≤ p ∧ p < unslide p r
  · obtain ⟨hap, hpr⟩ := hbetween
    cases hi with
    | skipped hu hskip =>
      refine .inl ⟨hstay, unslide p r, hle, hv, fun i u' hai hir hu' ↦ ?_⟩
      by_cases hip : i = p
      · obtain rfl := Option.some.inj ((hip ▸ hu').symm.trans hu)
        exact hskip
      · exact hskips i u' hai hir hip hu'
    | @goto next hu hnext hstmt =>
      refine .inr ⟨next, hstmt, hnext, ⟨hstmt ▸ hs next.id, p, hap, hu, fun i u' hai hip ↦ ?_⟩,
        hstay, unslide p r, hpr, hv, fun i u' hpi hir ↦ ?_⟩
      · exact hskips i u' hai (Nat.lt_trans hip hpr) (Nat.ne_of_lt hip)
      · exact hskips i u' (by omega) hir (by omega)
  · exact .inl ⟨hstay, unslide p r, hle, hv, fun i u' hai hir ↦ hskips i u' hai hir (by omega)⟩

/-- Removing units without effect makes no chain: what a jump comes to rest at then it came to rest
at before, or it came to rest at the goto that went, and that one was part of a cycle. -/
theorem Lands.removeAt (hs : ∀ z, ¬ skip (.goto z))
    (hm : ∀ (s : Stmt) f, skip (s.mapTargets f) ↔ skip s) (hn : b.ids.Nodup)
    (hi : Idle skip b p u) (h : b.Lands skip) : (b.removeAt p).Lands skip := by
  intro w hw t ht q hq v' hrest z hz
  obtain ⟨y, hy, x, hx, a, ha, haq⟩ := exists_target hn hi.unit hw ht hq
  obtain ⟨v, rfl, hne, hrest⟩ := hrest.of_removeAt hm hs hn hi haq
  obtain ⟨z', hz'⟩ : ∃ z', v.stmt = .goto z' := by
    cases hv : v.stmt <;> simp_all [CodeUnit.mapStmt, Stmt.mapTargets]
  have hcycle : b.OnGotoCycle v.id := by
    obtain hv | ⟨next, hstmt, hnext, hu, hv⟩ := hrest
    · exact h y hy x hx a ha v hv z' hz'
    · have hcycle := (h y hy x hx a ha u hu next.id hstmt).next hn (gotoStep_of_unit hi.unit hstmt)
      -- The next unit is a goto as well, so control rests there.
      obtain ⟨y', hy'⟩ := hcycle.exists_goto
      have hgoto := hy'.stmt_eq hn (List.mem_of_getElem? hnext) rfl
      exact hv.eq hnext (hgoto ▸ hs y') ▸ hcycle
  have hc := hcycle.heir hs hn hi
  rwa [heir_of_ne (id_of_unit hi.unit) hne] at hc

end ThreeAddress.Body
