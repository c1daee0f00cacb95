import ThreeAddress.Proofs.Body.Motion
import ThreeAddress.Proofs.Body.Removal

namespace ThreeAddress

/-- A choice among what elements grow into that only looks at the element is a choice among the
elements. -/
theorem filter_flatMap_of {α : Type} {l : List α} {e : α → List α} {keep keep' : α → Bool}
    (h : ∀ a ∈ l, ∀ z ∈ e a, keep' z = keep a) :
    (l.flatMap e).filter keep' = (l.filter keep).flatMap e := by
  induction l with
  | nil => rfl
  | cons a l ih =>
    have hrest := ih fun a' ha' ↦ h a' (List.mem_cons_of_mem a ha')
    have hhead : (e a).filter keep' = if keep a then e a else [] := by
      split
      · next hk => exact List.filter_eq_self.2 fun z hz ↦ (h a List.mem_cons_self z hz).trans hk
      · next hk =>
        rw [List.filter_eq_nil_iff]
        intro z hz
        rwa [h a List.mem_cons_self z hz]
    rw [List.flatMap_cons, List.filter_append, hrest, hhead, List.filter_cons]
    split <;> simp

namespace Body

variable {b c : Body} {u w : UnitId} {s : Stmt} {stmts : List Stmt} {t : Trap} {p : Nat}

def freshIds (b : Body) (k : Nat) : List UnitId := (List.range' b.nextUnit k).map UnitId.mk

theorem mem_freshIds {k : Nat} : w ∈ b.freshIds k ↔ ∃ i < k, w = ⟨b.nextUnit + i⟩ := by
  simp [freshIds, List.mem_range', eq_comm]

theorem map_fresh {k : Nat} (hroom : b.HasRoom k) :
    (List.range k).map b.fresh = b.freshIds k := by
  rw [freshIds, List.range'_eq_map_range, List.map_map]
  exact List.map_congr_left fun i hi ↦
    fresh_eq (hroom.mono (Nat.le_of_lt (List.mem_range.1 hi)))

theorem Bounded.disjoint_freshIds (hb : b.Bounded) (k : Nat) : (b.freshIds k).Disjoint b.ids := by
  intro w hfresh hw
  obtain ⟨i, -, rfl⟩ := mem_freshIds.1 hfresh
  have hlt : b.nextUnit + i < b.nextUnit := hb _ hw
  omega

def handOut : EStateM Error Body UnitId :=
  modifyGet fun b ↦ (b.fresh 0, { b with nextUnit := wrapId (b.nextUnit + 1) })

/-- Replacement by changes to a body in place: identities are handed out to the statements, these
are spliced in, and then the references move. -/
def replacing (u : UnitId) (stmts : List Stmt) : EStateM Error Body (List UnitId) := do
  let b ← get
  match stmts, b.position? u with
  | [], _ => throw (.invariant (.replacedByNothing u))
  | _ :: _, none => throw (.invariant (.replacedMissing u))
  | _ :: _, some p =>
    let fresh ← stmts.mapM fun s ↦ return ⟨← handOut, s⟩
    modify fun c ↦ { c with units := c.units.take p ++ fresh ++ c.units.drop (p + 1) }
    if let first :: _ := fresh then modify (·.redirect u first.id)
    return fresh.map (·.id)

theorem number_wrapId (n : Nat) (stmts : List Stmt) : number (wrapId n) stmts = number n stmts := by
  refine List.ext_getElem? fun i ↦ ?_
  rw [getElem?_number, getElem?_number, wrapId_wrapId_add]

theorem run_handOuts (b : Body) (s : Stmt) (stmts : List Stmt) :
    ((s :: stmts).mapM fun s ↦ return ⟨← handOut, s⟩ : EStateM Error Body (List CodeUnit)).run b =
      .ok (number b.nextUnit (s :: stmts))
        { b with nextUnit := wrapId (b.nextUnit + (s :: stmts).length) } := by
  induction stmts generalizing b s with
  | nil => rfl
  | cons s' stmts ih =>
    have hhand : handOut.run b =
      .ok (b.fresh 0) { b with nextUnit := wrapId (b.nextUnit + 1) } := rfl
    have hlength : b.nextUnit + 1 + (s' :: stmts).length = b.nextUnit + (s :: s' :: stmts).length :=
      Nat.add_right_comm b.nextUnit 1 _
    rw [List.mapM_cons]
    simp only [EStateM.run_bind, hhand, EStateM.run_pure, ih, number_wrapId, wrapId_wrapId_add]
    rw [hlength]
    rfl

/-- Where the replacement fails, the body in place is the one that was there before. -/
theorem run_replacing (b : Body) (u : UnitId) (stmts : List Stmt) : (replacing u stmts).run b =
    match b.replace u stmts with
    | .ok (is, c) => .ok is c
    | .error e => .error e b := by
  cases stmts with
  | nil => rfl
  | cons s stmts =>
    cases hp : b.position? u with
    | none =>
      simp only [replacing, replace, EStateM.run_bind, EStateM.run_get, hp]
      rfl
    | some p =>
      simp only [replacing, replace, EStateM.run_bind, EStateM.run_get, hp, run_handOuts]
      simp only [number, EStateM.run_bind, EStateM.run_modify, EStateM.run_pure]
      rfl

namespace Replaced

theorem units_eq_flatMap (h : b.Replaced u p stmts c) (hn : b.ids.Nodup) :
    c.units = (b.units.flatMap fun v ↦ if v.id = u then number b.nextUnit stmts else [v]).map
      (·.mapStmt (·.mapTargets (rename u (b.fresh 0)))) := by
  obtain ⟨x, hx, rfl⟩ := unit_of_id h.place
  rw [h.units, splice_eq_flatMap hn hx]

variable (hroom : b.HasRoom stmts.length)
include hroom

theorem ids_eq_flatMap (h : b.Replaced u p stmts c) (hn : b.ids.Nodup) :
    c.ids = b.ids.flatMap fun w ↦ if w = u then b.freshIds stmts.length else [w] := by
  have hid : (b.ids.map id).Nodup := by rwa [List.map_id]
  rw [h.ids, map_fresh hroom]
  exact splice_eq_flatMap hid h.place

/-- A trap covers the new units in place of the one that they replace, and otherwise the units that
it covered. -/
theorem within (h : b.Replaced u p stmts c) (hb : b.Coherent) (hc : c.ids.Nodup)
    (ht : t ∈ b.traps) : c.within (t.mapRefs (rename u (b.fresh 0))) =
      (b.within t).flatMap fun w ↦ if w = u then b.freshIds stmts.length else [w] := by
  rw [Body.within, h.ids_eq_flatMap hroom hb.nodup]
  refine filter_flatMap_of fun w hw z hz ↦ ?_
  rw [Bool.eq_iff_iff, any_covers_iff hc, any_covers_iff hb.nodup]
  by_cases hwu : w = u
  · rw [if_pos hwu, ← map_fresh hroom] at hz
    obtain ⟨i, hi, rfl⟩ := List.mem_map.1 hz
    rw [hwu]
    exact h.surrounds_fresh hb hc (List.mem_range.1 hi) ht
  · rw [if_neg hwu] at hz
    rw [List.mem_singleton.1 hz]
    exact h.surrounds_old hb hc hw hwu ht

/-- Behind a replacement, a reference names a unit exactly if it named one of the body or a new
one. -/
theorem rename_mem_iff (h : b.Replaced u p stmts c) (hn : b.ids.Nodup) :
    rename u (b.fresh 0) w ∈ c.ids ↔ w ∈ b.ids ∨ w ∈ b.freshIds stmts.length := by
  by_cases hw : w = u
  · have hu : u ∈ b.ids := List.mem_of_getElem? h.place
    rw [hw]
    exact iff_of_true (h.rename_mem hn hu) (.inl hu)
  · have hnew : w ∈ b.freshIds stmts.length ↔ ∃ i < stmts.length, w = b.fresh i := by
      simp [← map_fresh hroom, eq_comm]
    rw [rename, if_neg hw, h.mem_ids hn, hnew, and_iff_left hw]

omit hroom in
theorem exists_unit_of_mem (h : b.Replaced u p stmts c) (hc : c.ids.Nodup) (hs : s ∈ stmts) :
    ∃ v ∈ c.units, v.stmt = s.mapTargets (rename u (b.fresh 0)) := by
  obtain ⟨i, hi⟩ := List.getElem?_of_mem hs
  exact ⟨_, (stmt?_eq_some hc).1 (h.stmt?_fresh hc hi), rfl⟩

/-- A valid body stays valid exactly under statements that jump to its units or to each other, and
mention its locals. -/
theorem valid_iff (h : b.Replaced u p stmts c) (hv : b.Valid) (hc : c.ids.Nodup) :
    c.Valid ↔ ∀ s ∈ stmts, (∀ t ∈ s.targets, t ∈ b.ids ∨ t ∈ b.freshIds stmts.length) ∧
      ∀ x ∈ s.locals, x ∈ b.locals.map (·.id) := by
  constructor
  · intro hvalid s hs
    obtain ⟨v, hv', hstmt⟩ := h.exists_unit_of_mem hc hs
    have htargets := hvalid.targets v hv'
    have hlocals := hvalid.declared v hv'
    rw [hstmt, Stmt.targets_mapTargets] at htargets
    rw [hstmt, Stmt.locals_mapTargets, h.locals] at hlocals
    exact ⟨fun t ht ↦ (h.rename_mem_iff hroom hv.nodup).1 (htargets _ (List.mem_map_of_mem ht)),
      hlocals⟩
  · intro hs
    exact h.valid_of_targets hv hc
      (fun s hm t ht ↦ (h.rename_mem_iff hroom hv.nodup).2 ((hs s hm).1 t ht))
      fun s hm ↦ (hs s hm).2

end Replaced

structure Spliced (b : Body) (u : UnitId) (stmts : List Stmt) (c : Body) : Prop where
  locals : c.locals = b.locals
  nextUnit : c.nextUnit = b.nextUnit + stmts.length
  units : c.units = (b.units.flatMap fun v ↦ if v.id = u then number b.nextUnit stmts else [v]).map
    (·.mapStmt (·.mapTargets (rename u ⟨b.nextUnit⟩)))
  traps : c.traps = b.traps.map (·.mapRefs (rename u ⟨b.nextUnit⟩))
  ids : c.ids = b.ids.flatMap fun w ↦ if w = u then b.freshIds stmts.length else [w]
  within : ∀ t ∈ b.traps, c.within (t.mapRefs (rename u ⟨b.nextUnit⟩)) =
    (b.within t).flatMap fun w ↦ if w = u then b.freshIds stmts.length else [w]
  nodup : c.ids.Nodup
  bounded : c.Bounded
  valid : c.Valid ↔ ∀ s ∈ stmts, (∀ t ∈ s.targets, t ∈ b.ids ∨ t ∈ b.freshIds stmts.length) ∧
    ∀ x ∈ s.locals, x ∈ b.locals.map (·.id)

theorem Replaced.spliced (h : b.Replaced u p stmts c) (hv : b.Valid) (hb : b.Bounded)
    (hroom : b.HasRoom stmts.length) : b.Spliced u stmts c := by
  have hc := h.nodup hv.nodup hb hroom
  have hfirst : b.fresh 0 = ⟨b.nextUnit⟩ := fresh_eq (hroom.mono (Nat.zero_le _))
  refine ⟨h.locals, h.nextUnit_eq hroom, ?_, ?_, h.ids_eq_flatMap hroom hv.nodup, fun t ht ↦ ?_, hc,
    h.bounded hb hroom, h.valid_iff hroom hv hc⟩
  · rw [← hfirst, h.units_eq_flatMap hv.nodup]
  · rw [← hfirst, h.traps]
  · rw [← hfirst, h.within hroom hv.coherent hc ht]

theorem replace_error_iff :
    (∃ e, b.replace u stmts = .error e) ↔ stmts = [] ∨ u ∉ b.ids := by
  cases stmts with
  | nil => simp [replace]
  | cons s stmts =>
    rw [← position?_eq_none, replace]
    cases b.position? u <;> simp

def brink : Body where
  units := [⟨⟨0⟩, .nop⟩, ⟨⟨4294967294⟩, .ret none⟩]
  nextUnit := 4294967295

end Body

end ThreeAddress
