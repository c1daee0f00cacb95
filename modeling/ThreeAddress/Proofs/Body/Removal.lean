import ThreeAddress.Proofs.Body.Coverage

namespace ThreeAddress

section Splice

variable {α κ : Type} [DecidableEq κ] {key : α → κ} {l m : List α} {x : α} {p : Nat}

/-- Where keys tell the elements apart, a place in a list can be named by its key. -/
theorem splice_eq_flatMap (hn : (l.map key).Nodup) (hp : l[p]? = some x) :
    l.take p ++ m ++ l.drop (p + 1) = l.flatMap fun y ↦ if key y = key x then m else [y] := by
  induction l generalizing p with
  | nil => simp at hp
  | cons y l ih =>
    obtain ⟨hy, hl⟩ := List.nodup_cons.1 hn
    cases p with
    | zero =>
      obtain rfl : y = x := by simpa using hp
      have hrest : (l.flatMap fun z ↦ if key z = key y then m else [z]) = l := by
        rw [List.flatMap_congr (g := fun z ↦ [z]), List.flatMap_singleton']
        intro z hz
        have hne : key z ≠ key y := fun he ↦ hy (he ▸ List.mem_map_of_mem hz)
        exact if_neg hne
      simp [hrest]
    | succ p =>
      rw [List.getElem?_cons_succ] at hp
      have hne : key y ≠ key x := fun he ↦ hy (he ▸ List.mem_map_of_mem (List.mem_of_getElem? hp))
      rw [List.flatMap_cons, if_neg hne, ← ih hl hp]
      rfl

theorem eraseIdx_eq_filter (hn : (l.map key).Nodup) (hp : l[p]? = some x) :
    l.eraseIdx p = l.filter (key · ≠ key x) := by
  have hsplice := splice_eq_flatMap (m := []) hn hp
  rw [List.append_nil, ← List.eraseIdx_eq_take_drop_succ] at hsplice
  rw [hsplice]
  clear hn hp hsplice
  induction l with
  | nil => rfl
  | cons y l ih => by_cases h : key y = key x <;> simp [h, ih]

end Splice

namespace Body

variable {b c : Body} {u : UnitId} {x : CodeUnit} {s : Stmt} {t : Trap} {p : Nat}

def passOn (b : Body) (u : UnitId) : UnitId → UnitId := rename u ((b.successor? u).getD u)

theorem rename_self (u : UnitId) : rename u u = fun t ↦ t := by
  funext t
  by_cases h : t = u <;> simp [rename, h]

theorem passOn_eq_heir (hn : b.ids.Nodup) (hx : b.units[p]? = some x) :
    b.passOn x.id = b.heir p := by
  have hsucc : b.successor? x.id = b.units[p + 1]?.map (·.id) := by
    rw [successor?_of_getElem? hn (id_of_unit hx), getElem?_ids]
  rw [passOn, hsucc]
  cases hnext : b.units[p + 1]? with
  | none => simp [heir, hx, hnext, rename_self]
  | some next => simp [heir, hx, hnext]

theorem remove_of_not_mem (hu : u ∉ b.ids) :
    b.remove u = .error (.invariant (.removedMissing u)) := by
  rw [remove, position?_eq_none.2 hu]

theorem remove_of_unit (hn : b.ids.Nodup) (hx : b.units[p]? = some x) : b.remove x.id =
    if b.isRemovable x.id then .ok (x.stmt.mapTargets (b.passOn x.id), b.removeAt p)
    else .error (.invariant (.removedTrailing x.id)) := by
  have hid := id_of_unit hx
  rw [remove, (position?_eq_some hn).2 hid, stmt?_of_id hn hid, stmtAt?_of_unit hx]
  rfl

/-- A unit stays where it is only in last place, and only if something refers to it. -/
theorem isRemovable_eq_false (hn : b.ids.Nodup) (hx : b.units[p]? = some x) :
    b.isRemovable x.id = false ↔
      b.ids.getLast? = some x.id ∧ b.isReferenced x.id = true := by
  have hid := id_of_unit hx
  have hlt := lt_size_of_getElem? hid
  have hlast : b.ids.getLast? = some x.id ↔ ¬ p + 1 < b.size := by
    rw [List.getLast?_eq_getElem?, length_ids]
    constructor
    · intro hl
      have := index_unique hn hid hl
      omega
    · intro hge
      rwa [show b.size - 1 = p by omega]
  rw [← Bool.not_eq_true, isRemovable_iff hn hid, not_or, hlast, Bool.not_eq_false]

/-- Removal by changes to a body in place: first the references move, then the unit goes. -/
def removing (u : UnitId) : EStateM Error Body Stmt := do
  let b ← get
  match b.position? u with
  | none => throw (.invariant (.removedMissing u))
  | some p =>
    match b.units[p + 1]? with
    | some next => modify (·.redirect u next.id)
    | none => if b.isReferenced u then throw (.invariant (.removedTrailing u))
    let c ← get
    set (c.eraseAt p)
    return (c.stmtAt? p).getD default

theorem stmtAt?_redirect (b : Body) (a z : UnitId) (p : Nat) :
    (b.redirect a z).stmtAt? p = (b.stmtAt? p).map (·.mapTargets (rename a z)) := by
  simp only [stmtAt?, redirect, List.getElem?_map, Option.map_map]
  rfl

/-- Where the removal fails, the body in place is the one that was there before. -/
theorem run_removing (hn : b.ids.Nodup) (u : UnitId) : (removing u).run b =
    match b.remove u with
    | .ok (s, c) => .ok s c
    | .error e => .error e b := by
  by_cases hu : u ∈ b.ids
  · obtain ⟨p, hp⟩ := List.getElem?_of_mem hu
    obtain ⟨x, hx, rfl⟩ := unit_of_id hp
    have hpos : b.position? x.id = some p := (position?_eq_some hn).2 hp
    have hrem := isRemovable_iff hn hp
    rw [remove_of_unit hn hx, passOn_eq_heir hn hx]
    cases hnext : b.units[p + 1]? with
    | none =>
      have hlast : ¬ p + 1 < b.size := Nat.not_lt.2 (List.getElem?_eq_none_iff.1 hnext)
      have hheir : b.heir p = fun t ↦ t := by simp [heir, hx, hnext]
      cases hr : b.isReferenced x.id with
      | true =>
        have hkept : b.isRemovable x.id = false := by simpa [hlast, hr] using hrem
        simp [removing, EStateM.run_throw, hpos, hnext, hr, hkept]
      | false =>
        have hgone : b.isRemovable x.id = true := by simp [hrem, hr]
        simp [removing, -bind_pure_comp, hpos, hnext, hr, hgone, hheir, stmtAt?_of_unit hx,
          removeAt_last hlast]
    | some next =>
      have hgone : b.isRemovable x.id = true :=
        hrem.2 (.inl (List.getElem?_eq_some_iff.1 hnext).1)
      have hheir : b.heir p = rename x.id next.id := by simp [heir, hx, hnext]
      have hleft : b.removeAt p = (b.redirect x.id next.id).eraseAt p := by
        simp [removeAt, hx, hnext]
      simp [removing, -bind_pure_comp, hpos, hnext, hgone, hheir, hleft, stmtAt?_redirect,
        stmtAt?_of_unit hx]
  · rw [remove_of_not_mem hu]
    simp only [removing, EStateM.run_bind, EStateM.run_get, position?_eq_none.2 hu]
    rfl

theorem within_removeAt (h : b.Coherent) (hp : b.ids[p]? = some u)
    (hr : b.isRemovable u = true) (ht : t ∈ b.traps) :
    (b.removeAt p).within (t.mapRefs (b.heir p)) = (b.within t).erase u := by
  have hids : (b.removeAt p).ids = b.ids.filter (· != u) := by
    obtain ⟨hlt, rfl⟩ := List.getElem?_eq_some_iff.1 hp
    rw [ids_removeAt, ← h.nodup.erase_eq_filter]
    exact (h.nodup.erase_getElem p hlt).symm
  rw [(nodup_within h.nodup).erase_eq_filter, within, hids, within,
    List.filter_comm (· != u) _ b.ids]
  refine List.filter_congr fun w hw ↦ ?_
  have hne : w ≠ u := by simpa using (List.mem_filter.1 hw).2
  rw [Bool.eq_iff_iff, any_covers_iff (nodup_removeAt h.nodup p), any_covers_iff h.nodup]
  exact surrounds_removeAt h hp hr hne ht

/-- Where no trap is turned around, the empty ones are those that cover nothing. -/
theorem Coherent.within_eq_nil_iff (h : b.Coherent) (ht : t ∈ b.traps) :
    b.within t = [] ↔ b.isEmptyTrap t = true := by
  constructor
  · intro hnil
    obtain ⟨i, j, hi, hj, hle⟩ := h.spans t ht
    rw [h.isEmptyTrap_iff ht]
    by_contra hne
    have hij : i ≠ j := by
      rintro rfl
      exact hne (Option.some.inj (hi.symm.trans hj))
    have hfirst : t.first ∈ b.within t :=
      (mem_within h.nodup).2 ⟨i, i, j, hi, hi, hj, Nat.le_refl i, Nat.lt_of_le_of_ne hle hij⟩
    exact List.ne_nil_of_mem hfirst hnil
  · intro hempty
    rw [within, List.filter_eq_nil_iff]
    intro w _ hcovered
    obtain ⟨k, -, hcovers⟩ := (Option.any_eq_true ..).1 hcovered
    rw [isEmptyTrap_of_covers hcovers] at hempty
    exact Bool.false_ne_true hempty

theorem Valid.within_ne_nil (h : b.Valid) (ht : t ∈ b.traps) : b.within t ≠ [] := by
  intro hnil
  have hempty := (h.coherent.within_eq_nil_iff ht).1 hnil
  rw [h.isEmptyTrap_eq_false ht] at hempty
  exact Bool.false_ne_true hempty

theorem isEmptyTrap_removeAt (h : b.Valid) (hp : b.ids[p]? = some u)
    (hr : b.isRemovable u = true) (ht : t ∈ b.traps) :
    (b.removeAt p).isEmptyTrap (t.mapRefs (b.heir p)) = decide (b.within t = [u]) := by
  have hmem : t.mapRefs (b.heir p) ∈ (b.removeAt p).traps := by
    rw [removeAt_eq]
    exact List.mem_map_of_mem ht
  rw [Bool.eq_iff_iff, ← (h.coherent.removeAt hp hr).within_eq_nil_iff hmem,
    within_removeAt h.coherent hp hr ht, List.erase_eq_nil_iff, decide_eq_true_iff]
  exact or_iff_right (h.within_ne_nil ht)

structure Removed (b : Body) (u : UnitId) (c : Body) : Prop where
  locals : c.locals = b.locals
  nextUnit : c.nextUnit = b.nextUnit
  units : c.units = (b.units.filter (·.id ≠ u)).map (·.mapStmt (·.mapTargets (b.passOn u)))
  traps : c.traps = b.traps.map (·.mapRefs (b.passOn u))
  within : ∀ t ∈ b.traps, c.within (t.mapRefs (b.passOn u)) = (b.within t).erase u
  emptied : c.emptyTraps = (b.traps.filter (b.within · = [u])).map (·.mapRefs (b.passOn u))
  pruned : c.dropEmptyTraps = { c with
    traps := (b.traps.filter (b.within · ≠ [u])).map (·.mapRefs (b.passOn u)) }
  valid : c.units ≠ [] → c.dropEmptyTraps.Valid

theorem removed_removeAt (h : b.Valid) (hx : b.units[p]? = some x)
    (hr : b.isRemovable x.id = true) : b.Removed x.id (b.removeAt p) := by
  have hp := id_of_unit hx
  have hunits : b.units.eraseIdx p = b.units.filter (·.id ≠ x.id) := eraseIdx_eq_filter h.nodup hx
  have htraps : (b.removeAt p).traps = b.traps.map (·.mapRefs (b.heir p)) := by rw [removeAt_eq]
  constructor
  case locals => exact locals_removeAt b p
  case nextUnit => exact nextUnit_removeAt b p
  case units => rw [passOn_eq_heir h.nodup hx, ← hunits, removeAt_eq]
  case traps => rw [passOn_eq_heir h.nodup hx, htraps]
  case within =>
    rw [passOn_eq_heir h.nodup hx]
    exact fun t ht ↦ within_removeAt h.coherent hp hr ht
  case emptied =>
    rw [passOn_eq_heir h.nodup hx, emptyTraps, htraps, List.filter_map]
    exact congrArg _ (List.filter_congr fun t ht ↦ isEmptyTrap_removeAt h hp hr ht)
  case pruned =>
    rw [passOn_eq_heir h.nodup hx, dropEmptyTraps, htraps, List.filter_map]
    have hkept : b.traps.filter ((!(b.removeAt p).isEmptyTrap ·) ∘ (·.mapRefs (b.heir p))) =
        b.traps.filter (b.within · ≠ [x.id]) :=
      List.filter_congr fun t ht ↦ by simp [isEmptyTrap_removeAt h hp hr ht]
    rw [hkept]
  case valid => exact (h.coherent.removeAt hp hr).valid_dropEmptyTraps

/-- The unit has no place to hand over: it is missing, or nothing follows it that could take the
references to it. -/
def Stuck (b : Body) (u : UnitId) : Prop :=
  u ∉ b.ids ∨ b.ids.getLast? = some u ∧ b.isReferenced u = true

/-- A removal fails exactly on the stuck units, and then changes nothing. Else it returns the
statement of the unit and takes that unit away, and no other. -/
theorem remove_exact (h : b.Valid) (u : UnitId) :
    (b.Stuck u → ∃ e, b.remove u = .error e ∧ (removing u).run b = .error e b) ∧
      (¬ b.Stuck u → ∃ s c, b.stmt? u = some s ∧
        b.remove u = .ok (s.mapTargets (b.passOn u), c) ∧
        (removing u).run b = .ok (s.mapTargets (b.passOn u)) c ∧ b.Removed u c) := by
  have hrun := run_removing h.nodup u
  by_cases hu : u ∈ b.ids
  · obtain ⟨x, hmem, rfl⟩ := mem_ids.1 hu
    obtain ⟨p, hx⟩ := List.getElem?_of_mem hmem
    have hstuck : b.Stuck x.id ↔ b.isRemovable x.id = false := by
      rw [Stuck, isRemovable_eq_false h.nodup hx]
      exact or_iff_right (not_not.2 hu)
    have hremove := remove_of_unit h.nodup hx
    rw [hstuck, Bool.not_eq_false]
    constructor
    · intro hr
      rw [hr, if_neg Bool.false_ne_true] at hremove
      rw [hremove] at hrun
      exact ⟨_, hremove, hrun⟩
    · intro hr
      rw [hr, if_pos rfl] at hremove
      rw [hremove] at hrun
      exact ⟨x.stmt, b.removeAt p, (stmt?_eq_some h.nodup).2 hmem, hremove, hrun,
        removed_removeAt h hx hr⟩
  · have hremove := remove_of_not_mem hu
    rw [hremove] at hrun
    exact ⟨fun _ ↦ ⟨_, hremove, hrun⟩, fun hstuck ↦ absurd (.inl hu) hstuck⟩

/-- A jump over a nop. One trap covers the jump and ends at the nop, the other covers the nop alone,
which is its handler too. -/
def hurdle : Body where
  units := [⟨⟨0⟩, .goto ⟨1⟩⟩, ⟨⟨1⟩, .nop⟩, ⟨⟨2⟩, .ret none⟩]
  traps := [⟨⟨0⟩, ⟨1⟩, ⟨2⟩, .object "E"⟩, ⟨⟨1⟩, ⟨2⟩, ⟨1⟩, .object "F"⟩]
  nextUnit := 3

/-- The last unit stays, for a trap ends there. Without the nop the trap around it is empty, and the
jump and the other trap go on to the next unit. -/
theorem remove_exact_hurdle : hurdle.Valid ∧
    (∃ e, (removing ⟨2⟩).run hurdle = .error e hurdle) ∧
    ∃ c, (removing ⟨1⟩).run hurdle = .ok .nop c ∧ c.dropEmptyTraps.Valid ∧
      c.units = [⟨⟨0⟩, .goto ⟨2⟩⟩, ⟨⟨2⟩, .ret none⟩] ∧
      c.dropEmptyTraps.traps = [⟨⟨0⟩, ⟨2⟩, ⟨2⟩, .object "E"⟩] := by
  have hvalid : hurdle.Valid := validate_eq_ok.1 (by decide +kernel)
  have hlast : hurdle.Stuck ⟨2⟩ := .inr (by decide)
  have hnop : ¬ hurdle.Stuck ⟨1⟩ := by simp [Stuck, hurdle, ids]
  obtain ⟨e, -, hfailed⟩ := (remove_exact hvalid ⟨2⟩).1 hlast
  obtain ⟨s, c, hs, -, hrun, hc⟩ := (remove_exact hvalid ⟨1⟩).2 hnop
  obtain rfl : Stmt.nop = s := Option.some.inj hs
  have hunits : c.units = [⟨⟨0⟩, .goto ⟨2⟩⟩, ⟨⟨2⟩, .ret none⟩] := hc.units.trans (by decide)
  refine ⟨hvalid, ⟨e, hfailed⟩, c, hrun, hc.valid (by simp [hunits]), hunits, ?_⟩
  have hkept : (hurdle.traps.filter (hurdle.within · ≠ [⟨1⟩])).map
      (·.mapRefs (hurdle.passOn ⟨1⟩)) = [⟨⟨0⟩, ⟨2⟩, ⟨2⟩, .object "E"⟩] := by decide
  rw [hc.pruned, hkept]

end Body

end ThreeAddress
