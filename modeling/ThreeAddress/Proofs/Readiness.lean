import ThreeAddress.Proofs.Cleanup

namespace ThreeAddress

namespace Body

variable {b c d : Body} {u : CodeUnit} {p : Nat}

/-- Control does not run off the end, unless over an empty statement. -/
def Sealed (b : Body) : Prop :=
  ∀ u, b.units.getLast? = some u → u.stmt.fallsThrough = false ∨ u.stmt = .nop

/-- A body that passes accept. -/
structure Ready (b : Body) : Prop where
  valid : b.Valid
  bounded : b.Bounded
  end_sealed : b.Sealed

structure Sound (b : Body) : Prop where
  coherent : b.Coherent
  end_sealed : b.Sealed
  nonempty : b.units ≠ []

structure Steady (b : Body) : Prop where
  coherent : b.Coherent
  bounded : b.Bounded
  end_sealed : b.Sealed
  nonempty : b.units ≠ []

theorem Valid.sound (h : b.Valid) (hs : b.Sealed) : b.Sound := ⟨h.coherent, hs, h.nonempty⟩

theorem Steady.sound (h : b.Steady) : b.Sound := ⟨h.coherent, h.end_sealed, h.nonempty⟩

theorem Sound.steady (h : b.Sound) (hb : b.Bounded) : b.Steady :=
  ⟨h.coherent, hb, h.end_sealed, h.nonempty⟩

theorem Ready.steady (h : b.Ready) : b.Steady := (h.valid.sound h.end_sealed).steady h.bounded

theorem Steady.ready_dropEmptyTraps (h : b.Steady) : b.dropEmptyTraps.Ready :=
  ⟨h.coherent.valid_dropEmptyTraps h.nonempty, h.bounded, h.end_sealed⟩

theorem Ready.withTraps (h : b.Ready) {ts : List Trap} (hts : ∀ t ∈ ts, b.Guards t) :
    Ready { b with traps := ts } :=
  ⟨h.valid.withTraps hts, h.bounded, h.end_sealed⟩

theorem Sealed.lt_of_fallsThrough (h : b.Sealed) (hp : b.units[p]? = some u)
    (hf : u.stmt.fallsThrough = true) (hn : u.stmt ≠ .nop) : p + 1 < b.size := by
  refine lt_of_getLast?_ne hp fun hlast ↦ ?_
  obtain hu | hu := h u hlast
  · simp [hf] at hu
  · exact hn hu

theorem getLast?_removeAt (hlt : p + 1 < b.size) : (b.removeAt p).units.getLast? =
    b.units.getLast?.map (·.mapStmt (·.mapTargets (b.heir p))) := by
  have hl : (b.units.eraseIdx p).length + 1 = b.units.length := by
    rw [List.length_eraseIdx_of_lt (Nat.lt_of_succ_lt hlt)]
    exact Nat.sub_add_cancel (Nat.lt_of_le_of_lt (Nat.zero_le p) (Nat.lt_of_succ_lt hlt))
  have hlt : p + 1 < b.units.length := hlt
  rw [removeAt_eq, List.getLast?_map, List.getLast?_eq_getElem?, List.getLast?_eq_getElem?,
    List.getElem?_eraseIdx_of_ge (by omega)]
  congr 2
  omega

theorem Sealed.removeAt (h : b.Sealed) (hlt : p + 1 < b.size) : (b.removeAt p).Sealed := by
  intro w hw
  rw [getLast?_removeAt hlt] at hw
  obtain ⟨v, hv, rfl⟩ := Option.map_eq_some_iff.1 hw
  simpa using h v hv

theorem Sound.removeAt (h : b.Sound) (hlt : p + 1 < b.size) : (b.removeAt p).Sound := by
  obtain ⟨u, hu⟩ := Body.exists_id_of_lt (Nat.lt_of_succ_lt hlt)
  refine ⟨?_, h.end_sealed.removeAt hlt, ?_⟩
  · exact h.coherent.removeAt hu ((isRemovable_iff h.coherent.nodup hu).2 (.inl hlt))
  · intro he
    have hs := size_removeAt (Nat.lt_of_succ_lt hlt)
    have hz : (b.removeAt p).size = 0 := by simp [size, he]
    omega

theorem Steady.removeAt (h : b.Steady) (hlt : p + 1 < b.size) : (b.removeAt p).Steady :=
  (h.sound.removeAt hlt).steady ((b.noFresh_removeAt p).bounded h.bounded)

end Body

/-- A cleanup that removes only units that control falls through, and blanks none, keeps to bodies
that passes accept. -/
theorem Revision.Steps.steady {gone : CodeUnit → Prop} {r r' : Revision}
    (hg : ∀ v, gone v → v.stmt.fallsThrough = true ∧ v.stmt ≠ .nop)
    (h : Revision.Steps gone (fun _ ↦ False) r r') (hr : r.body.Steady) : r'.body.Steady := by
  induction h with
  | refl => exact hr
  | tail _ hs ih =>
    cases hs with
    | remove u p n hp hu _ _ =>
      exact ih.removeAt (ih.end_sealed.lt_of_fallsThrough hp (hg u hu).1 (hg u hu).2)
    | overwrite u s n _ _ hf _ _ _ => exact hf.elim
    | dropTraps ts ns hs _ _ =>
      exact ⟨ih.coherent.subTraps hs.subset, ih.bounded, ih.end_sealed, ih.nonempty⟩

structure Stmt.SameFlow (s t : Stmt) : Prop where
  targets : t.targets = s.targets
  fallsThrough : t.fallsThrough = s.fallsThrough
  nop : s = .nop → t = .nop

theorem Stmt.SameFlow.refl (s : Stmt) : s.SameFlow s := ⟨rfl, rfl, id⟩

theorem Stmt.SameFlow.trans {s t v : Stmt} (h : s.SameFlow t) (h' : t.SameFlow v) :
    s.SameFlow v :=
  ⟨h'.targets.trans h.targets, h'.fallsThrough.trans h.fallsThrough, h'.nop ∘ h.nop⟩

namespace Body

variable {b c d : Body}

/-- `c` is `b` but for statements that lead control where the ones of `b` do, and for the table of
locals. -/
structure Restated (b c : Body) : Prop where
  ids : c.ids = b.ids
  traps : c.traps = b.traps
  nextUnit : c.nextUnit = b.nextUnit
  flow : ∀ (p : Nat) (w : CodeUnit), c.units[p]? = some w →
    ∃ v : CodeUnit, b.units[p]? = some v ∧ v.stmt.SameFlow w.stmt

namespace Restated

theorem of_units (hu : c.units = b.units) (ht : c.traps = b.traps)
    (hn : c.nextUnit = b.nextUnit) : Restated b c where
  ids := by
    rw [Body.ids, Body.ids, hu]
  traps := ht
  nextUnit := hn
  flow p w hw := ⟨w, hu ▸ hw, .refl w.stmt⟩

theorem trans (h : Restated b c) (h' : Restated c d) : Restated b d where
  ids := h'.ids.trans h.ids
  traps := h'.traps.trans h.traps
  nextUnit := h'.nextUnit.trans h.nextUnit
  flow p w hw := by
    obtain ⟨v, hv, hvw⟩ := h'.flow p w hw
    obtain ⟨z, hz, hzv⟩ := h.flow p v hv
    exact ⟨z, hz, hzv.trans hvw⟩

theorem mapStmts {f : Stmt → Stmt} (hf : ∀ s : Stmt, s.SameFlow (f s)) :
    Restated b (b.mapStmts f) where
  ids := ids_mapStmts b f
  traps := rfl
  nextUnit := rfl
  flow p w hw := by
    obtain ⟨v, hv, rfl⟩ : ∃ v, b.units[p]? = some v ∧ v.mapStmt f = w := by
      simpa [Body.mapStmts] using hw
    exact ⟨v, hv, hf v.stmt⟩

theorem modifyAt {f : Stmt → Stmt} (p : Nat)
    (hf : ∀ u, b.units[p]? = some u → u.stmt.SameFlow (f u.stmt)) :
    Restated b (b.modifyAt p f) where
  ids := ids_modifyAt b p f
  traps := rfl
  nextUnit := rfl
  flow q w hw := by
    rw [Body.modifyAt, List.getElem?_modify] at hw
    obtain ⟨v, hv, rfl⟩ := Option.map_eq_some_iff.1 hw
    refine ⟨v, hv, ?_⟩
    by_cases hpq : p = q
    · simpa [hpq] using hf v (hpq ▸ hv)
    · simpa [hpq] using Stmt.SameFlow.refl v.stmt

theorem noFresh (h : Restated b c) : NoFresh b c :=
  ⟨h.ids ▸ List.Subset.refl _, h.nextUnit⟩

theorem size_eq (h : Restated b c) : c.size = b.size := by
  rw [← length_ids, ← length_ids, h.ids]

theorem sealed (h : Restated b c) (hb : b.Sealed) : c.Sealed := by
  intro w hw
  rw [List.getLast?_eq_getElem?] at hw
  obtain ⟨v, hv, hvw⟩ := h.flow _ w hw
  have hl : c.units.length = b.units.length := h.size_eq
  rw [hl, ← List.getLast?_eq_getElem?] at hv
  rw [hvw.fallsThrough]
  exact (hb v hv).imp id hvw.nop

theorem valid (h : Restated b c) (hb : b.Valid)
    (hl : ∀ w ∈ c.units, ∀ x ∈ w.stmt.locals, x ∈ c.locals.map (·.id)) : c.Valid := by
  refine hb.restate h.ids h.traps ?_ hl
  intro w hw t ht
  obtain ⟨p, hp⟩ := List.getElem?_of_mem hw
  obtain ⟨v, hv, hvw⟩ := h.flow p w hp
  exact hb.targets v (List.mem_of_getElem? hv) t (hvw.targets ▸ ht)

theorem ready (h : Restated b c) (hb : b.Ready)
    (hl : ∀ w ∈ c.units, ∀ x ∈ w.stmt.locals, x ∈ c.locals.map (·.id)) : c.Ready where
  valid := h.valid hb.valid hl
  bounded := h.noFresh.bounded hb.bounded
  end_sealed := h.sealed hb.end_sealed

end Restated

end Body

/-- The pass succeeds on every body with `P`, and leaves one with `Q`. -/
def Pass.Carries (pass : Pass) (P Q : Body → Prop) : Prop :=
  ∀ m b, P b → (∃ changed, (pass.run m b).result = .ok changed) ∧ Q (pass.run m b).body

end ThreeAddress
