import ThreeAddress.Proofs.Body.Hollow
import ThreeAddress.Proofs.WellFormedness

namespace ThreeAddress

namespace Body

variable {b : Body} {p : Nat}

/-- No unit is empty or a goto to the next one, but perhaps a single unit, or a last one that
something refers to. -/
def Purged (b : Body) : Prop :=
  ∀ p u, b.units[p]? = some u → u.stmt = .nop ∨ b.isGotoNext p = true →
    b.size = 1 ∨ p + 1 = b.size ∧ b.isReferenced u.id = true

theorem hollow_dropEmptyTraps : b.dropEmptyTraps.Hollow p ↔ b.Hollow p := by
  have hsame (c d : Body) (hu : d.units = c.units) (h : c.Hollow p) : d.Hollow p := by
    have hat (p : Nat) : d.stmtAt? p = c.stmtAt? p := by rw [stmtAt?, stmtAt?, hu]
    have hids : d.ids = c.ids := by rw [ids, ids, hu]
    induction h with
    | nop hs => exact .nop ((hat _).trans hs)
    | goto hs hq hlt _ ih => exact .goto ((hat _).trans hs) (hids ▸ hq) hlt ih
  exact ⟨hsame _ _ rfl, hsame _ _ rfl⟩

end Body

namespace Nops

variable {b : Body} {p : Nat} {u : CodeUnit}

theorem hollow_of_isIdle (h : isIdle b p = true) : b.Hollow p := by
  obtain ⟨-, u, hu, hs, -⟩ := isIdle_iff.1 h
  obtain hs | hs := hs
  · exact .nop (hs ▸ Body.stmtAt?_of_unit hu)
  · obtain ⟨v, next, hv, hnext, hs⟩ := Body.isGotoNext_iff.1 hs
    refine .goto (hs ▸ Body.stmtAt?_of_unit hv) (Body.id_of_unit hnext) (Nat.lt_succ_self p) ?_
    omega

theorem purged_iff (hn : b.ids.Nodup) : b.Purged ↔ ∀ p, isIdle b p = false := by
  constructor
  · intro h p
    rw [Bool.eq_false_iff]
    intro hidle
    obtain ⟨htwo, u, hu, hs, hr⟩ := isIdle_iff.1 hidle
    obtain hone | ⟨hlast, href⟩ := h p u hu hs
    · omega
    · obtain hlt | hnone := (Body.isRemovable_iff hn (Body.id_of_unit hu)).1 hr
      · omega
      · rw [href] at hnone
        cases hnone
  · intro h p u hu hs
    have hlt := Body.lt_size_of_getElem? (Body.id_of_unit hu)
    by_cases hone : b.size = 1
    · exact .inl hone
    · have hkept : b.isRemovable u.id ≠ true := by
        intro hr
        have hidle := isIdle_iff.2 ⟨by omega, u, hu, hs, hr⟩
        rw [h p] at hidle
        cases hidle
      rw [Ne, Body.isRemovable_iff hn (Body.id_of_unit hu), not_or, Bool.not_eq_false] at hkept
      exact .inr ⟨by omega, hkept.2⟩

theorem last_of_hollow (hn : b.ids.Nodup) (hdone : ∀ p, isIdle b p = false) (h : b.Hollow p) :
    p + 1 = b.size ∧ b.stmtAt? p = some .nop := by
  have hstop {p : Nat} {s : Stmt} (hs : b.stmtAt? p = some s) (hlt : p + 1 < b.size)
      (hidle : s = .nop ∨ b.isGotoNext p = true) : False := by
    obtain ⟨u, hu, rfl⟩ := Body.unit_of_stmtAt? hs
    have htrue := isIdle_iff.2 ⟨by omega, u, hu, hidle, Body.isRemovable_of_lt hn hu hlt⟩
    rw [hdone p] at htrue
    cases htrue
  have hle := h.lt
  induction h with
  | nop hs =>
    refine ⟨?_, hs⟩
    by_contra hne
    exact hstop hs (by omega) (.inl rfl)
  | @goto p q z hs hq hlt _ ih =>
    exfalso
    have hq' := Body.lt_size_of_getElem? hq
    by_cases hnext : q = p + 1
    · obtain ⟨v, hv, hvs⟩ := Body.unit_of_stmtAt? hs
      obtain ⟨next, hnext', rfl⟩ := Body.unit_of_id (hnext ▸ hq)
      exact hstop hs (by omega) (.inr (Body.isGotoNext_iff.2 ⟨v, next, hv, hnext', hvs⟩))
    · have := (ih (p + 1) (Nat.lt_succ_self p) (by omega) (by omega)).1
      omega

section Done

variable (hb : b.Coherent) (hdone : ∀ p, isIdle b p = false)

include hb hdone

/-- Where nothing is idle, nothing is done from a unit on only if it is the last one. -/
theorem subsides_iff_of_done {z : UnitId} : b.Subsides z ↔
    ∃ p, p + 1 = b.size ∧ b.ids[p]? = some z ∧ b.stmtAt? p = some .nop := by
  constructor
  · intro h
    obtain ⟨q, hq, h⟩ := h
    obtain ⟨hlast, hnop⟩ :=
      last_of_hollow hb.nodup hdone (h q (Nat.le_refl q) (Body.lt_size_of_getElem? hq))
    exact ⟨q, hlast, hq, hnop⟩
  · intro h
    obtain ⟨p, hlast, hp, hnop⟩ := h
    refine ⟨p, hp, fun r hpr hr ↦ ?_⟩
    obtain rfl : r = p := by omega
    exact .nop hnop

/-- Where nothing is idle, a trap over any unit protects one that does something. -/
theorem shields_of_lt {t : Trap} {i j : Nat} (hi : b.ids[i]? = some t.first)
    (hj : b.ids[j]? = some t.last) (hij : i < j) : b.Shields t := by
  refine ⟨i, (Body.covers_iff_of_ends hb.nodup hi hj).2 ⟨Nat.le_refl i, hij⟩, fun hhollow ↦ ?_⟩
  have hlast := (last_of_hollow hb.nodup hdone hhollow).1
  have hlt := Body.lt_size_of_getElem? hj
  omega

/-- Nothing but traps over no unit holds the last unit of a moored body where nothing is idle. -/
theorem not_purged_of_moored (hne : b.units ≠ []) (h : b.Moored) : ¬ b.dropEmptyTraps.Purged := by
  intro hpurged
  obtain ⟨t, ht, z, hz, hsub⟩ := h.held
  obtain ⟨p, hlast, hp, hnop⟩ := (subsides_iff_of_done hb hdone).1 hsub
  obtain ⟨u, hu, rfl⟩ := Body.unit_of_id hp
  have hus : u.stmt = .nop := Option.some.inj ((Body.stmtAt?_of_unit hu).symm.trans hnop)
  have htwo : b.size ≠ 1 := by
    obtain ⟨r, hr, hsolid⟩ := h.solid
    have hrp : r ≠ p := fun he ↦ hsolid (he ▸ .nop hnop)
    omega
  obtain ⟨-, href⟩ := (hpurged p u hu (.inl hus)).resolve_left htwo
  have hvalid := hb.valid_dropEmptyTraps hne
  have hnone : b.dropEmptyTraps.isReferenced u.id = false := by
    refine Body.isReferenced_eq_false.2 ⟨fun v hv hm ↦ ?_, fun t' ht' hm ↦ ?_⟩
    · obtain ⟨r, hr⟩ := List.getElem?_of_mem (l := b.units) hv
      refine h.jumps r v hr (fun hhollow ↦ ?_) u.id hm hsub
      have hempty := (last_of_hollow hb.nodup hdone hhollow).2
      rw [Option.some.inj ((Body.stmtAt?_of_unit hr).symm.trans hempty)] at hm
      cases hm
    · obtain ⟨i, j, hi, hj, hij⟩ := hvalid.spans ht'
      exact h.shields t' (List.mem_filter.1 ht').1 (shields_of_lt hb hdone hi hj hij) u.id hm hsub
  rw [hnone] at href
  cases href

/-- An idle unit is left only where traps over no unit have held it, and nothing else. -/
theorem moored_of_isIdle (h : isIdle b.dropEmptyTraps p = true) : b.Moored := by
  obtain ⟨hlast, hnop⟩ :=
    last_of_hollow hb.nodup hdone (Body.hollow_dropEmptyTraps.1 (hollow_of_isIdle h))
  obtain ⟨htwo, u, hu, hs, hr⟩ := isIdle_iff.1 h
  have hn : b.dropEmptyTraps.ids.Nodup := hb.nodup
  have htwo : 2 ≤ b.size := htwo
  have hu : b.units[p]? = some u := hu
  have hp : b.ids[p]? = some u.id := Body.id_of_unit hu
  have hnone : b.dropEmptyTraps.isReferenced u.id = false := by
    obtain hlt | hnone := (Body.isRemovable_iff hn (Body.id_of_unit hu)).1 hr
    · have hlt : p + 1 < b.size := hlt
      omega
    · exact hnone
  -- the unit was not idle, so something referred to it, and this was a trap
  have hpurged : b.Purged := (purged_iff hb.nodup).2 hdone
  obtain ⟨-, href⟩ := (hpurged p u hu hs).resolve_left (by omega)
  obtain ⟨hnojump, hnotrap⟩ := Body.isReferenced_eq_false.1 hnone
  have honly {z : UnitId} (hz : b.Subsides z) : z = u.id := by
    obtain ⟨q, hq, hqz, -⟩ := (subsides_iff_of_done hb hdone).1 hz
    obtain rfl : q = p := by omega
    exact Option.some.inj (hqz.symm.trans hp)
  refine ⟨⟨0, by omega, fun hhollow ↦ ?_⟩, ?_, fun r v hv _ z hz hsub ↦ ?_,
    fun t ht hshields z hz hsub ↦ ?_⟩
  · have := (last_of_hollow hb.nodup hdone hhollow).1
    omega
  · by_contra hno
    push Not at hno
    have hfalse : b.isReferenced u.id = false := by
      refine Body.isReferenced_eq_false.2 ⟨hnojump, fun t ht hm ↦ hno t ht u.id hm ?_⟩
      exact (subsides_iff_of_done hb hdone).2 ⟨p, hlast, hp, hnop⟩
    rw [hfalse] at href
    cases href
  · exact hnojump v (List.mem_of_getElem? hv) (honly hsub ▸ hz)
  · obtain ⟨r, hcovers, -⟩ := hshields
    have hkept : t ∈ b.dropEmptyTraps.traps :=
      List.mem_filter.2 ⟨ht, by rw [Body.isEmptyTrap_of_covers hcovers]; rfl⟩
    exact hnotrap t hkept (honly hsub ▸ hz)

theorem purged_dropEmptyTraps_iff (hne : b.units ≠ []) :
    b.dropEmptyTraps.Purged ↔ ¬ b.Moored := by
  refine ⟨fun hpurged h ↦ not_purged_of_moored hb hdone hne h hpurged, fun h ↦ ?_⟩
  have hn : b.dropEmptyTraps.ids.Nodup := hb.nodup
  refine (purged_iff hn).2 fun p ↦ ?_
  rw [Bool.eq_false_iff]
  exact fun hidle ↦ h (moored_of_isIdle hb hdone hidle)

end Done

theorem isIdle_swept (b : Body) (p : Nat) : isIdle (swept b).body p = false := by
  by_cases hp : p < (swept b).body.size
  · exact Revision.removeFirst_done _ hp
  · rw [Bool.eq_false_iff]
    intro h
    obtain ⟨-, u, hu, -⟩ := isIdle_iff.1 h
    exact hp (Body.lt_size_of_getElem? (Body.id_of_unit hu))

theorem swept_moored (hb : b.Coherent) (hne : b.units ≠ []) : (swept b).body.Coherent ∧
    (swept b).body.units ≠ [] ∧ ((swept b).body.Moored ↔ b.Moored) := by
  refine Revision.removeFirst_keeps (P := fun c ↦ c.Coherent ∧ c.units ≠ [] ∧
    (c.Moored ↔ b.Moored)) ?_ _ ⟨hb, hne, Iff.rfl⟩
  intro c p hc hidle hp
  obtain ⟨htwo, u, hu, -, hr⟩ := isIdle_iff.1 hidle
  have hid := Body.id_of_unit hu
  refine ⟨hc.1.removeAt hid hr, ?_, ?_⟩
  · apply List.ne_nil_of_length_pos
    have hsize := Body.size_removeAt hp
    change 0 < (c.removeAt p).size
    omega
  · exact (Body.moored_removeAt_iff hc.1 hid hr (hollow_of_isIdle hidle)).trans hc.2.2

theorem purged_revise_iff (hb : b.Valid) : (revise b).body.Purged ↔ ¬ b.Moored := by
  obtain ⟨hc, hne, hmoored⟩ := swept_moored hb.coherent hb.nonempty
  rw [← hmoored]
  exact purged_dropEmptyTraps_iff hc (isIdle_swept b) hne

/-- What the pass leaves is not moored: every trap there protects a unit that does something. -/
theorem not_moored_revise (hb : b.Valid) : ¬ (revise b).body.Moored := by
  obtain ⟨hc, hne, -⟩ := swept_moored hb.coherent hb.nonempty
  intro h
  obtain ⟨t, ht, z, hz, hsub⟩ := h.held
  obtain ⟨i, j, hi, hj, hij⟩ := (hc.valid_dropEmptyTraps hne).spans ht
  obtain ⟨r, hcovers, hsolid⟩ := shields_of_lt hc (isIdle_swept b) hi hj hij
  exact h.shields t ht ⟨r, hcovers, mt Body.hollow_dropEmptyTraps.1 hsolid⟩ z hz hsub

theorem revise_eq_self (hb : b.Valid) (h : b.Purged) : revise b = ⟨b, [], false⟩ := by
  have hswept : swept b = ⟨b, [], false⟩ :=
    Revision.removeFirst_eq_self _ ((purged_iff hb.nodup).1 h)
  rw [revise_eq, hswept]
  exact Revision.dropEmptyTraps_eq_self hb

/-- Another run completes what the pass leaves, and has nothing to do exactly if this is
complete. -/
theorem revise_again (hb : b.Valid) : (revise (revise b).body).body.Purged ∧
    ((revise (revise b).body).body = (revise b).body ↔ (revise b).body.Purged) := by
  have hc := valid_revise hb
  have hagain : (revise (revise b).body).body.Purged :=
    (purged_revise_iff hc).2 (not_moored_revise hb)
  refine ⟨hagain, fun he ↦ he ▸ hagain, fun hpurged ↦ ?_⟩
  rw [revise_eq_self hc hpurged]

end Nops

namespace Pass

/-- The removal of units without effect leaves a valid body with no goto to the next unit and no
empty unit but in last place. An empty last unit is referred to or the only one, and another run
changes nothing and says so, exactly if the end was not moored. In any case that run leaves nothing
to do for a third one. -/
theorem idle_units_gone_iff (m : Signature) {b : Body} (hb : b.validate = .ok ()) :
    ∃ c notes changed, nops.run m b = ⟨c, notes, .ok changed⟩ ∧ c.validate = .ok () ∧
      (c.OnlyLast (· = .nop) ∧ ∀ p, c.isGotoNext p = false) ∧
      (c.Purged ↔ ¬ b.Moored) ∧
      ((nops.run m c).result = .ok false ↔ ¬ b.Moored) ∧
      ((nops.run m c).body = c ↔ ¬ b.Moored) ∧
      ∃ d notes' changed', nops.run m c = ⟨d, notes', .ok changed'⟩ ∧ d.Purged ∧
        nops.run m d = ⟨d, [], .ok false⟩ := by
  have hv := Body.validate_eq_ok.1 hb
  have hc := Nops.valid_revise hv
  have hpurged := Nops.purged_revise_iff hv
  obtain ⟨hagain, hsame⟩ := Nops.revise_again hv
  have hmoved := (Revision.Steps.candid stable_isInert hc.nodup (Nops.revise_steps hc.nodup)).moved
  refine ⟨_, _, _, rfl, Body.validate_eq_ok.2 hc, Nops.idle_revise hv.nodup, hpurged, ?_,
    hsame.trans hpurged, _, _, _, rfl, hagain, ?_⟩
  · rw [← hpurged, ← hsame]
    simpa [nops, Revision.finish] using not_congr hmoved
  · exact congrArg Revision.finish (Nops.revise_eq_self (Nops.valid_revise hc) hagain)

def hopping : Body where
  units := [⟨⟨0⟩, .goto ⟨2⟩⟩, ⟨⟨1⟩, .nop⟩, ⟨⟨2⟩, .ret none⟩, ⟨⟨3⟩, .nop⟩]
  traps := [⟨⟨2⟩, ⟨3⟩, ⟨2⟩, .object "E"⟩]
  nextUnit := 4

theorem idle_units_gone_hopping : hopping.validate = .ok () ∧
    (nops.run countdown hopping).body.ids = [⟨2⟩, ⟨3⟩] ∧
    (nops.run countdown hopping).body.Purged ∧
    (nops.run countdown (nops.run countdown hopping).body).result = .ok false ∧
    (nops.run countdown (nops.run countdown hopping).body).body =
      (nops.run countdown hopping).body := by
  have hb : hopping.validate = .ok () := by decide +kernel
  have hids : (nops.run countdown hopping).body.ids = [⟨2⟩, ⟨3⟩] := by cbv
  have hreturn : ¬ hopping.Hollow 2 := by
    intro h
    cases h with
    | nop hs => exact absurd hs (by decide)
    | goto hs => exact absurd (Option.some.inj hs) (by simp)
  have hend : hopping.Subsides ⟨3⟩ := by
    refine ⟨3, rfl, fun r hr hlt ↦ ?_⟩
    have hlt : r < 4 := hlt
    obtain rfl : r = 3 := by omega
    exact .nop rfl
  have hmoored : ¬ hopping.Moored := fun h ↦
    h.shields ⟨⟨2⟩, ⟨3⟩, ⟨2⟩, .object "E"⟩ (by decide) ⟨2, by decide, hreturn⟩ ⟨3⟩ (by decide) hend
  obtain ⟨c, notes, changed, hrun, -, -, hpurged, hresult, hbody, -⟩ :=
    idle_units_gone_iff countdown hb
  rw [hrun] at hids ⊢
  exact ⟨hb, hids, hpurged.2 hmoored, hresult.2 hmoored, hbody.2 hmoored⟩

def overEmpty : Body where
  units := [⟨⟨0⟩, .ret none⟩, ⟨⟨1⟩, .nop⟩, ⟨⟨2⟩, .nop⟩]
  traps := [⟨⟨1⟩, ⟨2⟩, ⟨0⟩, .object "E"⟩]
  nextUnit := 3

def overEmptyLeft : Body where
  units := [⟨⟨0⟩, .ret none⟩, ⟨⟨2⟩, .nop⟩]
  nextUnit := 3

/-- The last unit stays for the trap, which is dropped after that. Another run removes the unit. -/
theorem idle_unit_left_overEmpty : overEmpty.validate = .ok () ∧
    (nops.run countdown overEmpty).body = overEmptyLeft ∧
    overEmptyLeft.stmt? ⟨2⟩ = some .nop ∧ overEmptyLeft.isReferenced ⟨2⟩ = false ∧
    (nops.run countdown overEmptyLeft).result = .ok true ∧
    (nops.run countdown overEmptyLeft).body.ids = [⟨0⟩] := by
  refine ⟨by decide +kernel, by cbv, rfl, by decide, by cbv, by cbv⟩

end Pass

end ThreeAddress
