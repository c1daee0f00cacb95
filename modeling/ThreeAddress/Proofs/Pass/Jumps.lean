import ThreeAddress.Pass.Nops
import ThreeAddress.Proofs.Candor
import ThreeAddress.Proofs.Readiness

namespace ThreeAddress

theorem stable_isInert : Stable fun v ↦ v.stmt.isInert = true := by
  intro u f
  simp

namespace Body

variable {b : Body} {p : Nat} {u : UnitId}

theorem followGotos_mem (h : ∀ v ∈ b.units, ∀ t ∈ v.stmt.targets, t ∈ b.ids)
    (fresh : List UnitId) (hu : u ∈ b.ids) : b.followGotos fresh u ∈ b.ids := by
  fun_induction followGotos b fresh u with
  | case1 fresh u target hs hf ih =>
    obtain ⟨v, hv, hst⟩ := Option.map_eq_some_iff.1 hs
    exact ih (h v (List.mem_of_find?_eq_some hv) target (by simp [hst, Stmt.targets]))
  | case2 => exact hu
  | case3 => exact hu

theorem isGotoNext_iff : b.isGotoNext p = true ↔
    ∃ v next : CodeUnit, b.units[p]? = some v ∧ b.units[p + 1]? = some next ∧
      v.stmt = .goto next.id := by
  unfold isGotoNext
  split
  · next u target next hu hn => simp [hu, hn]
  · next hne =>
    simp only [Bool.false_eq_true, false_iff]
    intro h
    obtain ⟨⟨u, s⟩, next, hu, hn, rfl⟩ := h
    exact hne u next.id next hu hn

theorem lt_size_of_isGotoNext (h : b.isGotoNext p = true) : p + 1 < b.size := by
  obtain ⟨v, next, -, hn, -⟩ := isGotoNext_iff.1 h
  exact (List.getElem?_eq_some_iff.1 hn).1

end Body

namespace JumpThreading

variable {b : Body}

theorem coherent_thread (hb : b.Valid) : (thread b).body.Coherent := by
  refine hb.coherent.restate (Body.ids_mapStmts _ _) rfl ?_ ?_
  · intro w hw t ht
    obtain ⟨u, hu, rfl⟩ := List.mem_map.1 hw
    obtain ⟨z, hz, rfl⟩ : ∃ z ∈ u.stmt.targets, b.destination z = t := by simpa using ht
    exact Body.followGotos_mem hb.targets _ (hb.targets u hu z hz)
  · intro w hw x hx
    obtain ⟨u, hu, rfl⟩ := List.mem_map.1 hw
    exact hb.declared u hu x (by simpa using hx)

theorem nonempty_thread (hb : b.Valid) : (thread b).body.units ≠ [] := by
  simpa [thread, Revision.withNotes, Body.mapStmts] using hb.nonempty

theorem steady_thread (hb : b.Ready) : (thread b).body.Steady where
  coherent := coherent_thread hb.valid
  bounded := (b.noFresh_mapStmts _).bounded hb.bounded
  end_sealed := by
    intro w hw
    rw [thread, Revision.withNotes, Body.mapStmts, List.getLast?_map] at hw
    obtain ⟨u, hu, rfl⟩ := Option.map_eq_some_iff.1 hw
    simpa using hb.end_sealed u hu
  nonempty := nonempty_thread hb.valid

def swept (b : Body) : Revision :=
  (thread b).removeFirst Body.isGotoNext fun p _ ↦
    ⟨.branchFolded, some p, "goto to next unit removed"⟩

theorem revise_eq (b : Body) : revise b = (swept b).dropEmptyTraps := rfl

/-- What holds of the body with its jumps threaded, and stays when a unit other than the last one is
removed, holds behind the loop. -/
theorem swept_keeps {P : Body → Prop} (ht : P (thread b).body)
    (hr : ∀ (c : Body) p, P c → c.isGotoNext p = true → P (c.removeAt p)) :
    P (swept b).body :=
  Revision.removeFirst_keeps (fun c p hc hg _ ↦ hr c p hc hg) _ ht

theorem ready_revise (hb : b.Ready) : (revise b).body.Ready := by
  have hswept : (swept b).body.Steady :=
    swept_keeps (steady_thread hb) fun _ _ hc hg ↦ hc.removeAt (Body.lt_size_of_isGotoNext hg)
  exact hswept.ready_dropEmptyTraps

theorem valid_revise (hb : b.Valid) : (revise b).body.Valid := by
  have hswept : (swept b).body.Coherent ∧ (swept b).body.units ≠ [] := by
    apply swept_keeps (P := fun c ↦ c.Coherent ∧ c.units ≠ [])
    · exact ⟨coherent_thread hb, nonempty_thread hb⟩
    · intro c p hc hg
      have hlt := Body.lt_size_of_isGotoNext hg
      obtain ⟨u, hu⟩ := Body.exists_unit_of_lt (Nat.lt_of_succ_lt hlt)
      constructor
      · exact hc.1.removeAt (Body.id_of_unit hu) (Body.isRemovable_of_lt hc.1.nodup hu hlt)
      · apply List.ne_nil_of_length_pos
        have hsize := Body.size_removeAt (Nat.lt_of_succ_lt hlt)
        change 0 < (c.removeAt p).size
        omega
  exact hswept.1.valid_dropEmptyTraps hswept.2

theorem threadNotes_eq_nil_iff : threadNotes b = [] ↔
    ∀ u ∈ b.units, ∀ t ∈ u.stmt.targets, b.destination t = t := by
  simp only [threadNotes, List.flatMap_eq_nil_iff, List.map_eq_nil_iff, List.filter_eq_nil_iff]
  constructor
  · intro h u hu t ht
    obtain ⟨p, hp⟩ := List.getElem?_of_mem hu
    simpa using h (u, p) (List.mem_zipIdx_iff_getElem?.2 hp) t ht
  · intro h q hq t ht
    simpa using h q.1 (List.fst_mem_of_mem_zipIdx hq) t ht

theorem body_thread_eq_self_iff : (thread b).body = b ↔
    ∀ u ∈ b.units, ∀ t ∈ u.stmt.targets, b.destination t = t := by
  have hunits : (thread b).body = b ↔
      b.units.map (·.mapStmt (·.mapTargets b.destination)) = b.units := by
    refine ⟨congrArg Body.units, fun hu ↦ ?_⟩
    simp only [thread, Revision.withNotes, Body.mapStmts, hu]
  rw [hunits, map_eq_self_iff]
  refine forall₂_congr fun u hu ↦ ?_
  rw [← Stmt.mapTargets_eq_self_iff]
  exact ⟨congrArg CodeUnit.stmt, fun h ↦ by rw [CodeUnit.mapStmt, h]⟩

theorem candid_thread (b : Body) : (thread b).Candid b := by
  refine ⟨?_, ?_, ?_⟩
  · intro n hn
    have hn : n ∈ threadNotes b := by simpa [thread, Revision.withNotes] using hn
    obtain ⟨q, -, hn⟩ := List.mem_flatMap.1 hn
    obtain ⟨t, -, rfl⟩ := List.mem_map.1 hn
    rfl
  · simp [thread, Revision.withNotes]
  · rw [Ne, body_thread_eq_self_iff, ← threadNotes_eq_nil_iff]
    simp [thread, Revision.withNotes]

/-- Where no jump goes to the beginning of a chain there is nothing to thread. -/
theorem thread_eq_self (h : ∀ u ∈ b.units, ∀ t ∈ u.stmt.targets, b.destination t = t) :
    thread b = ⟨b, [], false⟩ := by
  have hbody : b.mapStmts (·.mapTargets b.destination) = b := body_thread_eq_self_iff.2 h
  rw [thread, hbody, threadNotes_eq_nil_iff.2 h]
  rfl

theorem revise_steps (hn : b.ids.Nodup) : Revision.Steps (fun v ↦ v.stmt.isInert = true)
    (fun _ ↦ False) (thread b) (revise b) := by
  refine .tail (Revision.removeFirst_steps (fun _ _ ↦ rfl) ?_ _ ?_) (Revision.dropEmptyTraps_step _)
  · intro c p hc hg hp
    obtain ⟨v, next, hv, -, hs⟩ := Body.isGotoNext_iff.1 hg
    refine ⟨v, hv, by simp [hs, Stmt.isInert], ?_⟩
    exact Body.isRemovable_of_lt hc hv (Body.lt_size_of_isGotoNext hg)
  · simpa [thread, Revision.withNotes] using hn

theorem noFresh_revise (b : Body) : b.NoFresh (revise b).body := by
  have hswept : b.NoFresh (swept b).body :=
    swept_keeps (b.noFresh_mapStmts _) fun c p hc _ ↦ hc.trans (c.noFresh_removeAt p)
  exact ⟨hswept.ids, hswept.nextUnit⟩

theorem thinned_revise (hn : b.ids.Nodup) :
    Body.Thinned (fun v ↦ v.stmt.isInert = true) b (revise b).body := by
  have hthread : (thread b).body.ids.Nodup := by simpa [thread, Revision.withNotes] using hn
  exact (Body.thinned_retarget b b.destination).trans stable_isInert
    ((revise_steps hn).thinned stable_isInert hthread)

theorem candid_revise (hn : b.ids.Nodup) : (revise b).Candid b := by
  have hthread : (thread b).body.ids.Nodup := by simpa [thread, Revision.withNotes] using hn
  obtain ⟨new, hp⟩ := Revision.Steps.pays stable_isInert (revise_steps hn) hthread
  exact (candid_thread b).pays (Nat.le_of_eq (Body.weight_retarget b b.destination)) hp

end JumpThreading

namespace Nops

variable {b : Body} {p : Nat}

theorem isIdle_iff : isIdle b p = true ↔ 2 ≤ b.size ∧ ∃ u, b.units[p]? = some u ∧
    (u.stmt = .nop ∨ b.isGotoNext p = true) ∧ b.isRemovable u.id = true := by
  cases h : b.units[p]? with
  | none => simp [isIdle, h]
  | some u => simp [isIdle, Body.stmtAt?, h, and_assoc]

theorem isInert_of_isIdle (h : isIdle b p = true) : ∃ u, b.units[p]? = some u ∧
    u.stmt.isInert = true ∧ b.isRemovable u.id = true := by
  obtain ⟨-, u, hu, hs, hr⟩ := isIdle_iff.1 h
  refine ⟨u, hu, ?_, hr⟩
  rcases hs with hs | hs
  · rw [hs]
    rfl
  · obtain ⟨v, next, hv, -, hs⟩ := Body.isGotoNext_iff.1 hs
    obtain rfl : u = v := Option.some.inj (hu.symm.trans hv)
    rw [hs]
    rfl

def swept (b : Body) : Revision :=
  (⟨b, [], false⟩ : Revision).removeFirst isIdle fun p u ↦
    ⟨.unitRemoved, some p, "no-op " ++ u.text ++ " removed"⟩

theorem revise_eq (b : Body) : revise b = (swept b).dropEmptyTraps := rfl

theorem swept_steps (hn : b.ids.Nodup) : Revision.Steps (fun v ↦ v.stmt.isInert = true)
    (fun _ ↦ False) ⟨b, [], false⟩ (swept b) := by
  refine Revision.removeFirst_steps (fun _ _ ↦ rfl) ?_ _ hn
  intro c p _ hg _
  exact isInert_of_isIdle hg

theorem revise_steps (hn : b.ids.Nodup) : Revision.Steps (fun v ↦ v.stmt.isInert = true)
    (fun _ ↦ False) ⟨b, [], false⟩ (revise b) :=
  .tail (swept_steps hn) (Revision.dropEmptyTraps_step _)

theorem valid_revise (hb : b.Valid) : (revise b).body.Valid := by
  have hc : (swept b).body.Coherent :=
    (swept_steps hb.nodup).coherent (fun _ hs ↦ hs.elim) hb.coherent
  have hpos : 0 < (swept b).body.size := by
    refine Revision.removeFirst_keeps (P := fun c ↦ 0 < c.size) ?_ _ ?_
    · intro c p _ hg hp
      have h2 := (isIdle_iff.1 hg).1
      have hs := Body.size_removeAt hp
      omega
    · exact List.length_pos_iff.2 hb.nonempty
  rw [revise_eq]
  exact hc.valid_dropEmptyTraps (List.length_pos_iff.1 hpos)

theorem idle_revise (hn : b.ids.Nodup) : (revise b).body.OnlyLast (· = .nop) ∧
    ∀ p, (revise b).body.isGotoNext p = false := by
  have hids : (swept b).body.ids.Nodup :=
    ((swept_steps hn).thinned stable_isInert hn).nodup hn
  have hidle : ∀ p u, (swept b).body.units[p]? = some u → p + 1 < (swept b).body.size →
      ¬ (u.stmt = .nop ∨ (swept b).body.isGotoNext p = true) := by
    intro p u hu hp hs
    have hfalse : isIdle (swept b).body p = false :=
      Revision.removeFirst_done _ (Nat.lt_of_succ_lt hp)
    have htrue := isIdle_iff.2 ⟨by omega, u, hu, hs, Body.isRemovable_of_lt hids hu hp⟩
    simp [hfalse] at htrue
  constructor
  · exact .of_lt fun p u hu hp hs ↦ hidle p u hu hp (.inl hs)
  · intro p
    rw [Bool.eq_false_iff]
    intro hg
    obtain ⟨u, -, hu, -, -⟩ := Body.isGotoNext_iff.1 hg
    exact hidle p u hu (Body.lt_size_of_isGotoNext hg) (.inr hg)

end Nops

namespace Pass

theorem jumpThreading_carries : jumpThreading.Carries Body.Ready Body.Ready :=
  fun _ _ hb ↦ ⟨⟨_, rfl⟩, JumpThreading.ready_revise hb⟩

theorem jumpThreading_candid : jumpThreading.Candid :=
  fun _ _ hn _ ↦ (JumpThreading.candid_revise hn).finish

theorem jumpThreading_addsNoUnits : jumpThreading.AddsNoUnits :=
  fun _ b _ ↦ JumpThreading.noFresh_revise b

theorem nops_carries : nops.Carries Body.Valid Body.Valid :=
  fun _ _ hb ↦ ⟨⟨_, rfl⟩, Nops.valid_revise hb⟩

theorem nops_cleans : nops.Cleans fun _ v ↦ v.stmt.isInert = true where
  stable _ := stable_isInert
  steps _ _ hn := ⟨_, _, Nops.revise_steps hn, rfl⟩

end Pass

end ThreeAddress
