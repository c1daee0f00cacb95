import ThreeAddress.Pass.UnreachableUnits
import ThreeAddress.Proofs.Candor
import ThreeAddress.Proofs.Flow.Search
import ThreeAddress.Proofs.Readiness

namespace ThreeAddress

namespace UnreachableUnits

variable {b : Body} {r : Revision} {u : UnitId} {p : Nat}

def IsDead (b : Body) (v : CodeUnit) : Prop := v.id ∈ (dead b).map (·.1)

theorem stable_isDead (b : Body) : Stable (IsDead b) := fun _ _ ↦ Iff.rfl

theorem mem_dead : u ∈ (dead b).map (·.1) ↔
    ∃ p : Nat, b.ids[p]? = some u ∧ p ∉ b.flowGraph.reachable := by
  constructor
  · intro h
    obtain ⟨⟨u, p⟩, hm, rfl⟩ := List.mem_map.1 h
    obtain ⟨hu, hp⟩ := List.mem_filter.1 hm
    exact ⟨p, List.mem_zipIdx_iff_getElem?.1 hu, by simpa using hp⟩
  · intro h
    obtain ⟨p, hu, hp⟩ := h
    have hm : (u, p) ∈ dead b :=
      List.mem_filter.2 ⟨List.mem_zipIdx_iff_getElem?.2 hu, by simpa using hp⟩
    exact List.mem_map_of_mem hm

theorem not_isDead (hn : b.ids.Nodup) {v : CodeUnit} (hv : b.units[p]? = some v)
    (hp : p ∈ b.flowGraph.reachable) : ¬ IsDead b v := by
  intro hd
  obtain ⟨q, hq, hnot⟩ := mem_dead.1 hd
  have hvp : b.ids[p]? = some v.id := Body.id_of_unit hv
  rw [Body.index_unique hn hq hvp] at hnot
  exact hnot hp

theorem dropHandlers_step (gone : CodeUnit → Prop) (put : Stmt → Prop) (us : List UnitId)
    (r : Revision) : Revision.Step gone put r (dropHandlers us r) := by
  refine .dropTraps r _ _ List.filter_sublist ?_ ?_
  · have hl := List.length_eq_length_filter_add (l := r.body.traps) fun t ↦ us.contains t.handler
    rw [List.length_map]
    omega
  · intro n hn
    obtain ⟨t, -, rfl⟩ := List.mem_map.1 hn
    rfl

theorem drop_steps (hn : r.body.ids.Nodup) (hu : u ∈ (dead b).map (·.1)) :
    Revision.Steps (IsDead b) (fun s ↦ s = .nop) r (drop r u p) := by
  unfold drop
  split
  · exact Revision.removeUnit_steps (fun v _ he ↦ show v.id ∈ _ from he ▸ hu) fun _ ↦ rfl
  · split
    · exact .refl
    · exact .refl
    · next s hne hs =>
      have hmem := (Body.stmt?_eq_some hn).1 hs
      refine .single (.overwrite r ⟨u, s⟩ .nop _ hmem hu rfl rfl ?_ rfl)
      cases s <;> simp_all [Stmt.weight]

theorem foldl_drop_steps (l : List (UnitId × Nat)) (hl : ∀ a ∈ l, a ∈ dead b) (r : Revision)
    (hn : r.body.ids.Nodup) : Revision.Steps (IsDead b) (fun s ↦ s = .nop) r
      (l.foldl (fun r (u, p) ↦ drop r u p) r) := by
  induction l generalizing r with
  | nil => exact .refl
  | cons a l ih =>
    have hfirst : Revision.Steps (IsDead b) (fun s ↦ s = .nop) r (drop r a.1 a.2) :=
      drop_steps hn (List.mem_map_of_mem (hl a List.mem_cons_self))
    exact hfirst.trans (ih (fun a' ha' ↦ hl a' (List.mem_cons_of_mem a ha')) _
      ((hfirst.thinned (stable_isDead b) hn).nodup hn))

def swept (b : Body) : Revision :=
  (dead b).foldl (fun r (u, p) ↦ drop r u p) (dropHandlers ((dead b).map (·.1)) ⟨b, [], false⟩)

theorem swept_steps (hn : b.ids.Nodup) :
    Revision.Steps (IsDead b) (fun s ↦ s = .nop) ⟨b, [], false⟩ (swept b) :=
  .head (dropHandlers_step _ _ _ _) (foldl_drop_steps _ (fun _ ha ↦ ha) _ hn)

theorem revise_eq (h : dead b ≠ []) : revise b = (swept b).dropEmptyTraps := by
  rw [revise]
  split
  · next hd => exact absurd hd h
  · rfl

theorem revise_of_no_dead (h : dead b = []) : revise b = ⟨b, [], false⟩ := by
  rw [revise, h]

theorem revise_steps (hn : b.ids.Nodup) :
    Revision.Steps (IsDead b) (fun s ↦ s = .nop) ⟨b, [], false⟩ (revise b) := by
  by_cases h : dead b = []
  · rw [revise_of_no_dead h]
  · rw [revise_eq h]
    exact .tail (swept_steps hn) (Revision.dropEmptyTraps_step _)

/-- If the unit is there, it is empty. -/
def Blank (r : Revision) (u : UnitId) : Prop := ∀ w ∈ r.body.units, w.id = u → w.stmt = .nop

theorem Blank.drop {v : UnitId} (h : Blank r v) : Blank (drop r u p) v := by
  intro w hw he
  unfold UnreachableUnits.drop at hw
  split at hw
  · obtain ⟨z, hz, f, rfl⟩ := Revision.origin_removeUnit hw
    simpa using h z hz he
  · split at hw
    · exact h w hw he
    · exact h w hw he
    · obtain ⟨hw, -⟩ | ⟨-, hs, -⟩ := Body.mem_setStmt hw
      · exact h w hw he
      · exact hs

theorem blank_drop (hn : r.body.ids.Nodup) (u : UnitId) (p : Nat) : Blank (drop r u p) u := by
  intro w hw he
  unfold drop at hw
  split at hw
  · next hr =>
    exact absurd (he ▸ Body.id_mem_ids hw) (Revision.not_mem_removeUnit hn hr)
  · split at hw
    · next hs =>
      have hsome := (Body.stmt?_eq_some hn).2 (show ⟨u, w.stmt⟩ ∈ r.body.units from he ▸ hw)
      simp [hs] at hsome
    · next hs =>
      have hsome := (Body.stmt?_eq_some hn).2 (show ⟨u, w.stmt⟩ ∈ r.body.units from he ▸ hw)
      exact Option.some.inj (hsome.symm.trans hs)
    · obtain ⟨hw, hne⟩ | ⟨-, hs, -⟩ := Body.mem_setStmt hw
      · exact absurd he hne
      · exact hs

theorem Blank.foldl {v : UnitId} (l : List (UnitId × Nat)) (r : Revision) (h : Blank r v) :
    Blank (l.foldl (fun r (u, p) ↦ UnreachableUnits.drop r u p) r) v := by
  induction l generalizing r with
  | nil => exact h
  | cons a l ih => exact ih _ h.drop

theorem blank_foldl (l : List (UnitId × Nat)) (hl : ∀ a ∈ l, a ∈ dead b) (r : Revision)
    (hn : r.body.ids.Nodup) :
    ∀ a ∈ l, Blank (l.foldl (fun r (u, p) ↦ drop r u p) r) a.1 := by
  induction l generalizing r with
  | nil => simp
  | cons a l ih =>
    have hfirst : Revision.Steps (IsDead b) (fun s ↦ s = .nop) r (drop r a.1 a.2) :=
      drop_steps hn (List.mem_map_of_mem (hl a List.mem_cons_self))
    intro a' ha'
    rcases List.mem_cons.1 ha' with rfl | ha'
    · exact (blank_drop hn a'.1 a'.2).foldl l
    · exact ih (fun z hz ↦ hl z (List.mem_cons_of_mem a hz)) _
        ((hfirst.thinned (stable_isDead b) hn).nodup hn) a' ha'

theorem blank_swept (hn : b.ids.Nodup) {w : CodeUnit} (hw : w ∈ (swept b).body.units)
    (hd : IsDead b w) : w.stmt = .nop := by
  obtain ⟨a, ha, he⟩ := List.mem_map.1 hd
  exact blank_foldl (dead b) (fun _ h ↦ h) _ hn a ha w hw he.symm

theorem coherent_swept (hb : b.Valid) : (swept b).body.Coherent :=
  (swept_steps hb.nodup).coherent (by rintro s rfl; rfl) hb.coherent

theorem nonempty_swept (hb : b.Valid) : (swept b).body.units ≠ [] := by
  have hthin := (swept_steps hb.nodup).thinned (stable_isDead b) hb.nodup
  have hpos : 0 < b.size := List.length_pos_iff.2 hb.nonempty
  obtain ⟨entry, hentry⟩ := Body.exists_unit_of_lt hpos
  obtain ⟨f, hf⟩ := hthin.kept _ (List.mem_of_getElem? hentry)
    (not_isDead hb.nodup hentry (Body.zero_mem_reachable hpos))
  exact List.ne_nil_of_mem hf

/-- The last unit left is blank, or it was the last unit, or control does not fall through it: what
it would fall through to would be left as well. -/
theorem sealed_swept (hb : b.Ready) : (swept b).body.Sealed := by
  have hn := hb.valid.nodup
  have hthin := (swept_steps hn).thinned (stable_isDead b) hn
  intro w hw
  by_cases hf : w.stmt.fallsThrough = true
  · refine .inr ?_
    have hwm := List.mem_of_getLast? hw
    by_cases hd : IsDead b w
    · exact blank_swept hn hwm hd
    obtain hi | ⟨v, hv, f, rfl⟩ := hthin.origin w hwm
    · exact Stmt.eq_nop_of_isInert hi hf
    obtain ⟨p, hp⟩ := List.getElem?_of_mem hv
    have hvp : b.ids[p]? = some v.id := Body.id_of_unit hp
    have hreached : p ∈ b.flowGraph.reachable := by
      by_contra hnot
      exact hd (mem_dead.2 ⟨p, hvp, hnot⟩)
    have hfv : v.stmt.fallsThrough = true := by simpa using hf
    by_contra hnop
    have hlt := hb.end_sealed.lt_of_fallsThrough hp hfv (by simpa using hnop)
    obtain ⟨z, hz⟩ := Body.exists_unit_of_lt hlt
    have hzp : b.ids[p + 1]? = some z.id := Body.id_of_unit hz
    obtain ⟨g, hg⟩ := hthin.kept z (List.mem_of_getElem? hz)
      (not_isDead hn hz (Body.succ_mem_reachable hreached hp hfv hlt))
    have hlast : (swept b).body.ids.getLast? = some v.id := by simp [Body.ids, hw]
    exact getLast?_ne_of_sublist hn hthin.ids hvp hzp (Body.mem_ids.2 ⟨_, hg, rfl⟩) hlast
  · exact .inl (by simpa using hf)

theorem ready_revise (hb : b.Ready) : (revise b).body.Ready := by
  by_cases h : dead b = []
  · rw [revise_of_no_dead h]
    exact hb
  · have hthin := (swept_steps hb.valid.nodup).thinned (stable_isDead b) hb.valid.nodup
    rw [revise_eq h]
    exact Body.Steady.ready_dropEmptyTraps ⟨coherent_swept hb.valid,
      hthin.noFresh.bounded hb.bounded, sealed_swept hb, nonempty_swept hb.valid⟩

end UnreachableUnits

namespace Pass

theorem unreachableUnits_carries : unreachableUnits.Carries Body.Ready Body.Ready :=
  fun _ _ hb ↦ ⟨⟨_, rfl⟩, UnreachableUnits.ready_revise hb⟩

theorem unreachableUnits_cleans : unreachableUnits.Cleans UnreachableUnits.IsDead where
  stable := UnreachableUnits.stable_isDead
  steps _ _ hn := ⟨_, _, UnreachableUnits.revise_steps hn, rfl⟩

end Pass

end ThreeAddress
