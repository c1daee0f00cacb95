import ThreeAddress.Proofs.Body.Motion
import ThreeAddress.Proofs.Readiness

namespace ThreeAddress

namespace Body

variable {b c d : Body} {f g : UnitId → UnitId} {u : UnitId} {x : CodeUnit} {p : Nat}

/-- `c` is left of `b` when units that control falls through are removed, and every reference to
some `u` goes on to `f u`. -/
structure Skips (f : UnitId → UnitId) (b c : Body) : Prop where
  units : c.ids.Sublist b.ids
  fixed : ∀ u ∈ c.ids, f u = u
  first : c.first? = b.first?.map f
  moved : Moved (· ∈ c.ids) f b c
  skipped : ∀ u ∈ b.ids, u ∉ c.ids → ∃ w, b.successor? u = some w ∧ f u = f w

namespace Skips

theorem trans (h : Skips f b c) (h' : Skips g c d) : Skips (g ∘ f) b d where
  units := h'.units.trans h.units
  fixed u hu := by rw [Function.comp_apply, h.fixed u (h'.units.subset hu), h'.fixed u hu]
  first := by rw [h'.first, h.first, Option.map_map]
  moved := (h.moved.mono fun u hu ↦ h'.units.subset hu).trans h'.moved
  skipped u hu hgone := by
    by_cases huc : u ∈ c.ids
    · obtain ⟨w', hw', he⟩ := h'.skipped u huc hgone
      rw [h.moved.successor u huc] at hw'
      obtain ⟨w, hw, rfl⟩ := Option.map_eq_some_iff.1 hw'
      exact ⟨w, hw, by rw [Function.comp_apply, h.fixed u huc, he, Function.comp_apply]⟩
    · obtain ⟨w, hw, he⟩ := h.skipped u hu huc
      exact ⟨w, hw, congrArg g he⟩

theorem of_ids (hi : c.ids = b.ids) (hn : b.ids.Nodup) (hs : ∀ u, c.stmt? u = b.stmt? u)
    (ha : ∀ u, c.around u = b.around u) : Skips (fun u ↦ u) b c where
  units := hi ▸ .refl _
  fixed _ _ := rfl
  first := by rw [first?_eq, first?_eq, hi, Option.map_id']
  moved := .of_ids hi hn (fun u _ ↦ hs u) ha
  skipped u hu hgone := absurd (hi ▸ hu) hgone

theorem refl (hn : b.ids.Nodup) : Skips (fun u ↦ u) b b :=
  of_ids rfl hn (fun _ ↦ rfl) fun _ ↦ rfl

theorem dropEmptyTraps (hn : b.ids.Nodup) : Skips (fun u ↦ u) b b.dropEmptyTraps :=
  of_ids rfl hn (fun _ ↦ rfl) b.around_dropEmptyTraps

theorem removeAt (hb : b.Coherent) (hp : b.units[p]? = some x) (hlt : p + 1 < b.size) :
    Skips (b.heir p) b (b.removeAt p) := by
  have hid : b.ids[p]? = some x.id := id_of_unit hp
  have hne {w : UnitId} (hw : w ∈ (b.removeAt p).ids) : w ≠ x.id :=
    ((mem_ids_removeAt hb.nodup hid).1 hw).2
  refine ⟨by simpa using List.eraseIdx_sublist b.ids p, fun u hu ↦ heir_of_ne hid (hne hu),
    first?_removeAt hb.nodup hp hlt, (moved_removeAt hb hp hlt).mono fun u hu ↦ hne hu, ?_⟩
  intro u hu hgone
  obtain rfl : u = x.id := by
    by_contra hux
    exact hgone ((mem_ids_removeAt hb.nodup hid).2 ⟨hu, hux⟩)
  obtain ⟨w, hw⟩ := exists_id_of_lt hlt
  have hwx : w ≠ x.id := next_ne hb.nodup hid hw
  refine ⟨w, ?_, ?_⟩
  · rw [successor?_of_getElem? hb.nodup hid, hw]
  · rw [heir_self hid hw, heir_of_ne hid hwx]

end Skips

end Body

namespace Revision

variable {r : Revision}

/-- A unit that control falls through is not the last one, so it goes, and its removal is what it
should be. -/
theorem skips_removeUnit {u : UnitId} (note : Nat → Note) (hr : r.body.Sound)
    (hu : ∀ v ∈ r.body.units, v.id = u → v.stmt.fallsThrough = true ∧ v.stmt ≠ .nop) :
    (r.removeUnit u note).body.Sound ∧ ∃ f, Body.Skips f r.body (r.removeUnit u note).body ∧
      ∀ w ∈ r.body.ids, w ∉ (r.removeUnit u note).body.ids ↔ w = u := by
  have hn := hr.coherent.nodup
  unfold removeUnit
  split
  · next p hp =>
    obtain ⟨v, hv, rfl⟩ := Body.unit_of_position? hp
    obtain ⟨hfalls, hnop⟩ := hu v (List.mem_of_getElem? hv) rfl
    have hlt : p + 1 < r.body.size := hr.end_sealed.lt_of_fallsThrough hv hfalls hnop
    rw [if_pos (Body.isRemovable_of_lt hn hv hlt)]
    refine ⟨hr.removeAt hlt, _, .removeAt hr.coherent hv hlt, fun w hw ↦ ?_⟩
    change w ∉ (r.body.removeAt p).ids ↔ _
    rw [Body.mem_ids_removeAt hn (Body.id_of_unit hv), and_iff_right hw, not_not]
  · next hnone =>
    refine ⟨hr, _, .refl hn, fun w hw ↦ iff_of_false (not_not_intro hw) ?_⟩
    rintro rfl
    exact Body.position?_eq_none.1 hnone hw

theorem skips_foldl {α : Type} (key : α → UnitId) (note : α → Nat → Note) (l : List α)
    (r : Revision) (hr : r.body.Sound) (hl : ∀ a ∈ l, ∀ v ∈ r.body.units, v.id = key a →
      v.stmt.fallsThrough = true ∧ v.stmt ≠ .nop) :
    (l.foldl (fun r a ↦ r.removeUnit (key a) (note a)) r).body.Sound ∧
    ∃ f, Body.Skips f r.body (l.foldl (fun r a ↦ r.removeUnit (key a) (note a)) r).body ∧
      ∀ u ∈ r.body.ids, u ∉ (l.foldl (fun r a ↦ r.removeUnit (key a) (note a)) r).body.ids ↔
        ∃ a ∈ l, key a = u := by
  induction l generalizing r with
  | nil => exact ⟨hr, _, .refl hr.coherent.nodup, fun u hu ↦ by simpa using hu⟩
  | cons a l ih =>
    obtain ⟨hsound, f, hf, hgone⟩ := skips_removeUnit (note a) hr (hl a List.mem_cons_self)
    obtain ⟨hsound', g, hg, hgone'⟩ := ih (r.removeUnit (key a) (note a)) hsound
      fun a' ha' w hw hk ↦ by
        obtain ⟨v, hv, f, rfl⟩ := origin_removeUnit hw
        simpa using hl a' (List.mem_cons_of_mem a ha') v hv hk
    refine ⟨hsound', g ∘ f, hf.trans hg, fun u hu ↦ ?_⟩
    rw [List.exists_mem_cons_iff, List.foldl_cons, eq_comm, ← hgone u hu]
    by_cases hmem : u ∈ (r.removeUnit (key a) (note a)).body.ids
    · rw [hgone' u hmem]
      exact (or_iff_right (not_not_intro hmem)).symm
    · exact iff_of_true (fun hin ↦ hmem (hg.units.subset hin)) (.inl hmem)

end Revision

end ThreeAddress
