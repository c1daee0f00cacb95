import Mathlib.Algebra.GroupWithZero.Nat
import ThreeAddress.Proofs.Cleanup

namespace ThreeAddress

namespace Body

variable {b : Body} {u : CodeUnit} {p : Nat} {s : Stmt}

def weight (b : Body) : Nat := (b.units.map (·.stmt.weight)).sum + b.traps.length

theorem sum_eraseIdx (us : List CodeUnit) (h : p < us.length) :
    ((us.eraseIdx p).map (·.stmt.weight)).sum < (us.map (·.stmt.weight)).sum := by
  induction us generalizing p with
  | nil => simp at h
  | cons u us ih =>
    cases p with
    | zero => simpa using u.stmt.weight_pos
    | succ p => simpa using ih (by simpa using h)

theorem weight_removeAt (hp : p < b.size) : (b.removeAt p).weight < b.weight := by
  have hw : ((b.removeAt p).units.map (·.stmt.weight)).sum =
      ((b.units.eraseIdx p).map (·.stmt.weight)).sum := by
    simp [removeAt_eq, Function.comp_def]
  have := sum_eraseIdx b.units hp
  simp only [weight, hw, length_traps_removeAt]
  omega

theorem sum_overwrite (us : List CodeUnit) (hn : (us.map (·.id)).Nodup) (hu : u ∈ us)
    (hw : s.weight < u.stmt.weight) :
    ((us.map fun v ↦ if v.id = u.id then { v with stmt := s } else v).map (·.stmt.weight)).sum <
      (us.map (·.stmt.weight)).sum := by
  induction us with
  | nil => simp at hu
  | cons v us ih =>
    rw [List.map_cons, List.nodup_cons] at hn
    obtain ⟨hv, hn⟩ := hn
    by_cases he : v.id = u.id
    · have hrest : us.map (fun v ↦ if v.id = u.id then { v with stmt := s } else v) = us := by
        refine (List.map_congr_left fun w hw' ↦ if_neg fun hwu ↦ hv ?_).trans (List.map_id' us)
        exact List.mem_map.2 ⟨w, hw', hwu.trans he.symm⟩
      obtain rfl : u = v := by
        obtain rfl | hu := List.mem_cons.1 hu
        · rfl
        · exact absurd (List.mem_map.2 ⟨u, hu, he.symm⟩) hv
      simpa [hrest] using hw
    · have hu : u ∈ us := by
        obtain rfl | hu := List.mem_cons.1 hu
        · exact absurd rfl he
        · exact hu
      simpa [he] using ih hn hu

theorem weight_setStmt (hn : b.ids.Nodup) (hu : u ∈ b.units) (hw : s.weight < u.stmt.weight) :
    (b.setStmt u.id s).weight < b.weight := by
  have := sum_overwrite b.units hn hu hw
  simp only [weight, setStmt]
  omega

theorem weight_retarget (b : Body) (f : UnitId → UnitId) :
    (b.mapStmts (·.mapTargets f)).weight = b.weight := by
  simp [weight, mapStmts, Function.comp_def]

theorem weight_modifyAt {f : Stmt → Stmt} (hf : ∀ s, (f s).weight = s.weight) (b : Body) (p : Nat) :
    (b.modifyAt p f).weight = b.weight := by
  have hw : (b.units.modify p (·.mapStmt f)).map (·.stmt.weight) = b.units.map (·.stmt.weight) := by
    refine List.ext_getElem? fun q ↦ ?_
    rw [List.getElem?_map, List.getElem?_map, List.getElem?_modify]
    cases b.units[q]? with
    | none => rfl
    | some u => by_cases hpq : p = q <;> simp [hpq, hf]
  simp only [weight, modifyAt, hw]

end Body

namespace Revision

variable {gone : CodeUnit → Prop} {put : Stmt → Prop} {b : Body} {r r' r'' : Revision}
  {new new' : List Note}

/-- From `r` to `r'` the notes `new` were added, and each of them made the body lighter. -/
structure Pays (r r' : Revision) (new : List Note) : Prop where
  notes : r'.notes = r.notes ++ new
  kinds : ∀ n ∈ new, n.kind.isChange = true
  changed : r'.changed = (r.changed || !new.isEmpty)
  same : new = [] → r'.body = r.body
  lighter : new ≠ [] → r'.body.weight < r.body.weight

namespace Pays

theorem refl (r : Revision) : Pays r r [] := by
  constructor <;> simp

theorem trans (h : Pays r r' new) (h' : Pays r' r'' new') : Pays r r'' (new ++ new') where
  notes := by rw [h'.notes, h.notes, List.append_assoc]
  kinds n hn := (List.mem_append.1 hn).elim (h.kinds n) (h'.kinds n)
  changed := by
    rw [h'.changed, h.changed]
    cases new <;> simp
  same he := by
    obtain ⟨rfl, rfl⟩ := List.append_eq_nil_iff.1 he
    exact (h'.same rfl).trans (h.same rfl)
  lighter he := by
    by_cases hn : new = []
    · rw [← h.same hn]
      exact h'.lighter (by simpa [hn] using he)
    by_cases hn' : new' = []
    · rw [h'.same hn']
      exact h.lighter hn
    · exact Nat.lt_trans (h'.lighter hn') (h.lighter hn)

theorem note {c : Body} {n : Note} (hn : n.kind.isChange = true) (hw : c.weight < r.body.weight) :
    Pays r (r.withNote c n) [n] := by
  constructor <;> simp [withNote, hn, hw]

end Pays

theorem Step.pays (h : Step gone put r r') (hn : r.body.ids.Nodup) : ∃ new, Pays r r' new := by
  cases h with
  | remove u p n hp hg hr hc =>
    obtain ⟨hlt, -⟩ := List.getElem?_eq_some_iff.1 hp
    exact ⟨[n], .note hc (Body.weight_removeAt hlt)⟩
  | overwrite u s n hu hg hs hi hw hc => exact ⟨[n], .note hc (Body.weight_setStmt hn hu hw)⟩
  | dropTraps ts ns hs hl hc =>
    refine ⟨ns, rfl, hc, rfl, ?_, ?_⟩
    · rintro rfl
      obtain rfl : ts = r.body.traps := hs.eq_of_length (by simpa using hl)
      rfl
    · intro hne
      have := List.length_pos_iff.2 hne
      simp only [withNotes, Body.weight]
      omega

theorem Steps.pays (hst : Stable gone) (h : Steps gone put r r') (hn : r.body.ids.Nodup) :
    ∃ new, Pays r r' new := by
  induction h with
  | refl => exact ⟨[], .refl r⟩
  | tail h hs ih =>
    obtain ⟨new, hp⟩ := ih
    obtain ⟨new', hp'⟩ := hs.pays ((Steps.thinned hst h hn).nodup hn)
    exact ⟨new ++ new', hp.trans hp'⟩

/-- The flag is set exactly if the body differs from `b`, and exactly if there are notes, all of
which report changes. -/
structure Candid (b : Body) (r : Revision) : Prop where
  kinds : ∀ n ∈ r.notes, n.kind.isChange = true
  noted : r.changed = true ↔ r.notes ≠ []
  moved : r.changed = true ↔ r.body ≠ b

theorem candid_start (b : Body) : Candid b ⟨b, [], false⟩ := by
  constructor <;> simp

theorem Candid.pays (h : Candid b r) (hw : r.body.weight ≤ b.weight) (hp : Pays r r' new) :
    Candid b r' := by
  by_cases hnew : new = []
  · subst hnew
    have hb := hp.same rfl
    have hns : r'.notes = r.notes := by simpa using hp.notes
    have hc : r'.changed = r.changed := by simpa using hp.changed
    exact ⟨hns ▸ h.kinds, by rw [hc, hns, h.noted], by rw [hc, hb, h.moved]⟩
  · have hc : r'.changed = true := by simp [hp.changed, hnew]
    refine ⟨?_, ?_, ?_⟩
    · rw [hp.notes]
      exact fun n hn ↦ (List.mem_append.1 hn).elim (h.kinds n) (hp.kinds n)
    · simp [hc, hp.notes, hnew]
    · have hlt := Nat.lt_of_lt_of_le (hp.lighter hnew) hw
      simp only [hc, true_iff]
      rintro rfl
      exact Nat.lt_irrefl _ hlt

theorem Steps.candid (hst : Stable gone) (hn : b.ids.Nodup)
    (h : Steps gone put ⟨b, [], false⟩ r) : Candid b r := by
  obtain ⟨new, hp⟩ := Steps.pays hst h hn
  exact (candid_start b).pays (Nat.le_refl _) hp

end Revision

/-- If the pass succeeds, its flag tells whether it changed the body `b`, and whether it noted a
change. -/
def PassRun.Candid (b : Body) (run : PassRun) : Prop :=
  ∀ changed, run.result = .ok changed → (changed = true ↔ run.body ≠ b) ∧
    (changed = true ↔ ∃ n ∈ run.notes, n.kind.isChange = true)

/-- The runs of the pass are candid on all bodies whose identities tell their units and locals
apart. -/
def Pass.Candid (pass : Pass) : Prop :=
  ∀ m (b : Body), b.ids.Nodup → (b.locals.map (·.id)).Nodup → (pass.run m b).Candid b

theorem Revision.Candid.finish {b : Body} {r : Revision} (h : r.Candid b) :
    r.finish.Candid b := by
  rintro changed ⟨⟩
  refine ⟨h.moved, h.noted.trans ⟨fun hne ↦ ?_, ?_⟩⟩
  · obtain ⟨n, hn⟩ := List.exists_mem_of_ne_nil _ hne
    exact ⟨n, hn, h.kinds n hn⟩
  · rintro ⟨n, hn, -⟩
    exact List.ne_nil_of_mem hn

theorem Pass.Cleans.candid {pass : Pass} {gone : Body → CodeUnit → Prop}
    (h : pass.Cleans gone) : pass.Candid := by
  intro m b hn _
  obtain ⟨put, r, hsteps, hrun⟩ := h.steps m b hn
  rw [hrun]
  exact (Revision.Steps.candid (h.stable b) hn hsteps).finish

end ThreeAddress
