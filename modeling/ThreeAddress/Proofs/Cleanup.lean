import Mathlib.Logic.Relation
import ThreeAddress.Pass.Basic
import ThreeAddress.Proofs.Body.Edits

namespace ThreeAddress

namespace Stmt

def isInert : Stmt → Bool
  | nop | goto _ => true
  | _ => false

def weight : Stmt → Nat
  | nop => 1
  | branch .. | switch .. => 3
  | _ => 2

@[simp] theorem isInert_mapTargets (f : UnitId → UnitId) (s : Stmt) :
    (s.mapTargets f).isInert = s.isInert := by
  cases s <;> rfl

@[simp] theorem weight_mapTargets (f : UnitId → UnitId) (s : Stmt) :
    (s.mapTargets f).weight = s.weight := by
  cases s <;> rfl

theorem weight_pos (s : Stmt) : 0 < s.weight := by
  cases s <;> simp [weight]

theorem locals_of_isInert {s : Stmt} (h : s.isInert = true) : s.locals = [] := by
  cases s <;> simp_all [isInert, locals, uses, values, def?]

theorem eq_nop_of_isInert {s : Stmt} (h : s.isInert = true) (hf : s.fallsThrough = true) :
    s = .nop := by
  cases s <;> simp_all [isInert, fallsThrough]

end Stmt

def Stable (gone : CodeUnit → Prop) : Prop :=
  ∀ u f, gone (u.mapStmt (·.mapTargets f)) ↔ gone u

section Sublists

variable {α : Type} {l l' : List α} {a z : α} {p : Nat}

/-- What is left of a list without repetitions ends as the list does, if that end is left. -/
theorem getLast?_of_sublist (hn : l.Nodup) (hs : l'.Sublist l) (hl : l.getLast? = some a)
    (ha : a ∈ l') : l'.getLast? = some a := by
  obtain ⟨l₀, rfl⟩ := List.getLast?_eq_some_iff.1 hl
  obtain ⟨l₁, l₂, rfl, h₁, h₂⟩ := List.sublist_append_iff.1 hs
  rcases List.sublist_singleton.1 h₂ with rfl | rfl
  · have hm : a ∈ l₀ := h₁.subset (by simpa using ha)
    exact absurd rfl ((List.nodup_append.1 hn).2.2 a hm a (by simp))
  · simp

theorem exists_cons_of_sublist (hs : l'.Sublist (a :: l)) (hm : a ∈ l') (ha : a ∉ l) :
    ∃ r, l' = a :: r ∧ r.Sublist l := by
  obtain hs | hs := List.sublist_cons_iff.1 hs
  · exact absurd (hs.subset hm) ha
  · exact hs

theorem head?_of_sublist (hn : l.Nodup) (hs : l'.Sublist l) (hl : l.head? = some a)
    (ha : a ∈ l') : l'.head? = some a := by
  obtain ⟨r, rfl⟩ := List.head?_eq_some_iff.1 hl
  obtain ⟨r', rfl, -⟩ := exists_cons_of_sublist hs ha (List.nodup_cons.1 hn).1
  rfl

theorem exists_neighbours_of_sublist (hn : l.Nodup) (hs : l'.Sublist l) (ha : l[p]? = some a)
    (hz : l[p + 1]? = some z) (ham : a ∈ l') (hzm : z ∈ l') :
    ∃ q, l'[q]? = some a ∧ l'[q + 1]? = some z := by
  obtain ⟨front, back, rfl⟩ : ∃ front back, l = front ++ a :: z :: back := by
    obtain ⟨hp, rfl⟩ := List.getElem?_eq_some_iff.1 ha
    obtain ⟨hp', rfl⟩ := List.getElem?_eq_some_iff.1 hz
    exact ⟨l.take p, l.drop (p + 2), by simp⟩
  obtain ⟨-, hrest, hapart⟩ := List.nodup_append.1 hn
  obtain ⟨ha, hback⟩ := List.nodup_cons.1 hrest
  obtain ⟨front', rest, rfl, hfront, hrest⟩ := List.sublist_append_iff.1 hs
  have hbehind {w : α} (hw : w ∈ front' ++ rest) (hw' : w ∈ a :: z :: back) : w ∈ rest := by
    obtain hw | hw := List.mem_append.1 hw
    · exact absurd rfl (hapart w (hfront.subset hw) w hw')
    · exact hw
  obtain ⟨rest₁, rfl, hrest₁⟩ := exists_cons_of_sublist hrest (hbehind ham (by simp)) ha
  have hz : z ∈ rest₁ := by
    obtain rfl | hz := List.mem_cons.1 (hbehind hzm (by simp))
    · simp at ha
    · exact hz
  obtain ⟨rest₂, rfl, -⟩ := exists_cons_of_sublist hrest₁ hz (List.nodup_cons.1 hback).1
  exact ⟨front'.length, by simp, by simp⟩

/-- Where something behind an entry of a list is left of the list, the entry is not the end. -/
theorem getLast?_ne_of_sublist (hn : l.Nodup) (hs : l'.Sublist l) (ha : l[p]? = some a)
    (hz : l[p + 1]? = some z) (hm : z ∈ l') : l'.getLast? ≠ some a := by
  intro hlast
  obtain ⟨q, hq, hq'⟩ :=
    exists_neighbours_of_sublist hn hs ha hz (List.mem_of_getLast? hlast) hm
  obtain ⟨hlt, -⟩ := List.getElem?_eq_some_iff.1 hq'
  rw [List.getLast?_eq_getElem?, ← hq] at hlast
  have hend : l'.length - 1 = q := (List.getElem?_inj (by omega) (hn.sublist hs)).1 hlast
  omega

end Sublists

namespace Body

variable {gone : CodeUnit → Prop} {b c d : Body} {u : CodeUnit} {p : Nat} {s : Stmt}

/-- `c` is `b` without some of the units that may go, up to the targets of jumps, and with inert
statements in the place of others that may go. -/
structure Thinned (gone : CodeUnit → Prop) (b c : Body) : Prop where
  locals : c.locals = b.locals
  nextUnit : c.nextUnit = b.nextUnit
  ids : c.ids.Sublist b.ids
  origin : ∀ w ∈ c.units, w.stmt.isInert = true ∨
    ∃ v ∈ b.units, ∃ f, w = v.mapStmt (·.mapTargets f)
  kept : ∀ v ∈ b.units, ¬ gone v → ∃ f, v.mapStmt (·.mapTargets f) ∈ c.units

def OnlyLast (P : Stmt → Prop) (b : Body) : Prop :=
  ∀ (p : Nat) (u : CodeUnit), b.units[p]? = some u → P u.stmt → p + 1 = b.size

theorem OnlyLast.of_lt {P : Stmt → Prop}
    (h : ∀ p u, b.units[p]? = some u → p + 1 < b.size → ¬ P u.stmt) : b.OnlyLast P := by
  intro p u hu hs
  obtain ⟨hlt, -⟩ := List.getElem?_eq_some_iff.1 hu
  by_contra hne
  exact h p u hu (Nat.lt_of_le_of_ne hlt hne) hs

namespace Thinned

theorem of_units (hl : c.locals = b.locals) (hn : c.nextUnit = b.nextUnit)
    (hu : c.units = b.units) : Thinned gone b c where
  locals := hl
  nextUnit := hn
  ids := by
    rw [Body.ids, Body.ids, hu]
  origin w hw := .inr ⟨w, hu ▸ hw, fun t ↦ t, by simp [CodeUnit.mapStmt]⟩
  kept v hv _ := ⟨fun t ↦ t, by simpa [hu, CodeUnit.mapStmt] using hv⟩

theorem refl (b : Body) : Thinned gone b b := of_units rfl rfl rfl

theorem trans (hs : Stable gone) (h : Thinned gone b c) (h' : Thinned gone c d) :
    Thinned gone b d where
  locals := h'.locals.trans h.locals
  nextUnit := h'.nextUnit.trans h.nextUnit
  ids := h'.ids.trans h.ids
  origin w hw := by
    obtain hi | ⟨v, hv, f, rfl⟩ := h'.origin w hw
    · exact .inl hi
    obtain hi | ⟨z, hz, g, rfl⟩ := h.origin v hv
    · exact .inl (by simpa using hi)
    · exact .inr ⟨z, hz, f ∘ g, by simp [CodeUnit.mapStmt]⟩
  kept v hv hg := by
    obtain ⟨f, hf⟩ := h.kept v hv hg
    obtain ⟨g, hg'⟩ := h'.kept _ hf (mt (hs v f).1 hg)
    exact ⟨g ∘ f, by simpa [CodeUnit.mapStmt] using hg'⟩

theorem nodup (h : Thinned gone b c) (hn : b.ids.Nodup) : c.ids.Nodup := h.ids.nodup hn

theorem size_le (h : Thinned gone b c) : c.size ≤ b.size := by
  simpa using h.ids.length_le

theorem noFresh (h : Thinned gone b c) : NoFresh b c := ⟨h.ids.subset, h.nextUnit⟩

/-- A unit that was the last one is the last one of what is left, unless it went. -/
theorem onlyLast {P : Stmt → Prop} (h : Thinned gone b c) (hn : b.ids.Nodup)
    (hi : ∀ s, P s → s.isInert = false) (hm : ∀ s f, P (s.mapTargets f) → P s)
    (hb : b.OnlyLast P) : c.OnlyLast P := by
  intro p w hw hP
  have hmem := List.mem_of_getElem? hw
  obtain hinert | ⟨v, hv, f, rfl⟩ := h.origin w hmem
  · simp [hi _ hP] at hinert
  obtain ⟨q, hq⟩ := List.getElem?_of_mem hv
  have hlast : q + 1 = b.size := hb q v hq (hm v.stmt f hP)
  have hend : b.ids.getLast? = some v.id := by
    rw [List.getLast?_eq_getElem?, length_ids, ← hlast, Nat.add_sub_cancel]
    exact id_of_unit hq
  have hkept : v.id ∈ c.ids := mem_ids.2 ⟨_, hmem, rfl⟩
  have hend' : c.ids.getLast? = some v.id := getLast?_of_sublist hn h.ids hend hkept
  rw [List.getLast?_eq_getElem?, length_ids] at hend'
  have hp : c.ids[p]? = some (v.mapStmt (·.mapTargets f)).id := id_of_unit hw
  have hpos := lt_size_of_getElem? hp
  have heq := index_unique (h.nodup hn) hp hend'
  omega

/-- What cannot be an inert statement, and does not look at targets, holds of all units left. -/
theorem forall_units {P : Stmt → Prop} (h : Thinned gone b c)
    (hi : ∀ s : Stmt, s.isInert = true → P s) (hm : ∀ s f, P s → P (s.mapTargets f))
    (hb : ∀ v ∈ b.units, P v.stmt) : ∀ w ∈ c.units, P w.stmt := by
  intro w hw
  obtain hw | ⟨v, hv, f, rfl⟩ := h.origin w hw
  · exact hi _ hw
  · exact hm _ f (hb v hv)

end Thinned

theorem thinned_retarget (b : Body) (f : UnitId → UnitId) :
    Thinned gone b (b.mapStmts (·.mapTargets f)) where
  locals := rfl
  nextUnit := rfl
  ids := by simp
  origin w hw := by
    obtain ⟨v, hv, rfl⟩ := List.mem_map.1 hw
    exact .inr ⟨v, hv, f, rfl⟩
  kept v hv _ := ⟨f, List.mem_map_of_mem hv⟩

theorem thinned_removeAt (hp : b.units[p]? = some u) (hg : gone u) :
    Thinned gone b (b.removeAt p) where
  locals := locals_removeAt b p
  nextUnit := nextUnit_removeAt b p
  ids := by
    rw [ids_removeAt]
    exact List.eraseIdx_sublist _ _
  origin w hw := by
    obtain ⟨q, v, -, hv, rfl⟩ := mem_removeAt.1 hw
    exact .inr ⟨v, List.mem_of_getElem? hv, b.heir p, rfl⟩
  kept v hv hk := by
    obtain ⟨q, hq⟩ := List.getElem?_of_mem hv
    have hqp : q ≠ p := by
      rintro rfl
      obtain rfl : v = u := Option.some.inj (hq.symm.trans hp)
      exact hk hg
    exact ⟨b.heir p, mem_removeAt.2 ⟨q, v, hqp, hq, rfl⟩⟩

theorem thinned_setStmt (hn : b.ids.Nodup) (hu : u ∈ b.units) (hg : gone u)
    (hi : s.isInert = true) : Thinned gone b (b.setStmt u.id s) where
  locals := rfl
  nextUnit := rfl
  ids := by simp
  origin w hw := by
    obtain ⟨hw, -⟩ | ⟨-, rfl, -⟩ := mem_setStmt hw
    · exact .inr ⟨w, hw, fun t ↦ t, by simp [CodeUnit.mapStmt]⟩
    · exact .inl hi
  kept v hv hk := by
    have hne : v.id ≠ u.id := by
      intro he
      exact hk (eq_of_id_eq hn hv hu he ▸ hg)
    exact ⟨fun t ↦ t, by simpa [CodeUnit.mapStmt] using mem_setStmt_of_ne hv hne⟩

end Body

namespace Revision

variable {gone : CodeUnit → Prop} {put : Stmt → Prop} {r r' : Revision}

/-- One step of a cleanup: a unit that may go is removed, or gets an inert statement that weighs
less, or some traps go. -/
inductive Step (gone : CodeUnit → Prop) (put : Stmt → Prop) : Revision → Revision → Prop
  | remove (r : Revision) (u : CodeUnit) (p : Nat) (n : Note) :
      r.body.units[p]? = some u → gone u → r.body.isRemovable u.id = true →
      n.kind.isChange = true → Step gone put r (r.withNote (r.body.removeAt p) n)
  | overwrite (r : Revision) (u : CodeUnit) (s : Stmt) (n : Note) :
      u ∈ r.body.units → gone u → put s → s.isInert = true → s.weight < u.stmt.weight →
      n.kind.isChange = true → Step gone put r (r.withNote (r.body.setStmt u.id s) n)
  | dropTraps (r : Revision) (ts : List Trap) (ns : List Note) :
      ts.Sublist r.body.traps → ts.length + ns.length = r.body.traps.length →
      (∀ n ∈ ns, n.kind.isChange = true) →
      Step gone put r (r.withNotes { r.body with traps := ts } ns)

abbrev Steps (gone : CodeUnit → Prop) (put : Stmt → Prop) : Revision → Revision → Prop :=
  Relation.ReflTransGen (Step gone put)

theorem Step.thinned (h : Step gone put r r') (hn : r.body.ids.Nodup) :
    Body.Thinned gone r.body r'.body := by
  cases h with
  | remove u p n hp hg hr hc => exact Body.thinned_removeAt hp hg
  | overwrite u s n hu hg hs hi hw hc => exact Body.thinned_setStmt hn hu hg hi
  | dropTraps ts ns hs hl hc => exact .of_units rfl rfl rfl

theorem Steps.thinned (hst : Stable gone) (h : Steps gone put r r') (hn : r.body.ids.Nodup) :
    Body.Thinned gone r.body r'.body := by
  induction h with
  | refl => exact .refl _
  | tail _ hs ih => exact ih.trans hst (hs.thinned (ih.nodup hn))

theorem Step.coherent (hput : ∀ s, put s → s.targets = []) (h : Step gone put r r')
    (hc : r.body.Coherent) : r'.body.Coherent := by
  cases h with
  | remove u p n hp hg hr hn =>
    exact hc.removeAt (Body.id_of_unit hp) hr
  | overwrite u s n hu hg hs hi hw hn =>
    refine hc.setStmt ?_ ?_
    · simp [hput s hs]
    · simp [Stmt.locals_of_isInert hi]
  | dropTraps ts ns hs hl hn => exact hc.subTraps hs.subset

theorem Steps.coherent (hput : ∀ s, put s → s.targets = []) (h : Steps gone put r r')
    (hc : r.body.Coherent) : r'.body.Coherent := by
  induction h with
  | refl => exact hc
  | tail _ hs ih => exact hs.coherent hput ih

theorem dropEmptyTraps_step (r : Revision) : Step gone put r r.dropEmptyTraps := by
  refine .dropTraps r _ _ List.filter_sublist ?_ ?_
  · have hl := List.length_eq_length_filter_add (l := r.body.traps) r.body.isEmptyTrap
    simp only [Body.emptyTraps, List.length_map]
    omega
  · intro n hn
    obtain ⟨t, -, rfl⟩ := List.mem_map.1 hn
    rfl

theorem removeUnit_steps {u : UnitId} {note : Nat → Note}
    (hg : ∀ v ∈ r.body.units, v.id = u → gone v) (hn : ∀ p, (note p).kind.isChange = true) :
    Steps gone put r (r.removeUnit u note) := by
  unfold removeUnit
  split
  · next p hp =>
    obtain ⟨v, hv, rfl⟩ := Body.unit_of_position? hp
    split
    · next hr => exact .single (.remove r v p _ hv (hg v (List.mem_of_getElem? hv) rfl) hr (hn p))
    · exact .refl
  · exact .refl

theorem size_removeUnit {u : UnitId} {note : Nat → Note} (hu : u ∈ r.body.ids)
    (hr : r.body.isRemovable u = true) : (r.removeUnit u note).body.size < r.body.size := by
  unfold removeUnit
  cases hp : r.body.position? u with
  | none => exact absurd hu (Body.position?_eq_none.1 hp)
  | some p =>
    have hs := Body.size_removeAt (Body.lt_size_of_getElem? (Body.getElem?_of_position? hp))
    simp only [if_pos hr, withNote]
    omega

theorem not_mem_removeUnit {u : UnitId} {note : Nat → Note} (hn : r.body.ids.Nodup)
    (hr : r.body.isRemovable u = true) : u ∉ (r.removeUnit u note).body.ids := by
  unfold removeUnit
  cases hp : r.body.position? u with
  | none => exact Body.position?_eq_none.1 hp
  | some p =>
    simp only [if_pos hr, withNote, Body.ids_removeAt, List.mem_eraseIdx_iff_getElem?]
    intro h
    obtain ⟨q, hq, hu⟩ := h
    exact hq (Body.index_unique hn hu (Body.getElem?_of_position? hp))

theorem origin_removeUnit {u : UnitId} {note : Nat → Note} {w : CodeUnit}
    (h : w ∈ (r.removeUnit u note).body.units) :
    ∃ v ∈ r.body.units, ∃ f, w = v.mapStmt (·.mapTargets f) := by
  have keep (hw : w ∈ r.body.units) : ∃ v ∈ r.body.units, ∃ f, w = v.mapStmt (·.mapTargets f) :=
    ⟨w, hw, fun t ↦ t, by simp [CodeUnit.mapStmt]⟩
  unfold removeUnit at h
  split at h
  · next p hp =>
    split at h
    · obtain ⟨q, v, -, hv, rfl⟩ := Body.mem_removeAt.1 h
      exact ⟨v, List.mem_of_getElem? hv, r.body.heir p, rfl⟩
    · exact keep h
  · exact keep h

theorem kept_removeUnit {u : UnitId} {note : Nat → Note} {w : CodeUnit} (hw : w ∈ r.body.units)
    (hne : w.id ≠ u) : ∃ f, w.mapStmt (·.mapTargets f) ∈ (r.removeUnit u note).body.units := by
  have keep : ∃ f, w.mapStmt (·.mapTargets f) ∈ r.body.units :=
    ⟨fun t ↦ t, by simpa [CodeUnit.mapStmt] using hw⟩
  unfold removeUnit
  split
  · next p hp =>
    split
    · obtain ⟨q, hq⟩ := List.getElem?_of_mem hw
      refine ⟨r.body.heir p, Body.mem_removeAt.2 ⟨q, w, ?_, hq, rfl⟩⟩
      rintro rfl
      obtain ⟨v, hv, he⟩ := Body.unit_of_position? hp
      exact hne (Option.some.inj (hq.symm.trans hv) ▸ he)
    · exact keep
  · exact keep

theorem foldl_removeUnit_steps {α : Type} (key : α → UnitId) (note : α → Nat → Note)
    (hnote : ∀ a p, (note a p).kind.isChange = true) (hst : Stable gone) (l : List α)
    (r : Revision) (hg : ∀ a ∈ l, ∀ v ∈ r.body.units, v.id = key a → gone v) :
    Steps gone put r (l.foldl (fun r a ↦ r.removeUnit (key a) (note a)) r) := by
  induction l generalizing r with
  | nil => exact .refl
  | cons a l ih =>
    have hfirst : Steps gone put r (r.removeUnit (key a) (note a)) :=
      removeUnit_steps (hg a List.mem_cons_self) (hnote a)
    refine hfirst.trans (ih _ fun a' ha' w hw hk ↦ ?_)
    obtain ⟨v, hv, f, rfl⟩ := origin_removeUnit hw
    exact (hst v f).2 (hg a' (List.mem_cons_of_mem a ha') v hv hk)

theorem removeFirst_steps {test : Body → Nat → Bool} {note : Nat → UnitId → Note}
    (hnote : ∀ p u, (note p u).kind.isChange = true)
    (ht : ∀ (b : Body) p, b.ids.Nodup → test b p = true → p < b.size →
      ∃ v, b.units[p]? = some v ∧ gone v ∧ b.isRemovable v.id = true) (r : Revision)
    (hn : r.body.ids.Nodup) : Steps gone put r (r.removeFirst test note) := by
  fun_induction removeFirst test note r with
  | case1 r h => exact .refl
  | case2 r p h unit ih =>
    have hp := List.mem_range.1 (List.mem_of_find?_eq_some h)
    obtain ⟨v, hv, hg, hr⟩ := ht r.body p hn (List.find?_some h) hp
    have hs : Step gone put r (r.withNote (r.body.removeAt p) (note p unit)) :=
      .remove r v p _ hv hg hr (hnote p unit)
    exact .head hs (ih ((hs.thinned hn).nodup hn))

theorem removeFirst_keeps {P : Body → Prop} {test : Body → Nat → Bool}
    {note : Nat → UnitId → Note}
    (ht : ∀ (b : Body) p, P b → test b p = true → p < b.size → P (b.removeAt p)) (r : Revision)
    (hr : P r.body) : P (r.removeFirst test note).body := by
  fun_induction removeFirst test note r with
  | case1 r h => exact hr
  | case2 r p h unit ih =>
    have hp := List.mem_range.1 (List.mem_of_find?_eq_some h)
    exact ih (ht r.body p hr (List.find?_some h) hp)

theorem removeFirst_done {test : Body → Nat → Bool} {note : Nat → UnitId → Note} (r : Revision)
    {p : Nat} (hp : p < (r.removeFirst test note).body.size) :
    test (r.removeFirst test note).body p = false := by
  fun_induction removeFirst test note r with
  | case1 r h =>
    have := List.find?_eq_none.1 h p (List.mem_range.2 hp)
    simpa using this
  | case2 r p h unit ih => exact ih hp

theorem removeFirst_eq_self {test : Body → Nat → Bool} (note : Nat → UnitId → Note)
    (h : ∀ p, test r.body p = false) : r.removeFirst test note = r := by
  unfold removeFirst
  split
  · rfl
  · next p hp =>
    have htest := List.find?_some hp
    rw [h p] at htest
    cases htest

theorem dropEmptyTraps_eq_self (h : r.body.Valid) : r.dropEmptyTraps = r := by
  rw [dropEmptyTraps, h.dropEmptyTraps_eq_self, h.emptyTraps_eq_nil]
  simp [withNotes]

end Revision

namespace Pass

def AddsNoUnits (pass : Pass) : Prop :=
  ∀ m (b : Body), b.ids.Nodup → b.NoFresh (pass.run m b).body

structure Cleans (pass : Pass) (gone : Body → CodeUnit → Prop) : Prop where
  stable : ∀ b, Stable (gone b)
  steps : ∀ m (b : Body), b.ids.Nodup → ∃ put r,
    Revision.Steps (gone b) put ⟨b, [], false⟩ r ∧ pass.run m b = r.finish

namespace Cleans

variable {pass : Pass} {gone : Body → CodeUnit → Prop} {b : Body}

theorem thinned (h : pass.Cleans gone) (m : Signature) (hn : b.ids.Nodup) :
    Body.Thinned (gone b) b (pass.run m b).body := by
  obtain ⟨put, r, hsteps, hrun⟩ := h.steps m b hn
  rw [hrun]
  exact Revision.Steps.thinned (h.stable b) hsteps hn

theorem addsNoUnits (h : pass.Cleans gone) : pass.AddsNoUnits :=
  fun m _ hn ↦ (h.thinned m hn).noFresh

end Cleans

end Pass

end ThreeAddress
