import Mathlib.Logic.Relation
import ThreeAddress.Proofs.Body.Chains
import ThreeAddress.Proofs.Body.Motion

namespace ThreeAddress

/-- What control comes to over gotos and empty statements: a unit with another statement, the end of
the body, or the same ones over and over. -/
inductive Outcome where
  | unit (u : UnitId)
  | exit
  | loop
deriving DecidableEq, Repr

/-- Where each step leads to one place, what comes behind a place on a cycle is on that cycle. -/
theorem cycle_of_reflTransGen {α : Type} {r : α → α → Prop} (hr : Relator.RightUnique r) {a z : α}
    (h : Relation.TransGen r a a) (hz : Relation.ReflTransGen r a z) : Relation.TransGen r z z := by
  induction hz with
  | refl => exact h
  | tail _ hstep ih =>
    obtain ⟨y, hy, hback⟩ := Relation.TransGen.head'_iff.1 ih
    obtain rfl := hr hy hstep
    exact .tail' hback hstep

namespace Body

def glide? (b : Body) (u : UnitId) : Option UnitId :=
  match b.stmt? u with
  | some (.goto t) => some t
  | some .nop => b.successor? u
  | _ => none

/-- What there is at a name from which control does not go on like that. Where no unit is, the body
is over. -/
def halt (b : Body) (u : UnitId) : Outcome :=
  match b.stmt? u with
  | none | some .nop => .exit
  | some _ => .unit u

/-- Follows control from `u` on, up to where it would pass a unit again. `fresh` holds the units not
passed yet. -/
def resolutionFrom (b : Body) (fresh : List UnitId) (u : UnitId) : Outcome :=
  match b.glide? u with
  | none => b.halt u
  | some z => if u ∈ fresh then b.resolutionFrom (fresh.erase u) z else .loop
termination_by fresh.length
decreasing_by
  have : 0 < fresh.length := List.length_pos_of_mem ‹_›
  simp only [List.length_erase_of_mem ‹u ∈ fresh›]
  omega

def resolution (b : Body) (u : UnitId) : Outcome := b.resolutionFrom b.ids u

def outcome (b : Body) : Option UnitId → Outcome
  | none => .exit
  | some u => b.resolution u

def Glides (b : Body) (u z : UnitId) : Prop := b.glide? u = some z

/-- Control that comes to `u` goes on to `z` over gotos and empty statements, and not from there. -/
def Settles (b : Body) (u z : UnitId) : Prop :=
  Relation.ReflTransGen b.Glides u z ∧ b.glide? z = none

def Circles (b : Body) (u : UnitId) : Prop :=
  ∃ z, Relation.ReflTransGen b.Glides u z ∧ Relation.TransGen b.Glides z z

variable {b c : Body} {u v w z : UnitId} {x : CodeUnit} {p : Nat}

theorem rightUnique_glides (b : Body) : Relator.RightUnique b.Glides :=
  fun _ _ _ h h' ↦ Option.some.inj (h.symm.trans h')

theorem Glides.mem_ids (h : b.Glides u z) : u ∈ b.ids := by
  cases hs : b.stmt? u with
  | none => simp [Glides, glide?, hs] at h
  | some s => exact mem_ids_of_stmt? hs

theorem GotoStep.glides (hn : b.ids.Nodup) (h : b.GotoStep u z) : b.Glides u z := by
  rw [Glides, glide?, (stmt?_eq_some hn).2 h]

theorem Settles.head (h : b.Glides u z) (hz : b.Settles z v) : b.Settles u v :=
  ⟨.head h hz.1, hz.2⟩

theorem Circles.head (h : b.Glides u z) (hz : b.Circles z) : b.Circles u := by
  obtain ⟨w, hw, hcycle⟩ := hz
  exact ⟨w, .head h hw, hcycle⟩

theorem halt_ne_loop (b : Body) (u : UnitId) : b.halt u ≠ .loop := by
  unfold halt
  split <;> simp

theorem Settles.unique (h : b.Settles u v) (h' : b.Settles u w) : v = w := by
  have hstop {y z : UnitId} (hy : b.glide? y = none) (hpath : Relation.ReflTransGen b.Glides y z) :
      y = z := by
    obtain rfl | ⟨y', hstep, -⟩ := hpath.cases_head
    · rfl
    · rw [Glides, hy] at hstep
      cases hstep
  obtain hvw | hwv := h.1.total_of_right_unique b.rightUnique_glides h'.1
  · exact hstop h.2 hvw
  · exact (hstop h'.2 hwv).symm

theorem Settles.not_circles (h : b.Settles u v) : ¬ b.Circles u := by
  intro hcircle
  obtain ⟨z, hz, hcycle⟩ := hcircle
  have hend : ¬ Relation.TransGen b.Glides v v := by
    intro hv
    obtain ⟨y, hy, -⟩ := Relation.TransGen.head'_iff.1 hv
    rw [Glides, h.2] at hy
    cases hy
  obtain hzv | hvz := hz.total_of_right_unique b.rightUnique_glides h.1
  · exact hend (cycle_of_reflTransGen b.rightUnique_glides hcycle hzv)
  · obtain rfl | ⟨y, hy, -⟩ := hvz.cases_head
    · exact hend hcycle
    · rw [Glides, h.2] at hy
      cases hy

theorem resolutionFrom_cases (fresh : List UnitId)
    (hpassed : ∀ x ∈ b.ids, x ∉ fresh → Relation.TransGen b.Glides x u) :
    (∃ v, b.Settles u v ∧ b.resolutionFrom fresh u = b.halt v) ∨
      (b.Circles u ∧ b.resolutionFrom fresh u = .loop) := by
  fun_induction resolutionFrom b fresh u with
  | case1 fresh u hnone => exact .inl ⟨u, ⟨.refl, hnone⟩, rfl⟩
  | case2 fresh u z hstep hfresh ih =>
    have hpassed' : ∀ x ∈ b.ids, x ∉ fresh.erase u → Relation.TransGen b.Glides x z := by
      intro x hx hgone
      by_cases he : x = u
      · exact he ▸ .single hstep
      · exact (hpassed x hx fun hm ↦ hgone ((List.mem_erase_of_ne he).2 hm)).tail hstep
    obtain ⟨v, hv, he⟩ | ⟨hcircle, he⟩ := ih hpassed'
    · exact .inl ⟨v, hv.head hstep, he⟩
    · exact .inr ⟨hcircle.head hstep, he⟩
  | case3 fresh u z hstep hfresh =>
    have hu : u ∈ b.ids := Glides.mem_ids hstep
    exact .inr ⟨⟨u, .refl, hpassed u hu hfresh⟩, rfl⟩

theorem resolution_cases (b : Body) (u : UnitId) :
    (∃ v, b.Settles u v ∧ b.resolution u = b.halt v) ∨ (b.Circles u ∧ b.resolution u = .loop) :=
  resolutionFrom_cases b.ids fun _ hx hgone ↦ absurd hx hgone

theorem Settles.resolution_eq (h : b.Settles u v) : b.resolution u = b.halt v := by
  obtain ⟨w, hw, he⟩ | ⟨hcircle, -⟩ := b.resolution_cases u
  · rw [he, h.unique hw]
  · exact absurd hcircle h.not_circles

theorem resolution_eq_loop_iff : b.resolution u = .loop ↔ b.Circles u := by
  obtain ⟨v, hv, he⟩ | ⟨hcircle, he⟩ := b.resolution_cases u
  · rw [he]
    exact iff_of_false (b.halt_ne_loop v) hv.not_circles
  · exact iff_of_true he hcircle

theorem resolution_of_glide? (h : b.glide? u = none) : b.resolution u = b.halt u :=
  Settles.resolution_eq ⟨.refl, h⟩

theorem resolution_eq_of_path (h : Relation.ReflTransGen b.Glides u z) :
    b.resolution u = b.resolution z := by
  obtain ⟨v, hv, he⟩ | ⟨⟨w, hw, hcycle⟩, he⟩ := b.resolution_cases z
  · rw [he]
    exact Settles.resolution_eq ⟨h.trans hv.1, hv.2⟩
  · rw [he, resolution_eq_loop_iff]
    exact ⟨w, h.trans hw, hcycle⟩

/-- Control ends up in `c` where it does in `b`, if each step in `c` stands for steps in `b`, and
control that stops in `c` comes to the same in `b`. Since each step stands for one at least, what
goes in a circle in `c` goes in a circle in `b`. -/
theorem resolution_eq_of_steps (inside : UnitId → Prop)
    (hstep : ∀ u z, inside u → c.Glides u z → inside z ∧ Relation.TransGen b.Glides u z)
    (hstop : ∀ u, inside u → c.glide? u = none → b.resolution u = c.halt u) (hu : inside u) :
    c.resolution u = b.resolution u := by
  have hpath {y z : UnitId} (hy : inside y) (h : Relation.ReflTransGen c.Glides y z) :
      inside z ∧ Relation.ReflTransGen b.Glides y z := by
    induction h with
    | refl => exact ⟨hy, .refl⟩
    | tail _ hlast ih =>
      obtain ⟨hz, hsteps⟩ := hstep _ _ ih.1 hlast
      exact ⟨hz, ih.2.trans hsteps.to_reflTransGen⟩
  obtain ⟨v, hv, he⟩ | ⟨⟨w, hw, hcycle⟩, he⟩ := c.resolution_cases u
  · obtain ⟨hinside, hbefore⟩ := hpath hu hv.1
    rw [he, resolution_eq_of_path hbefore, hstop v hinside hv.2]
  · obtain ⟨hinside, hbefore⟩ := hpath hu hw
    obtain ⟨y, hy, hback⟩ := Relation.TransGen.head'_iff.1 hcycle
    obtain ⟨hinside', hfirst⟩ := hstep _ _ hinside hy
    rw [he, eq_comm, resolution_eq_loop_iff]
    exact ⟨w, hbefore, hfirst.trans_left (hpath hinside' hback).2⟩

theorem resolution_congr (hg : ∀ u, c.glide? u = b.glide? u) (hh : ∀ u, c.halt u = b.halt u)
    (u : UnitId) : c.resolution u = b.resolution u := by
  apply resolution_eq_of_steps fun _ ↦ True
  · intro u z _ h
    exact ⟨trivial, .single ((hg u).symm.trans h)⟩
  · intro u _ h
    rw [resolution_of_glide? ((hg u).symm.trans h), hh]
  · trivial

section Removal

variable (hn : b.ids.Nodup) (hi : Idle (· = .nop) b p x)

include hn hi

/-- What referred to the unit refers, after its removal, to a unit that control comes to from it. -/
theorem Idle.path_heir (u : UnitId) : Relation.ReflTransGen b.Glides u (b.heir p u) := by
  have hid : b.ids[p]? = some x.id := id_of_unit hi.unit
  by_cases hu : u = x.id
  · subst hu
    cases hnext : b.ids[p + 1]? with
    | none =>
      have hunit : b.units[p + 1]? = none := by simpa [ids] using hnext
      simp [heir, hi.unit, hunit, Relation.ReflTransGen.refl]
    | some y =>
      rw [heir_self hid hnext]
      apply Relation.ReflTransGen.single
      cases hi with
      | skipped hp hs =>
        rw [Glides, glide?, (stmt?_eq_some hn).2 (List.mem_of_getElem? hp), hs]
        exact (successor?_of_getElem? hn hid).trans hnext
      | goto hp hq hs =>
        rw [Glides, glide?, (stmt?_eq_some hn).2 (List.mem_of_getElem? hp), hs]
        exact (id_of_unit hq).symm.trans hnext
  · rw [heir_of_ne hid hu]

theorem Idle.resolution_last (hlast : ¬ p + 1 < b.size) : b.resolution x.id = .exit := by
  have hid : b.ids[p]? = some x.id := id_of_unit hi.unit
  cases hi with
  | skipped hp hs =>
    have hstmt : b.stmt? x.id = some .nop := by
      rw [(stmt?_eq_some hn).2 (List.mem_of_getElem? hp), hs]
    have hnext : b.successor? x.id = none := by
      rw [successor?_of_getElem? hn hid, List.getElem?_eq_none_iff, length_ids]
      exact Nat.le_of_not_lt hlast
    rw [resolution_of_glide?]
    · rw [halt, hstmt]
    · rw [glide?, hstmt]
      exact hnext
  | goto _ hq _ => exact absurd (lt_size_of_getElem? (id_of_unit hq)) hlast

omit hi in
/-- What control would come to next is what it came to next, as far as it has not become the end of
the body. -/
theorem successor?_removeAt_cases (hp : b.units[p]? = some x) (hne : u ≠ x.id) :
    (b.removeAt p).successor? u = (b.successor? u).map (b.heir p) ∨
      (¬ p + 1 < b.size ∧ b.successor? u = some x.id ∧ (b.removeAt p).successor? u = none) := by
  by_cases hlast : b.successor? u = some x.id ∧ ¬ p + 1 < b.size
  · obtain ⟨hnext, hlast⟩ := hlast
    refine .inr ⟨hlast, hnext, ?_⟩
    obtain ⟨q, hq, hq'⟩ := (successor?_eq_some hn).1 hnext
    have hqp : q + 1 = p := index_unique hn hq' (id_of_unit hp)
    have hkept : (b.removeAt p).ids[q]? = some u := by
      rw [ids_removeAt, List.getElem?_eraseIdx_of_lt (by omega), hq]
    have hsize := size_removeAt (lt_size_of_getElem? (id_of_unit hp))
    rw [successor?_of_getElem? (nodup_removeAt hn p) hkept, List.getElem?_eq_none_iff, length_ids]
    omega
  · exact .inl (successor?_removeAt_eq hn hp (fun h ↦ not_not.1 (not_and.1 hlast h)) hne)

omit hi in
theorem glide?_removeAt_cases (hp : b.units[p]? = some x) (hne : u ≠ x.id) :
    ((b.removeAt p).glide? u = (b.glide? u).map (b.heir p) ∧
        (b.removeAt p).halt u = b.halt u) ∨
      (¬ p + 1 < b.size ∧ b.Glides u x.id ∧ (b.removeAt p).glide? u = none ∧
        (b.removeAt p).halt u = .exit) := by
  rw [Glides, glide?, glide?, halt, halt, stmt?_removeAt hn hp hne]
  cases b.stmt? u with
  | none => exact .inl ⟨rfl, rfl⟩
  | some s =>
    cases s with
    | nop =>
      obtain hnext | ⟨hlast, hnext, hend⟩ := successor?_removeAt_cases hn hp hne
      · exact .inl ⟨hnext, rfl⟩
      · exact .inr ⟨hlast, hnext, hend, rfl⟩
    | _ => exact .inl ⟨rfl, rfl⟩

theorem resolution_removeAt (hu : p + 1 < b.size → u ≠ x.id) :
    (b.removeAt p).resolution u = b.resolution u := by
  have hp := hi.unit
  have hid : b.ids[p]? = some x.id := id_of_unit hp
  have hgone : x.id ∉ (b.removeAt p).ids := fun hm ↦ ((mem_ids_removeAt hn hid).1 hm).2 rfl
  apply resolution_eq_of_steps fun u ↦ p + 1 < b.size → u ≠ x.id
  · intro u z _ hstep
    have hne : u ≠ x.id := by
      rintro rfl
      exact hgone hstep.mem_ids
    obtain ⟨hglide, -⟩ | ⟨-, -, hnone, -⟩ := glide?_removeAt_cases hn hp hne
    · obtain ⟨y, hy, rfl⟩ := Option.map_eq_some_iff.1 (hglide.symm.trans hstep)
      exact ⟨fun hlt ↦ heir_ne hn hid hlt y, .head' hy (hi.path_heir hn y)⟩
    · cases hnone.symm.trans hstep
  · intro u hu hstop
    by_cases hne : u = x.id
    · -- the unit was the last one, so its name stands for the end now
      subst hne
      have hlast : ¬ p + 1 < b.size := fun hlt ↦ hu hlt rfl
      rw [hi.resolution_last hn hlast, halt, stmt?_of_not_mem hgone]
    · obtain ⟨hglide, hhalt⟩ | ⟨hlast, hx, -, hexit⟩ := glide?_removeAt_cases hn hp hne
      · rw [hhalt, resolution_of_glide?]
        exact Option.map_eq_none_iff.1 (hglide.symm.trans hstop)
      · rw [hexit, resolution_eq_of_path (.single hx), hi.resolution_last hn hlast]
  · exact hu

end Removal

end Body

end ThreeAddress
