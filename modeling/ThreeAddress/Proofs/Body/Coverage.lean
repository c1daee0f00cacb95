import ThreeAddress.Proofs.Body.Replacement
import ThreeAddress.Proofs.Body.Tightness

namespace ThreeAddress

/-- Where a trap sends exceptions, and of which type. -/
def Trap.clause (t : Trap) : UnitId × Ty := (t.handler, t.exception)

namespace Body

variable {b c : Body} {f : UnitId → UnitId} {u v w : UnitId} {x : CodeUnit} {t : Trap}
  {p i j k : Nat}

/-- The traps that cover a unit, in trap order. -/
def around (b : Body) (u : UnitId) : List Trap :=
  b.traps.filter fun t ↦ (b.position? u).any (b.covers t)

/-- What the traps around a unit do, in trap order. -/
def clauses (b : Body) (u : UnitId) : List (UnitId × Ty) := (b.around u).map Trap.clause

/-- The unit lies between the two ends of the trap. -/
def Surrounds (b : Body) (t : Trap) (u : UnitId) : Prop :=
  ∃ i k j : Nat, b.ids[i]? = some t.first ∧ b.ids[k]? = some u ∧ b.ids[j]? = some t.last ∧
    i ≤ k ∧ k < j

theorem any_covers_iff (hn : b.ids.Nodup) :
    (b.position? u).any (b.covers t) = true ↔ b.Surrounds t u := by
  rw [Option.any_eq_true]
  constructor
  · rintro ⟨k, hk, hcovers⟩
    obtain ⟨i, j, hspan, hik, hkj⟩ := covers_iff.1 hcovers
    obtain ⟨hi, hj⟩ := (trapSpan?_eq_some hn).1 hspan
    exact ⟨i, k, j, hi, getElem?_of_position? hk, hj, hik, hkj⟩
  · rintro ⟨i, k, j, hi, hk, hj, hik, hkj⟩
    exact ⟨k, (position?_eq_some hn).2 hk,
      covers_iff.2 ⟨i, j, (trapSpan?_eq_some hn).2 ⟨hi, hj⟩, hik, hkj⟩⟩

theorem mem_around (hn : b.ids.Nodup) : t ∈ b.around u ↔ t ∈ b.traps ∧ b.Surrounds t u := by
  rw [around, List.mem_filter, any_covers_iff hn]

theorem Surrounds.mem_ids (h : b.Surrounds t u) : u ∈ b.ids := by
  obtain ⟨-, k, -, -, hk, -⟩ := h
  exact List.mem_of_getElem? hk

def within (b : Body) (t : Trap) : List UnitId :=
  b.ids.filter fun u ↦ (b.position? u).any (b.covers t)

theorem mem_within (hn : b.ids.Nodup) : u ∈ b.within t ↔ b.Surrounds t u := by
  rw [within, List.mem_filter, any_covers_iff hn]
  exact and_iff_right_of_imp Surrounds.mem_ids

theorem nodup_within (hn : b.ids.Nodup) : (b.within t).Nodup := hn.filter _

theorem surrounds_iff (hn : b.ids.Nodup) (hi : b.ids[i]? = some t.first)
    (hk : b.ids[k]? = some u) (hj : b.ids[j]? = some t.last) :
    b.Surrounds t u ↔ i ≤ k ∧ k < j := by
  constructor
  · rintro ⟨i', k', j', hi', hk', hj', hle⟩
    rwa [index_unique hn hi hi', index_unique hn hk hk', index_unique hn hj hj']
  · exact fun h ↦ ⟨i, k, j, hi, hk, hj, h⟩

theorem around_of_surrounds (hb : b.ids.Nodup) (hc : c.ids.Nodup)
    (ht : c.traps = b.traps.map (·.mapRefs f))
    (h : ∀ t ∈ b.traps, c.Surrounds (t.mapRefs f) v ↔ b.Surrounds t u) :
    c.around v = (b.around u).map (·.mapRefs f) := by
  rw [around, ht, List.filter_map, around]
  refine congrArg _ (List.filter_congr fun t htb ↦ ?_)
  rw [Bool.eq_iff_iff, Function.comp_apply, any_covers_iff hb, any_covers_iff hc]
  exact h t htb

theorem around_congr (hi : c.ids = b.ids) (ht : c.traps = b.traps) (u : UnitId) :
    c.around u = b.around u := by
  simp only [around, ht, position?_congr hi, covers_congr hi]

theorem around_filter (b : Body) (q : Trap → Bool) (u : UnitId) :
    Body.around { b with traps := b.traps.filter q } u = (b.around u).filter q :=
  List.filter_comm _ _ b.traps

theorem around_dropEmptyTraps (b : Body) (u : UnitId) : b.dropEmptyTraps.around u = b.around u := by
  refine (b.around_filter _ u).trans (List.filter_eq_self.2 fun t ht ↦ ?_)
  obtain ⟨p, -, hcovers⟩ := (Option.any_eq_true ..).1 (List.mem_filter.1 ht).2
  rw [isEmptyTrap_of_covers hcovers, Bool.not_false]

theorem clauses_dropEmptyTraps (b : Body) (u : UnitId) :
    b.dropEmptyTraps.clauses u = b.clauses u :=
  congrArg _ (b.around_dropEmptyTraps u)

theorem surrounds_removeAt (h : b.Coherent) (hp : b.ids[p]? = some u)
    (hr : b.isRemovable u = true) (hne : w ≠ u) (ht : t ∈ b.traps) :
    (b.removeAt p).Surrounds (t.mapRefs (b.heir p)) w ↔ b.Surrounds t w := by
  have hc : (b.removeAt p).ids.Nodup := nodup_removeAt h.nodup p
  by_cases hw : w ∈ b.ids
  · obtain ⟨k, hk, hkp⟩ := exists_position_of_ne hp hw hne
    obtain ⟨i, j, hi, hj, -⟩ := h.spans t ht
    have hends : u ∈ t.refs → p + 1 < b.size := (successor_of_referenced h.nodup hp hr).2 t ht
    have hi' := getElem?_heir h.nodup hp hi fun he ↦ hends (by simp [Trap.refs, he])
    have hj' := getElem?_heir h.nodup hp hj fun he ↦ hends (by simp [Trap.refs, he])
    have hk' := getElem?_heir h.nodup hp hk fun he ↦ absurd he hne
    rw [heir_of_ne hp hne] at hk'
    rw [surrounds_iff h.nodup hi hk hj, surrounds_iff hc hi' hk' hj']
    constructor
    · rintro ⟨hik, hkj⟩
      exact ⟨Nat.le_of_not_lt fun hki ↦ Nat.not_lt_of_le hik (slide_strict hki hkp),
        Nat.lt_of_not_le fun hjk ↦ Nat.not_lt_of_le (slide_mono hjk) hkj⟩
    · rintro ⟨hik, hkj⟩
      exact ⟨slide_mono hik, slide_strict hkj hkp⟩
  · exact ⟨fun hs ↦ absurd ((mem_ids_removeAt h.nodup hp).1 hs.mem_ids).1 hw,
      fun hs ↦ absurd hs.mem_ids hw⟩

theorem around_removeAt (h : b.Coherent) (hp : b.ids[p]? = some u)
    (hr : b.isRemovable u = true) (hne : w ≠ u) :
    (b.removeAt p).around w = (b.around w).map (·.mapRefs (b.heir p)) :=
  around_of_surrounds h.nodup (nodup_removeAt h.nodup p) (by rw [removeAt_eq])
    fun _ ht ↦ surrounds_removeAt h hp hr hne ht

namespace Replaced

variable {stmts : List Stmt}

theorem grow_strict_iff {m a z : Nat} (hm : 0 < m) : grow p m a < grow p m z ↔ a < z := by
  refine ⟨fun h ↦ Nat.lt_of_not_le fun hle ↦ ?_, grow_strict hm⟩
  obtain rfl | hlt := Nat.eq_or_lt_of_le hle
  · exact Nat.lt_irrefl _ h
  · exact Nat.lt_asymm h (grow_strict hm hlt)

theorem surrounds_old (h : b.Replaced u p stmts c) (hb : b.Coherent) (hc : c.ids.Nodup)
    (hw : w ∈ b.ids) (hne : w ≠ u) (ht : t ∈ b.traps) :
    c.Surrounds (t.mapRefs (rename u (b.fresh 0))) w ↔ b.Surrounds t w := by
  obtain ⟨k, hk⟩ := List.getElem?_of_mem hw
  obtain ⟨i, j, hi, hj, -⟩ := hb.spans t ht
  have hk' := h.getElem?_grow hb.nodup hk
  rw [rename, if_neg hne] at hk'
  rw [surrounds_iff hb.nodup hi hk hj, surrounds_iff hc (h.getElem?_grow hb.nodup hi) hk'
    (h.getElem?_grow hb.nodup hj), ← Nat.not_lt, grow_strict_iff h.nonempty,
    grow_strict_iff h.nonempty, Nat.not_lt]

/-- A trap covers the new units exactly if it covered the unit that they replace. -/
theorem surrounds_fresh (h : b.Replaced u p stmts c) (hb : b.Coherent) (hc : c.ids.Nodup)
    (hi : i < stmts.length) (ht : t ∈ b.traps) :
    c.Surrounds (t.mapRefs (rename u (b.fresh 0))) (b.fresh i) ↔ b.Surrounds t u := by
  obtain ⟨j, k, hj, hk, -⟩ := hb.spans t ht
  rw [surrounds_iff hb.nodup hj h.place hk, surrounds_iff hc (h.getElem?_grow hb.nodup hj)
    (h.getElem?_fresh hi) (h.getElem?_grow hb.nodup hk), grow, grow]
  split <;> split <;> omega

theorem around_old (h : b.Replaced u p stmts c) (hb : b.Coherent) (hc : c.ids.Nodup)
    (hw : w ∈ b.ids) (hne : w ≠ u) :
    c.around w = (b.around w).map (·.mapRefs (rename u (b.fresh 0))) :=
  around_of_surrounds hb.nodup hc h.traps
    fun _ ht ↦ h.surrounds_old hb hc hw hne ht

/-- The traps around the new units are those around the unit that they replace. -/
theorem around_fresh (h : b.Replaced u p stmts c) (hb : b.Coherent) (hc : c.ids.Nodup)
    (hi : i < stmts.length) :
    c.around (b.fresh i) = (b.around u).map (·.mapRefs (rename u (b.fresh 0))) :=
  around_of_surrounds hb.nodup hc h.traps
    fun _ ht ↦ h.surrounds_fresh hb hc hi ht

end Replaced

end Body

end ThreeAddress
