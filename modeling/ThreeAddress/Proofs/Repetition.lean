import Mathlib.Data.List.Induction
import Mathlib.Data.List.Nodup

namespace ThreeAddress

variable {α : Type} [BEq α] [LawfulBEq α] {l l' : List α} {a : α}

theorem eraseDups_concat (l : List α) (a : α) :
    (l ++ [a]).eraseDups = if a ∈ l then l.eraseDups else l.eraseDups ++ [a] := by
  rw [List.eraseDups_append]
  by_cases h : a ∈ l <;> simp [List.removeAll, List.eraseDups_cons, h]

theorem eraseDups_append_cons (h : a ∈ l) : (l ++ a :: l').eraseDups = (l ++ l').eraseDups := by
  rw [List.eraseDups_append, List.eraseDups_append]
  simp [List.removeAll, h]

theorem eraseDups_append_congr (h : l.eraseDups = l'.eraseDups) (rest : List α) :
    (l ++ rest).eraseDups = (l' ++ rest).eraseDups := by
  have hmem (z : α) : z ∈ l ↔ z ∈ l' := by rw [← List.mem_eraseDups, h, List.mem_eraseDups]
  have hrest : rest.removeAll l = rest.removeAll l' :=
    List.filter_congr fun z _ ↦ by simp [hmem z]
  rw [List.eraseDups_append, List.eraseDups_append, h, hrest]

theorem eraseDups_sublist (l : List α) : l.eraseDups.Sublist l := by
  induction l using List.reverseRecOn with
  | nil => simp
  | append_singleton l a ih =>
    rw [eraseDups_concat]
    split
    · exact ih.trans (List.sublist_append_left l [a])
    · exact ih.append_right [a]

theorem nodup_eraseDups (l : List α) : l.eraseDups.Nodup := by
  induction l using List.reverseRecOn with
  | nil => simp
  | append_singleton l a ih =>
    rw [eraseDups_concat]
    split
    · exact ih
    · next h =>
      refine ih.append (List.nodup_singleton a) ?_
      simpa [List.disjoint_singleton] using h

theorem eraseDups_eq_self_iff : l.eraseDups = l ↔ l.Nodup := by
  refine ⟨fun h ↦ h ▸ nodup_eraseDups l, fun h ↦ ?_⟩
  induction l using List.reverseRecOn with
  | nil => rfl
  | append_singleton l a ih =>
    obtain ⟨hl, -, hdisjoint⟩ := List.nodup_append.1 h
    have ha : a ∉ l := fun hmem ↦ hdisjoint a hmem a (List.mem_singleton_self a) rfl
    rw [eraseDups_concat, if_neg ha, ih hl]

end ThreeAddress
