import Mathlib.Order.Bounds.Basic
import ThreeAddress.Proofs.Overloads
import ThreeAddress.Proofs.Pass.Locals

namespace ThreeAddress

namespace LocalNames

variable {taken : List String} {name : String} {start start' m n p : Nat} {l : Local}
  {ls ls' : List Local} {n? : Option Nat} {ns : List (Option Nat)}

def namesBefore (ls : List Local) (p : Nat) : List String := (ls.take p).map (·.name)

def givenBefore (ns : List (Option Nat)) (p : Nat) : List Nat := (ns.take p).filterMap id

def renumber (l : Local) : Option Nat → Local
  | none => l
  | some n => { l with name := numbered l.name n }

/-- The numbers from `start` on that exceed those given and do not make a name that is taken. -/
def freeNumbers (start : Nat) (given : List Nat) (taken : List String) (name : String) : Set Nat :=
  {k | (start ≤ k ∧ ∀ m ∈ given, m < k) ∧ numbered name k ∉ taken}

/-- The locals `ls'` are the locals `ls`, with a number from `start` on behind each name that is
taken or is one of an earlier local of `ls'`. -/
structure Renaming (taken : List String) (start : Nat) (ls ls' : List Local)
    (ns : List (Option Nat)) : Prop where
  length : ns.length = ls.length
  locals : ls' = ls.zipWith renumber ns
  kept : ∀ p l, ls[p]? = some l → (ns[p]? = some none ↔ l.name ∉ taken ++ namesBefore ls' p)
  least : ∀ p l n, ls[p]? = some l → ns[p]? = some (some n) →
    IsLeast (freeNumbers start (givenBefore ns p) (taken ++ namesBefore ls' p) l.name) n

theorem freeNumber_least (taken : List String) (name : String) (start : Nat) :
    IsLeast (freeNumbers start [] taken name) (freeNumber taken name start) := by
  obtain ⟨hfree, hmem, hleast⟩ := List.find?_range'_eq_some.1 (find?_eq_freeNumber taken name start)
  constructor
  · exact ⟨⟨(List.mem_range'_1.1 hmem).1, by simp⟩, by simpa using hfree⟩
  · intro k hk
    by_contra hlt
    exact hk.2 (by simpa using hleast k hk.1.1 (by omega))

theorem mem_namesBefore_cons {s : String} :
    s ∈ taken ++ namesBefore (l :: ls) (p + 1) ↔ s ∈ (l.name :: taken) ++ namesBefore ls p := by
  simp only [namesBefore, List.take_succ_cons, List.map_cons, List.mem_append, List.mem_cons]
  tauto

theorem freeNumbers_cons (hstart : ∀ k, start' ≤ k ↔ start ≤ k ∧ ∀ n ∈ n?, n < k) :
    freeNumbers start (givenBefore (n? :: ns) (p + 1)) (taken ++ namesBefore (l :: ls) (p + 1))
        name =
      freeNumbers start' (givenBefore ns p) ((l.name :: taken) ++ namesBefore ls p) name := by
  have hgiven : givenBefore (n? :: ns) (p + 1) = n?.toList ++ givenBefore ns p := by
    cases n? <;> simp [givenBefore]
  ext k
  refine and_congr ?_ (not_congr mem_namesBefore_cons)
  rw [hstart, hgiven]
  simp only [List.mem_append, Option.mem_toList, or_imp, forall_and, and_assoc, Option.mem_def]

theorem Renaming.cons (hkept : n? = none ↔ l.name ∉ taken)
    (hleast : ∀ n ∈ n?, IsLeast (freeNumbers start [] taken l.name) n)
    (hstart : ∀ k, start' ≤ k ↔ start ≤ k ∧ ∀ n ∈ n?, n < k)
    (h : Renaming ((renumber l n?).name :: taken) start' ls ls' ns) :
    Renaming taken start (l :: ls) (renumber l n? :: ls') (n? :: ns) where
  length := by simp [h.length]
  locals := by simp [h.locals]
  kept := by
    intro p l' hl'
    cases p with
    | zero =>
      obtain rfl : l = l' := by simpa using hl'
      simpa [namesBefore] using hkept
    | succ p =>
      rw [mem_namesBefore_cons]
      exact h.kept p l' hl'
  least := by
    intro p l' n hl' hn
    cases p with
    | zero =>
      obtain rfl : l = l' := by simpa using hl'
      simpa [namesBefore, givenBefore] using hleast n (by simpa using hn)
    | succ p =>
      rw [freeNumbers_cons hstart]
      exact h.least p l' n hl' hn

theorem renaming_disambiguate (taken : List String) (start : Nat) (ls : List Local) :
    ∃ ns, Renaming taken start ls (disambiguate taken start ls).1 ns := by
  fun_induction disambiguate taken start ls with
  | case1 => exact ⟨[], by simp, by simp, by simp, by simp⟩
  | case2 taken start l ls hl n name ls' notes he ih =>
    rw [he] at ih
    obtain ⟨ns, hns⟩ := ih
    have hleast := freeNumber_least taken l.name start
    have hkept : some n = none ↔ l.name ∉ taken := by simpa using hl
    refine ⟨some n :: ns, Renaming.cons hkept ?_ ?_ hns⟩
    · intro k hk
      obtain rfl := Option.some.inj hk
      exact hleast
    · intro k
      have hn : start ≤ n := hleast.1.1.1
      simp only [Option.mem_def, Option.some.injEq, forall_eq']
      omega
  | case3 taken start l ls hl ls' notes he ih =>
    rw [he] at ih
    obtain ⟨ns, hns⟩ := ih
    have hkept : (none : Option Nat) = none ↔ l.name ∉ taken := by simpa using hl
    exact ⟨none :: ns, Renaming.cons hkept (by simp) (by simp) hns⟩

theorem eq_of_numbered_eq {x y : String} (h : numbered x m = numbered y n) : m = n := by
  have hdigits : ∀ k : Nat, '_' ∉ (Nat.repr k).toList.reverse := by simp [Nat.repr]
  have hlist := congrArg (fun s ↦ s.toList.reverse) h
  simp only [numbered, String.toList_append, List.reverse_append] at hlist
  obtain ⟨hrepr, -⟩ := (Text.cut_inj (hdigits m) (hdigits n)).1 hlist
  have hrepr : Nat.repr m = Nat.repr n := String.toList_inj.1 (List.reverse_injective hrepr)
  have hnumbered : numbered x m = numbered x n := congrArg (x ++ "_" ++ ·) hrepr
  exact numbered_inj.1 hnumbered

theorem mem_givenBefore : m ∈ givenBefore ns p ↔ ∃ q < p, ns[q]? = some (some m) := by
  rw [givenBefore, List.mem_filterMap]
  simp only [id_eq, exists_eq_right]
  rw [List.mem_iff_getElem?]
  simp only [List.getElem?_take, Option.ite_none_right_eq_some]

theorem namesBefore_mono {q : Nat} (h : p ≤ q) : namesBefore ls p ⊆ namesBefore ls q :=
  List.map_subset _ (List.take_prefix_take_left h).subset

namespace Renaming

variable (h : Renaming [] 0 ls ls' ns)
include h

theorem exists_local (hn : ns[p]? = some n?) : ∃ l, ls[p]? = some l := by
  have hp := (List.getElem?_eq_some_iff.1 hn).1
  rw [h.length] at hp
  exact ⟨ls[p], List.getElem?_eq_getElem hp⟩

theorem increasing : (ns.filterMap id).Pairwise (· < ·) := by
  rw [List.pairwise_filterMap, List.pairwise_iff_getElem]
  intro p q hp hq hlt m hm n hn
  have hm : ns[p]? = some (some m) := by simpa [List.getElem?_eq_getElem hp] using hm
  have hn : ns[q]? = some (some n) := by simpa [List.getElem?_eq_getElem hq] using hn
  obtain ⟨l, hl⟩ := h.exists_local hn
  exact (h.least q l n hl hn).1.1.2 m (mem_givenBefore.2 ⟨p, hlt, hm⟩)

/-- Each number up to the one that a local gets stands behind the name of that local or of an
earlier one. -/
theorem exists_numbered (hn : ns[p]? = some (some n)) :
    ∀ k ≤ n, ∃ x, numbered x k ∈ namesBefore ls' (p + 1) := by
  induction p using Nat.strong_induction_on generalizing n with
  | h p ih =>
    intro k hk
    obtain ⟨l, hl⟩ := h.exists_local hn
    have hleast := h.least p l n hl hn
    by_cases heq : k = n
    · refine ⟨l.name, List.mem_map.2 ⟨renumber l (some n), ?_, by rw [heq]; rfl⟩⟩
      refine List.mem_of_getElem? (i := p) ?_
      simp [h.locals, List.getElem?_zipWith, hl, hn]
    · have hbelow : k ∉ freeNumbers 0 (givenBefore ns p) ([] ++ namesBefore ls' p) l.name :=
        fun hfree ↦ absurd (hleast.2 hfree) (by omega)
      by_cases hgiven : ∀ m ∈ givenBefore ns p, m < k
      · have htaken : numbered l.name k ∈ namesBefore ls' p := by
          by_contra hfree
          exact hbelow ⟨⟨Nat.zero_le k, hgiven⟩, hfree⟩
        exact ⟨l.name, namesBefore_mono (Nat.le_succ p) htaken⟩
      · push Not at hgiven
        obtain ⟨m, hm, hkm⟩ := hgiven
        obtain ⟨q, hq, hm⟩ := mem_givenBefore.1 hm
        obtain ⟨x, hx⟩ := ih q hq hm k hkm
        exact ⟨x, namesBefore_mono (by omega) hx⟩

/-- The number of a local is at most its position, since each number makes a name of its own. -/
theorem le_position (hn : ns[p]? = some (some n)) : n ≤ p := by
  choose! x hx using h.exists_numbered hn
  have hsub : (List.range (n + 1)).map (fun k ↦ numbered (x k) k) ⊆ namesBefore ls' (p + 1) := by
    intro s hs
    obtain ⟨k, hk, rfl⟩ := List.mem_map.1 hs
    exact hx k (Nat.lt_succ_iff.1 (List.mem_range.1 hk))
  have hnodup : ((List.range (n + 1)).map fun k ↦ numbered (x k) k).Nodup :=
    List.Nodup.map (fun _ _ he ↦ eq_of_numbered_eq he) List.nodup_range
  have hle := hnodup.length_le_of_subset hsub
  rw [List.length_map, List.length_range, namesBefore, List.length_map] at hle
  have htake := List.length_take_le (p + 1) ls'
  omega

end Renaming

theorem types_disambiguate (taken : List String) (start : Nat) (ls : List Local) :
    (disambiguate taken start ls).1.map (fun l ↦ (l.id, l.ty)) = ls.map fun l ↦ (l.id, l.ty) := by
  fun_induction disambiguate taken start ls <;> simp_all

/-- Names that are distinct and not taken stay, whatever names come after them. -/
theorem prefix_disambiguate (taken : List String) (start : Nat) (ls rest : List Local)
    (hn : (ls.map (·.name)).Nodup) (ht : ∀ l ∈ ls, l.name ∉ taken) :
    ls <+: (disambiguate taken start (ls ++ rest)).1 := by
  induction ls generalizing taken with
  | nil => exact List.nil_prefix
  | cons l ls ih =>
    rw [List.map_cons, List.nodup_cons] at hn
    have hl : l.name ∉ taken := ht l List.mem_cons_self
    have hls : ∀ l' ∈ ls, l'.name ∉ l.name :: taken := by
      intro l' hl' hm
      obtain he | hm := List.mem_cons.1 hm
      · exact hn.1 (he ▸ List.mem_map_of_mem hl')
      · exact ht l' (List.mem_cons_of_mem l hl') hm
    simpa [disambiguate, hl] using ih (l.name :: taken) hn.2 hls

theorem disambiguate_of_nodup (hn : (ls.map (·.name)).Nodup) : disambiguate [] 0 ls = (ls, []) := by
  have hlength : (disambiguate [] 0 ls).1.length = ls.length := by
    simpa using congrArg List.length (ids_disambiguate [] 0 ls)
  have hpre : ls <+: (disambiguate [] 0 ls).1 := by
    simpa using prefix_disambiguate [] 0 ls [] hn (by simp)
  have hlocals := (hpre.eq_of_length hlength.symm).symm
  exact Prod.ext hlocals ((notes_disambiguate [] 0 ls).1.2 hlocals)

theorem revise_of_nodup {b : Body} (hn : (b.locals.map (·.name)).Nodup) :
    revise b = ⟨b, [], false⟩ := by
  rw [revise_eq, disambiguate_of_nodup hn]
  rfl

/-- The pass changes names and nothing else. The names that result are distinct, and each is the old
one unless an earlier local bears that. If so, the old name is followed by a number: the least one
above all given before it whose name is free. It is no greater than the position of the local.
Another run of the pass changes nothing. -/
theorem locals_renamed (m : Signature) (b : Body) :
    ∃ b' changed ns, (Pass.localNames.run m b).body = b' ∧
      (Pass.localNames.run m b).result = .ok changed ∧
      b' = { b with locals := b'.locals } ∧
      b'.locals.map (fun l ↦ (l.id, l.ty)) = b.locals.map (fun l ↦ (l.id, l.ty)) ∧
      (b'.locals.map (·.name)).Nodup ∧
      Renaming [] 0 b.locals b'.locals ns ∧
      (ns.filterMap id).Pairwise (· < ·) ∧
      (∀ p n : Nat, ns[p]? = some (some n) → n ≤ p) ∧
      (Pass.localNames.run m b').result = .ok false ∧ (Pass.localNames.run m b').body = b' := by
  obtain ⟨ns, hns⟩ := renaming_disambiguate [] 0 b.locals
  have hagain : revise (revise b).body = ⟨(revise b).body, [], false⟩ :=
    revise_of_nodup (nodup_revise b)
  have hresult := congrArg (fun r : Revision ↦ r.finish.result) hagain
  have hbody := congrArg Revision.body hagain
  exact ⟨(revise b).body, _, ns, rfl, rfl, rfl, types_disambiguate [] 0 b.locals, nodup_revise b,
    hns, hns.increasing, fun p n hn ↦ hns.le_position hn, hresult, hbody⟩

/-- A name that was made up displaces a later one that had it from the start. -/
example :
    (disambiguate [] 0 [⟨⟨0⟩, "x", .int⟩, ⟨⟨1⟩, "x", .long⟩, ⟨⟨2⟩, "x_0", .int⟩]).1.map (·.name) =
      ["x", "x_0", "x_0_1"] := by
  cbv

end LocalNames

end ThreeAddress
