import Mathlib.Data.List.Nodup
import ThreeAddress.Pass.LocalNames
import ThreeAddress.Pass.LocalPacking
import ThreeAddress.Pass.UnusedLocals
import ThreeAddress.Proofs.Candor
import ThreeAddress.Proofs.Readiness

namespace ThreeAddress

namespace UnusedLocals

variable {b : Body}

theorem declared_revise (hb : b.Valid) {x : LocalId} :
    x ∈ (revise b).body.locals.map (·.id) ↔ x ∈ b.mentioned := by
  simp only [revise, List.mem_map, List.mem_filter, List.contains_iff_mem]
  constructor
  · intro h
    obtain ⟨l, ⟨-, hm⟩, rfl⟩ := h
    exact hm
  · intro h
    obtain ⟨l, hl, rfl⟩ := List.mem_map.1 (hb.declared_of_mentioned h)
    exact ⟨l, ⟨hl, h⟩, rfl⟩

theorem restated_revise (b : Body) : Body.Restated b (revise b).body := .of_units rfl rfl rfl

theorem ready_revise (hb : b.Ready) : (revise b).body.Ready :=
  (restated_revise b).ready hb fun u hu _ hx ↦
    (declared_revise hb.valid).2 (Body.mem_mentioned.2 ⟨u, hu, hx⟩)

theorem candid_revise (b : Body) : (revise b).Candid b := by
  have hall : (revise b).changed = false ↔ ∀ l ∈ b.locals, l.id ∈ b.mentioned := by
    simp [revise, List.length_filter_eq_length_iff]
  have hnotes : (revise b).notes = [] ↔ ∀ l ∈ b.locals, l.id ∈ b.mentioned := by
    simp [revise, List.filter_eq_nil_iff]
  have hbody : (revise b).body = b ↔ ∀ l ∈ b.locals, l.id ∈ b.mentioned := by
    constructor
    · intro he
      have hl : (b.locals.filter fun l ↦ b.mentioned.contains l.id) = b.locals :=
        congrArg Body.locals he
      simpa using List.filter_eq_self.1 hl
    · intro hm
      have hl : (b.locals.filter fun l ↦ b.mentioned.contains l.id) = b.locals :=
        List.filter_eq_self.2 (by simpa using hm)
      simp only [revise, hl]
  refine ⟨?_, ?_, ?_⟩
  · intro n hn
    obtain ⟨l, -, rfl⟩ := List.mem_map.1 hn
    rfl
  · rw [← Bool.not_eq_false, not_iff_not, hall, hnotes]
  · rw [← Bool.not_eq_false, not_iff_not, hall, hbody]

end UnusedLocals

namespace LocalNames

variable {taken : List String} {name : String} {start m n : Nat} {ls : List Local}

theorem numbered_inj : numbered name m = numbered name n ↔ m = n := by
  refine ⟨fun h ↦ ?_, congrArg _⟩
  have hs : Nat.repr m = Nat.repr n := (String.append_right_inj (name ++ "_")).1 h
  have hd := congrArg (fun s ↦ Nat.ofDigitChars 10 s.toList 0) hs
  simpa [Nat.repr, Nat.ofDigitChars_ten_toDigits] using hd

theorem numbered_ne : numbered name n ≠ name := by
  intro h
  have hl := congrArg String.length h
  have hbar : "_".length = 1 := rfl
  simp only [numbered, String.length_append, hbar] at hl
  omega

theorem find?_eq_freeNumber (taken : List String) (name : String) (start : Nat) :
    (List.range' start (taken.length + 1)).find? (fun n ↦ !taken.contains (numbered name n)) =
      some (freeNumber taken name start) := by
  unfold freeNumber
  cases hf : (List.range' start (taken.length + 1)).find?
      fun n ↦ !taken.contains (numbered name n) with
  | some n => rfl
  | none =>
    have hsub : (List.range' start (taken.length + 1)).map (numbered name) ⊆ taken := by
      intro s hs
      obtain ⟨n, hn, rfl⟩ := List.mem_map.1 hs
      simpa using List.find?_eq_none.1 hf n hn
    have hnodup : ((List.range' start (taken.length + 1)).map (numbered name)).Nodup :=
      List.Nodup.map (fun _ _ h ↦ numbered_inj.1 h) List.nodup_range'
    have hle := hnodup.length_le_of_subset hsub
    rw [List.length_map, List.length_range'] at hle
    omega

theorem freeNumber_fresh (taken : List String) (name : String) (start : Nat) :
    numbered name (freeNumber taken name start) ∉ taken := by
  simpa using List.find?_some (find?_eq_freeNumber taken name start)

theorem ids_disambiguate (taken : List String) (start : Nat) (ls : List Local) :
    (disambiguate taken start ls).1.map (·.id) = ls.map (·.id) := by
  fun_induction disambiguate taken start ls <;> simp_all

theorem nodup_cons {l : Local} (hl : l.name ∉ taken)
    (hls : (ls.map (·.name)).Nodup ∧ ∀ l' ∈ ls, l'.name ∉ l.name :: taken) :
    ((l :: ls).map (·.name)).Nodup ∧ ∀ l' ∈ l :: ls, l'.name ∉ taken := by
  obtain ⟨hn, hfresh⟩ := hls
  constructor
  · rw [List.map_cons, List.nodup_cons]
    refine ⟨fun hm ↦ ?_, hn⟩
    obtain ⟨l', hl', hname⟩ := List.mem_map.1 hm
    exact hfresh l' hl' (by simp [hname])
  · intro l' hl' ht
    rcases List.mem_cons.1 hl' with rfl | hl'
    · exact hl ht
    · exact hfresh l' hl' (List.mem_cons_of_mem _ ht)

theorem nodup_disambiguate (taken : List String) (start : Nat) (ls : List Local) :
    ((disambiguate taken start ls).1.map (·.name)).Nodup ∧
      ∀ l ∈ (disambiguate taken start ls).1, l.name ∉ taken := by
  fun_induction disambiguate taken start ls with
  | case1 => simp
  | case2 taken start l ls hl n name ls' notes he ih =>
    rw [he] at ih
    exact nodup_cons (l := { l with name }) (freeNumber_fresh taken l.name start) ih
  | case3 taken start l ls hl ls' notes he ih =>
    rw [he] at ih
    exact nodup_cons (by simpa using hl) ih

theorem notes_disambiguate (taken : List String) (start : Nat) (ls : List Local) :
    ((disambiguate taken start ls).2 = [] ↔ (disambiguate taken start ls).1 = ls) ∧
      ∀ n ∈ (disambiguate taken start ls).2, n.kind.isChange = true := by
  fun_induction disambiguate taken start ls with
  | case1 => simp
  | case2 taken start l ls hl n name ls' notes he ih =>
    rw [he] at ih
    refine ⟨?_, ?_⟩
    · simp only [reduceCtorEq, List.cons.injEq, false_iff, not_and]
      intro hname
      exact absurd (congrArg Local.name hname) numbered_ne
    · intro n hn
      rcases List.mem_cons.1 hn with rfl | hn
      · rfl
      · exact ih.2 n hn
  | case3 taken start l ls hl ls' notes he ih =>
    rw [he] at ih
    simpa using ih

variable {b : Body}

theorem revise_eq (b : Body) : revise b = (⟨b, [], false⟩ : Revision).withNotes
    { b with locals := (disambiguate [] 0 b.locals).1 } (disambiguate [] 0 b.locals).2 := rfl

theorem nodup_revise (b : Body) : ((revise b).body.locals.map (·.name)).Nodup :=
  (nodup_disambiguate [] 0 b.locals).1

theorem ids_revise (b : Body) : (revise b).body.locals.map (·.id) = b.locals.map (·.id) :=
  ids_disambiguate [] 0 b.locals

theorem valid_revise (hb : b.Valid) : (revise b).body.Valid := by
  refine hb.restate rfl rfl hb.targets ?_
  rw [ids_revise]
  exact hb.declared

theorem candid_revise (b : Body) : (revise b).Candid b := by
  obtain ⟨hnone, hkinds⟩ := notes_disambiguate [] 0 b.locals
  rw [revise_eq]
  refine ⟨?_, ?_, ?_⟩
  · simpa [Revision.withNotes] using hkinds
  · simp [Revision.withNotes]
  · have hbody : ({ b with locals := (disambiguate [] 0 b.locals).1 } : Body) = b ↔
        (disambiguate [] 0 b.locals).1 = b.locals :=
      ⟨congrArg Body.locals, fun hl ↦ by rw [hl]⟩
    simp only [Revision.withNotes, Bool.false_or, Bool.not_eq_true', List.isEmpty_eq_false_iff, ne_eq]
    rw [hnone, hbody]

end LocalNames

namespace LocalPacking

variable {pairs : List (LocalId × LocalId)} {known : List LocalId} {l : Local} {b : Body}
  {x y : LocalId}

theorem forall_place {P Q : Sharing → Prop} (hnew : Q ⟨l.id, l.ty, [l.id]⟩)
    (hjoin : ∀ g : Sharing, g.admits pairs l = true → P g →
      Q { g with members := g.members ++ [l.id] })
    (hkeep : ∀ g, P g → Q g) (gs : List Sharing) (h : ∀ g ∈ gs, P g) :
    ∀ g ∈ place pairs l gs, Q g := by
  induction gs with
  | nil => simpa [place] using hnew
  | cons g gs ih =>
    have hg := h g List.mem_cons_self
    have hgs : ∀ g' ∈ gs, P g' := fun g' hg' ↦ h g' (List.mem_cons_of_mem _ hg')
    intro g' hg'
    unfold place at hg'
    split at hg'
    · next hadmits =>
      rcases List.mem_cons.1 hg' with rfl | hg'
      · exact hjoin g hadmits hg
      · exact hkeep g' (hgs g' hg')
    · rcases List.mem_cons.1 hg' with rfl | hg'
      · exact hkeep g' hg
      · exact ih hgs g' hg'

structure Sharing.Sound (known : List LocalId) (g : Sharing) : Prop where
  head : g.members.head? = some g.representative
  known : g.members ⊆ known

theorem sound_foldl (ls : List Local) (hk : ls.map (·.id) ⊆ known) (gs : List Sharing)
    (h : ∀ g ∈ gs, g.Sound known) :
    ∀ g ∈ ls.foldl (fun gs l ↦ place pairs l gs) gs, g.Sound known := by
  induction ls generalizing gs with
  | nil => exact h
  | cons l ls ih =>
    rw [List.map_cons, List.cons_subset] at hk
    refine ih hk.2 _ (forall_place ?_ ?_ (fun _ hg ↦ hg) gs h)
    · exact ⟨rfl, by simpa using hk.1⟩
    · intro g _ hg
      exact ⟨by simp [List.head?_append, hg.head], List.append_subset.2 ⟨hg.known, by simpa using hk.1⟩⟩

structure Sharing.Distinct (later : List LocalId) (g : Sharing) : Prop where
  nodup : g.members.Nodup
  past : ∀ x ∈ g.members, x ∉ later

theorem distinct_foldl (ls : List Local) (hn : (ls.map (·.id)).Nodup) (gs : List Sharing)
    (h : ∀ g ∈ gs, g.Distinct (ls.map (·.id))) :
    ∀ g ∈ ls.foldl (fun gs l ↦ place pairs l gs) gs, g.Distinct [] := by
  induction ls generalizing gs with
  | nil => exact h
  | cons l ls ih =>
    rw [List.map_cons, List.nodup_cons] at hn
    obtain ⟨hl, hn⟩ := hn
    have hpast : ∀ g : Sharing, g.Distinct (l.id :: ls.map (·.id)) →
        ∀ x ∈ g.members, x ∉ ls.map (·.id) :=
      fun g hg x hx ht ↦ hg.past x hx (List.mem_cons_of_mem _ ht)
    refine ih hn _ (forall_place ?_ ?_ (fun g hg ↦ ⟨hg.nodup, hpast g hg⟩) gs h)
    · exact ⟨List.nodup_singleton _, by simpa using hl⟩
    · intro g _ hg
      constructor
      · refine List.nodup_append.2 ⟨hg.nodup, List.nodup_singleton _, ?_⟩
        intro x hx y hy he
        obtain rfl := List.mem_singleton.1 hy
        exact hg.past x hx (he ▸ List.mem_cons_self)
      · intro x hx
        rcases List.mem_append.1 hx with hx | hx
        · exact hpast g hg x hx
        · rwa [List.mem_singleton.1 hx]

def groups (b : Body) : List Sharing :=
  (candidates b).foldl (fun gs l ↦ place (conflicts b) l gs) []

theorem mentioned_of_mem_candidates (h : x ∈ (candidates b).map (·.id)) : x ∈ b.mentioned := by
  obtain ⟨l, hl, rfl⟩ := List.mem_map.1 h
  have ht := (List.mem_filter.1 hl).2
  rw [Bool.and_eq_true] at ht
  exact List.contains_iff_mem.1 ht.2

theorem sound_groups (b : Body) : ∀ g ∈ groups b, g.Sound ((candidates b).map (·.id)) :=
  sound_foldl _ (List.Subset.refl _) [] (by simp)

theorem distinct_groups (hn : (b.locals.map (·.id)).Nodup) : ∀ g ∈ groups b, g.Distinct [] := by
  have hsub : ((candidates b).map (·.id)).Sublist (b.locals.map (·.id)) := List.filter_sublist.map _
  exact distinct_foldl _ (hsub.nodup hn) [] (by simp)

/-- The local has joined a group of that representative. -/
def Joined (gs : List Sharing) (x y : LocalId) : Prop :=
  ∃ g ∈ gs, x ∈ g.members.drop 1 ∧ g.representative = y

theorem Joined.place {gs : List Sharing} (h : Joined gs x y) : Joined (place pairs l gs) x y := by
  induction gs with
  | nil =>
    obtain ⟨g, hg, -⟩ := h
    cases hg
  | cons g gs ih =>
    obtain ⟨g', hg', hx, hy⟩ := h
    unfold LocalPacking.place
    obtain rfl | hg' := List.mem_cons.1 hg'
    · split
      · refine ⟨_, List.mem_cons_self, ?_, hy⟩
        rw [List.drop_append]
        exact List.mem_append_left _ hx
      · exact ⟨g', List.mem_cons_self, hx, hy⟩
    · split
      · exact ⟨g', List.mem_cons_of_mem _ hg', hx, hy⟩
      · obtain ⟨g₁, hg₁, hrest⟩ := ih ⟨g', hg', hx, hy⟩
        exact ⟨g₁, List.mem_cons_of_mem _ hg₁, hrest⟩

theorem Joined.foldl {gs : List Sharing} (h : Joined gs x y) (ls : List Local) :
    Joined (ls.foldl (fun gs l ↦ LocalPacking.place pairs l gs) gs) x y := by
  induction ls generalizing gs with
  | nil => exact h
  | cons l ls ih => exact ih h.place

theorem joined_host {gs : List Sharing} (hgs : ∀ g ∈ gs, g.Sound known)
    (h : host? pairs l gs = some y) : Joined (place pairs l gs) l.id y := by
  obtain ⟨g₀, hfind, rfl⟩ := Option.map_eq_some_iff.1 h
  clear h
  induction gs with
  | nil => cases hfind
  | cons g gs ih =>
    unfold place
    rw [List.find?_cons] at hfind
    split at hfind
    · next hadmits =>
      obtain rfl := Option.some.inj hfind
      obtain ⟨rest, hrest⟩ := List.head?_eq_some_iff.1 (hgs g List.mem_cons_self).head
      rw [if_pos hadmits]
      exact ⟨_, List.mem_cons_self, by simp [hrest], rfl⟩
    · next hadmits =>
      obtain ⟨g₁, hg₁, hjoined⟩ := ih (fun g hg ↦ hgs g (List.mem_cons_of_mem _ hg)) hfind
      rw [if_neg (by simp [hadmits])]
      exact ⟨g₁, List.mem_cons_of_mem _ hg₁, hjoined⟩

theorem joined_of_joins (ls : List Local) (hk : ls.map (·.id) ⊆ known) (gs : List Sharing)
    (hgs : ∀ g ∈ gs, g.Sound known) (h : (x, y) ∈ joins pairs gs ls) :
    Joined (ls.foldl (fun gs l ↦ place pairs l gs) gs) x y := by
  induction ls generalizing gs with
  | nil => cases h
  | cons l ls ih =>
    have hk' : ls.map (·.id) ⊆ known := (List.cons_subset.1 hk).2
    have hplaced : ∀ g ∈ place pairs l gs, g.Sound known :=
      sound_foldl [l] (by simpa using (List.cons_subset.1 hk).1) gs hgs
    have hlater := ih hk' _ hplaced
    rw [joins] at h
    split at h
    · exact hlater h
    · obtain h | h := List.mem_append.1 h
      · obtain ⟨r, hr, he⟩ := Option.map_eq_some_iff.1 (Option.mem_toList.1 h)
        cases he
        exact (joined_host hgs hr).foldl ls
      · exact hlater h

theorem joined_of_mapping (h : (x, y) ∈ mapping b) : Joined (groups b) x y :=
  joined_of_joins _ (List.Subset.refl _) [] (by simp) h

theorem candidates_of_mapping (h : (x, y) ∈ mapping b) :
    x ∈ (candidates b).map (·.id) ∧ y ∈ (candidates b).map (·.id) := by
  obtain ⟨g, hg, hx, rfl⟩ := joined_of_mapping h
  have hs := sound_groups b g hg
  exact ⟨hs.known (List.mem_of_mem_drop hx), hs.known (List.mem_of_head? hs.head)⟩

theorem ne_of_mapping (hn : (b.locals.map (·.id)).Nodup) (h : (x, y) ∈ mapping b) :
    x ≠ y := by
  obtain ⟨g, hg, hx, rfl⟩ := joined_of_mapping h
  obtain ⟨rest, hr⟩ := List.head?_eq_some_iff.1 (sound_groups b g hg).head
  have hd := (distinct_groups hn g hg).nodup
  rw [hr, List.nodup_cons] at hd
  rw [hr, List.drop_one, List.tail_cons] at hx
  intro he
  exact hd.1 (he ▸ hx)

def stand (b : Body) (x : LocalId) : LocalId := ((mapping b).lookup x).getD x

theorem stand_eq (b : Body) (x : LocalId) :
    stand b x = x ∨ (x, stand b x) ∈ mapping b := by
  unfold stand
  cases hy : (mapping b).lookup x with
  | none => exact .inl rfl
  | some y =>
    obtain ⟨l₁, l₂, he, -⟩ := List.lookup_eq_some_iff.1 hy
    exact .inr (by simp [he])

theorem body_revise (b : Body) : (revise b).body = b.mapStmts (·.mapLocals (stand b)) := rfl

theorem restated_revise (b : Body) : Body.Restated b (revise b).body := by
  rw [body_revise]
  refine .mapStmts fun s ↦ ⟨Stmt.targets_mapLocals s _, Stmt.fallsThrough_mapLocals s _, ?_⟩
  rintro rfl
  rfl

theorem ready_revise (hb : b.Ready) : (revise b).body.Ready := by
  refine (restated_revise b).ready hb ?_
  rw [body_revise]
  intro w hw x hx
  obtain ⟨u, hu, rfl⟩ := List.mem_map.1 hw
  rw [CodeUnit.stmt_mapStmt, Stmt.locals_mapLocals] at hx
  obtain ⟨y, hy, rfl⟩ := List.mem_map.1 hx
  rcases stand_eq b y with he | hm
  · rw [he]
    exact hb.valid.declared u hu y hy
  · have hc := mentioned_of_mem_candidates (candidates_of_mapping hm).2
    exact hb.valid.declared_of_mentioned hc

theorem body_revise_eq_self (hn : (b.locals.map (·.id)).Nodup) :
    (revise b).body = b ↔ mapping b = [] := by
  rw [body_revise]
  constructor
  · intro he
    by_contra hne
    obtain ⟨⟨x, y⟩, rest, hp⟩ := List.exists_cons_of_ne_nil hne
    have hm : (x, y) ∈ mapping b := by simp [hp]
    have hx := mentioned_of_mem_candidates (candidates_of_mapping hm).1
    obtain ⟨u, hu, hx⟩ := Body.mem_mentioned.1 hx
    have hunit := map_eq_self_iff.1 (congrArg Body.units he) u hu
    have hlocals : u.stmt.locals.map (stand b) = u.stmt.locals := by
      rw [← Stmt.locals_mapLocals]
      exact congrArg (fun w : CodeUnit ↦ w.stmt.locals) hunit
    have hfix : y = x := by simpa [stand, hp] using map_eq_self_iff.1 hlocals x hx
    exact ne_of_mapping hn hm hfix.symm
  · intro hp
    have hid : stand b = fun x ↦ x := by
      funext x
      simp [stand, hp]
    simp [Body.mapStmts, hid, CodeUnit.mapStmt]

theorem candid_revise (hn : (b.locals.map (·.id)).Nodup) : (revise b).Candid b := by
  have hchanged : (revise b).changed = true ↔ mapping b ≠ [] := by simp [revise]
  have hnotes : (revise b).notes = [] ↔ mapping b = [] := by
    rw [← List.length_eq_zero_iff, ← List.length_eq_zero_iff]
    simp [revise]
  refine ⟨?_, ?_, ?_⟩
  · intro n hn
    obtain ⟨q, -, rfl⟩ := List.mem_map.1 hn
    rfl
  · rw [hchanged, Ne, Ne, hnotes]
  · rw [hchanged, Ne, Ne, body_revise_eq_self hn]

end LocalPacking

namespace Pass

theorem unusedLocals_carries : unusedLocals.Carries Body.Ready Body.Ready :=
  fun _ _ hb ↦ ⟨⟨_, rfl⟩, UnusedLocals.ready_revise hb⟩

theorem unusedLocals_candid : unusedLocals.Candid :=
  fun _ b _ _ ↦ (UnusedLocals.candid_revise b).finish

theorem unusedLocals_addsNoUnits : unusedLocals.AddsNoUnits :=
  fun _ b _ ↦ (UnusedLocals.restated_revise b).noFresh

theorem localNames_carries : localNames.Carries Body.Valid Body.Valid :=
  fun _ _ hb ↦ ⟨⟨_, rfl⟩, LocalNames.valid_revise hb⟩

theorem localNames_candid : localNames.Candid :=
  fun _ b _ _ ↦ (LocalNames.candid_revise b).finish

theorem localPacking_carries : localPacking.Carries Body.Ready Body.Ready :=
  fun _ _ hb ↦ ⟨⟨_, rfl⟩, LocalPacking.ready_revise hb⟩

theorem localPacking_candid : localPacking.Candid :=
  fun _ _ _ hn ↦ (LocalPacking.candid_revise hn).finish

theorem localPacking_addsNoUnits : localPacking.AddsNoUnits :=
  fun _ b _ ↦ (LocalPacking.restated_revise b).noFresh

end Pass

end ThreeAddress
