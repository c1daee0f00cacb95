import Mathlib.Data.List.Induction
import ThreeAddress.Fragment.Merge
import ThreeAddress.Proofs.Body.Edits
import ThreeAddress.Proofs.Lookup
import ThreeAddress.Proofs.Slots

namespace ThreeAddress

namespace UnitId

variable {n : Nat} {u v : UnitId}

/-- The identity stays one when it moves up so far. -/
def Fits (n : Nat) (u : UnitId) : Prop := u.index + n < idCount

instance (n : Nat) (u : UnitId) : Decidable (u.Fits n) :=
  inferInstanceAs (Decidable (u.index + n < idCount))

theorem shift_eq (h : u.Fits n) : u.shift n = ⟨u.index + n⟩ := congrArg mk (wrapId_of_lt h)

theorem le_index_shift (h : u.Fits n) : n ≤ (u.shift n).index := by
  rw [shift_eq h]
  exact Nat.le_add_left n u.index

theorem shift_inj (hu : u.Fits n) (hv : v.Fits n) : u.shift n = v.shift n ↔ u = v := by
  rw [shift_eq hu, shift_eq hv]
  cases u
  cases v
  simp

end UnitId

theorem Stmt.retarget?_eq {target : UnitId} {s s' : Stmt} (h : s.retarget? target = some s') :
    s' = s.mapTargets fun _ ↦ target := by
  unfold retarget? at h
  split at h <;> cases h <;> rfl

def Stmt.IsJump (s : Stmt) : Prop :=
  ∀ target, s.retarget? target = some (s.mapTargets fun _ ↦ target)

theorem Stmt.isJump_of_retarget? {target : UnitId} {s s' : Stmt}
    (h : s.retarget? target = some s') : s.IsJump := by
  cases s with
  | goto | branch => exact fun _ ↦ rfl
  | _ => cases h

theorem Stmt.IsJump.ne_identity {s : Stmt} (h : s.IsJump) (y : LocalId) (source : Input) :
    s ≠ .identity y source := by
  rintro rfl
  exact absurd (h ⟨0⟩) (by simp [retarget?])

theorem Stmt.IsJump.mapTargets {s : Stmt} (h : s.IsJump) (r : UnitId → UnitId) :
    (s.mapTargets r).IsJump := by
  cases s with
  | goto | branch => exact fun _ ↦ rfl
  | _ => exact absurd (h ⟨0⟩) (by simp [retarget?])

/-- Where the jumps point a unit: the last of them that names it and whose label marks a unit
counts. -/
def aim? (labels : List (String × UnitId)) (jumps : List OpenJump) (u : UnitId) : Option UnitId :=
  jumps.reverse.findSome? fun x ↦ if x.unit = u then labels.lookup x.label else none

variable {labels : List (String × UnitId)} {jumps : List OpenJump} {x : OpenJump} {u : UnitId}

theorem aim?_append (jumps' : List OpenJump) :
    aim? labels (jumps ++ jumps') u = (aim? labels jumps' u).or (aim? labels jumps u) := by
  rw [aim?, List.reverse_append, List.findSome?_append, aim?, aim?]

theorem aim?_singleton :
    aim? labels [x] u = if x.unit = u then labels.lookup x.label else none := by
  rw [aim?, List.reverse_singleton, List.findSome?_singleton]

theorem aim?_cons : aim? labels (x :: jumps) u =
    (aim? labels jumps u).or (if x.unit = u then labels.lookup x.label else none) := by
  rw [← List.singleton_append, aim?_append, aim?_singleton]

theorem aim?_eq_none (h : ∀ x ∈ jumps, x.unit ≠ u) : aim? labels jumps u = none := by
  rw [aim?, List.findSome?_eq_none_iff]
  exact fun x hx ↦ if_neg (h x (List.mem_reverse.1 hx))

namespace CodeUnit

variable {v : CodeUnit}

/-- The unit with the open jumps that name it resolved. -/
def aimed (labels : List (String × UnitId)) (jumps : List OpenJump) (v : CodeUnit) : CodeUnit :=
  v.mapStmt fun s ↦ s.mapTargets fun t ↦ (aim? labels jumps v.id).getD t

theorem aimed_eq_self (h : ∀ x ∈ jumps, x.unit ≠ v.id) : v.aimed labels jumps = v := by
  simp [aimed, aim?_eq_none h, mapStmt]

end CodeUnit

namespace Fragment

variable {f : Fragment} {n : Nat} {v : CodeUnit}

/-- The units of the fragment, and those that its open jumps name, stay apart from lower ones when
they move up so far. -/
structure Fits (f : Fragment) (n : Nat) : Prop where
  units : ∀ v ∈ f.units, v.id.Fits n
  openJumps : ∀ x ∈ f.openJumps, x.unit.Fits n

theorem aim?_shift (hf : f.Fits n) (hu : u.Fits n) :
    aim? (f.shift n).labels (f.shift n).openJumps (u.shift n) =
      (aim? f.labels f.openJumps u).map (.shift n) := by
  have hlookup (x : OpenJump) : (f.shift n).labels.lookup x.label =
      (f.labels.lookup x.label).map (.shift n) := lookup_map_value ..
  have hjumps := hf.openJumps
  change aim? _ (f.openJumps.map fun x ↦ { x with unit := x.unit.shift n }) _ = _
  generalize f.openJumps = jumps at hjumps ⊢
  induction jumps with
  | nil => rfl
  | cons x jumps ih =>
    obtain ⟨hx, hjumps⟩ := List.forall_mem_cons.1 hjumps
    rw [List.map_cons, aim?_cons, ih hjumps, aim?_cons, hlookup]
    simp only [UnitId.shift_inj hx hu]
    split <;> cases aim? f.labels jumps u <;> rfl

theorem ids_shift (f : Fragment) (n : Nat) :
    (f.shift n).units.map (·.id) = (f.units.map (·.id)).map (.shift n) := by
  simp [shift]

theorem nodup_shift (hf : f.Fits n) :
    ((f.shift n).units.map (·.id)).Nodup ↔ (f.units.map (·.id)).Nodup := by
  rw [ids_shift]
  refine ⟨List.Nodup.of_map _, List.Nodup.map_on fun u hu v hv he ↦ ?_⟩
  obtain ⟨w, hw, rfl⟩ := List.mem_map.1 hu
  obtain ⟨w', hw', rfl⟩ := List.mem_map.1 hv
  exact (UnitId.shift_inj (hf.units w hw) (hf.units w' hw')).1 he

/-- The unit once merged: the open jumps that name it are resolved, and it moves up. -/
def copy (f : Fragment) (n : Nat) (v : CodeUnit) : CodeUnit where
  id := v.id.shift n
  stmt := (v.aimed f.labels f.openJumps).stmt.mapTargets (.shift n)

theorem aimed_shift (hf : f.Fits n) (hv : v ∈ f.units) :
    CodeUnit.aimed (f.shift n).labels (f.shift n).openJumps
      ⟨v.id.shift n, v.stmt.mapTargets (.shift n)⟩ = f.copy n v := by
  rw [CodeUnit.aimed, copy, CodeUnit.aimed, CodeUnit.mapStmt, CodeUnit.mk.injEq,
    aim?_shift hf (hf.units v hv), Stmt.mapTargets_mapTargets, CodeUnit.mapStmt,
    Stmt.mapTargets_mapTargets]
  refine ⟨rfl, Stmt.mapTargets_congr fun t _ ↦ ?_⟩
  cases aim? f.labels f.openJumps v.id <;> simp

end Fragment

namespace Body

variable {b c : Body} {f : Fragment}

/-- The locals that come to be declared: those of an identity that is neither declared nor that of
an earlier one. -/
def newLocals (b : Body) (ls : List Local) : List Local :=
  (ls.zipIdx.filter fun (l, i) ↦ !b.declares l.id && !(ls.take i).any (·.id == l.id)).map (·.1)

theorem newLocals_concat (ls : List Local) (l : Local) : b.newLocals (ls ++ [l]) =
    b.newLocals ls ++ if b.declares l.id || ls.any (·.id == l.id) then [] else [l] := by
  have hold : ∀ x ∈ ls.zipIdx, (!b.declares x.1.id && !((ls ++ [l]).take x.2).any (·.id == x.1.id)) =
      (!b.declares x.1.id && !(ls.take x.2).any (·.id == x.1.id)) := by
    intro x hx
    rw [List.take_append_of_le_length]
    exact Nat.le_of_lt (List.snd_lt_of_mem_zipIdx hx)
  rw [newLocals, List.zipIdx_append, List.filter_append, List.map_append, newLocals,
    List.filter_congr hold]
  congr 1
  cases hd : b.declares l.id <;> cases ha : ls.any (·.id == l.id) <;> simp_all

theorem declares_newLocals (ls : List Local) (y : LocalId) :
    (b.declares y || (b.newLocals ls).any (·.id == y)) =
      (b.declares y || ls.any (·.id == y)) := by
  induction ls using List.reverseRecOn with
  | nil => simp [newLocals]
  | append_singleton ls l ih =>
    rw [newLocals_concat, List.any_append, List.any_append, ← Bool.or_assoc, ← Bool.or_assoc, ih]
    split
    · next hl =>
      by_cases hy : l.id = y
      · simpa [hy] using hl
      · simp [hy]
    · rfl

theorem declareLocals_eq (b : Body) (ls : List Local) :
    ls.foldl declareLocal b = { b with locals := b.locals ++ b.newLocals ls } := by
  induction ls using List.reverseRecOn with
  | nil => simp [newLocals]
  | append_singleton ls l ih =>
    have hd : Body.declares { b with locals := b.locals ++ b.newLocals ls } l.id =
        (b.declares l.id || ls.any (·.id == l.id)) := by
      rw [← declares_newLocals, declares, List.any_append]
      rfl
    rw [List.foldl_append, ih, List.foldl_cons, List.foldl_nil, declareLocal, hd, newLocals_concat]
    split <;> simp

theorem pushTraps_eq (b : Body) (ts : List Trap) :
    ts.foldl pushTrap b = { b with traps := b.traps ++ ts } := by
  induction ts generalizing b with
  | nil => simp
  | cons t ts ih => simp [ih, pushTrap]

variable {us : List CodeUnit}

theorem append_fst_eq_none : (b.append us).1 = none ↔
    (us.map (·.id)).Nodup ∧ ∀ v ∈ us, v.id ∉ b.ids := by
  induction us generalizing b with
  | nil => simp [append]
  | cons v us ih =>
    rw [append]
    split
    · next hv =>
      have hv : v.id ∈ b.ids := hasUnit_iff.1 hv
      simp [hv]
    · next hv =>
      have hv : v.id ∉ b.ids := fun h ↦ hv (hasUnit_iff.2 h)
      have hids (b' : Body) (h : b'.units = b.units ++ [v]) : b'.ids = b.ids ++ [v.id] := by
        simp [ids, h]
      rw [ih, hids _ rfl]
      simp only [List.mem_append, List.mem_singleton, not_or, List.map_cons, List.nodup_cons,
        List.forall_mem_cons, List.mem_map, not_exists, not_and]
      constructor
      · intro h
        exact ⟨⟨fun w hw ↦ (h.2 w hw).2, h.1⟩, hv, fun w hw ↦ (h.2 w hw).1⟩
      · intro h
        exact ⟨h.1.2, fun w hw ↦ ⟨h.2.2 w hw, h.1.1 w hw⟩⟩

theorem units_append (h : (b.append us).1 = none) : (b.append us).2.units = b.units ++ us := by
  induction us generalizing b with
  | nil => simp [append]
  | cons v us ih =>
    rw [append] at h ⊢
    split at h
    · cases h
    · next hv =>
      rw [if_neg hv, ih h, List.append_assoc, List.singleton_append]

theorem traps_append (b : Body) (us : List CodeUnit) : (b.append us).2.traps = b.traps := by
  fun_induction append b us with
  | case1 | case2 => rfl
  | case3 _ _ _ _ ih => exact ih

def Single (b : Body) (u : UnitId) : Prop :=
  ∀ v ∈ b.units, ∀ w ∈ b.units, v.id = u → w.id = u → v = w

theorem Single.setStmt (h : b.Single u) (z : UnitId) (s : Stmt) : (b.setStmt z s).Single u := by
  intro v hv w hw hvu hwu
  obtain ⟨v', hv', rfl⟩ := List.mem_map.1 hv
  obtain ⟨w', hw', rfl⟩ := List.mem_map.1 hw
  have hid (y : CodeUnit) : (if y.id = z then { y with stmt := s } else y).id = y.id := by
    split <;> rfl
  rw [h v' hv' w' hw' ((hid v').symm.trans hvu) ((hid w').symm.trans hwu)]

def aimed (b : Body) (labels : List (String × UnitId)) (jumps : List OpenJump) : Body :=
  { b with units := b.units.map (·.aimed labels jumps) }

theorem aimed_nil (b : Body) : b.aimed labels [] = b := by
  have hunits : b.units.map (·.aimed labels []) = b.units :=
    map_eq_self_iff.2 fun v _ ↦ CodeUnit.aimed_eq_self (by simp)
  rw [aimed, hunits]

theorem aimed_setStmt {s : Stmt} {target : UnitId} (hone : b.Single x.unit)
    (hs : b.stmt? x.unit = some s) (ht : labels.lookup x.label = some target) :
    (b.setStmt x.unit (s.mapTargets fun _ ↦ target)).aimed labels jumps =
      b.aimed labels (x :: jumps) := by
  obtain ⟨v, hv, hvx, rfl⟩ := exists_unit_of_stmt? hs
  simp only [aimed, setStmt, List.map_map, Body.mk.injEq, and_true, true_and]
  refine List.map_congr_left fun w hw ↦ ?_
  by_cases hwx : w.id = x.unit
  · obtain rfl := hone v hv w hw hvx hwx
    rw [Function.comp_apply, if_pos hwx, CodeUnit.aimed, CodeUnit.aimed, aim?_cons,
      if_pos hwx.symm, ht]
    cases aim? labels jumps v.id <;> simp [CodeUnit.mapStmt, Function.comp_def]
  · rw [Function.comp_apply, if_neg hwx, CodeUnit.aimed, CodeUnit.aimed, aim?_cons,
      if_neg (Ne.symm hwx), Option.or_none]

theorem resolve_cons (h : b.resolve labels (x :: jumps) = .ok c) : ∃ s target,
    b.stmt? x.unit = some s ∧ s.IsJump ∧ labels.lookup x.label = some target ∧
      (b.setStmt x.unit (s.mapTargets fun _ ↦ target)).resolve labels jumps = .ok c := by
  unfold resolve at h
  split at h
  · cases h
  · next target ht =>
    split at h
    · cases h
    · next s hs =>
      split at h
      · cases h
      · next s' hs' =>
        obtain rfl := Stmt.retarget?_eq hs'
        exact ⟨s, target, hs, Stmt.isJump_of_retarget? hs', ht, h⟩

theorem resolve_eq (hone : ∀ x ∈ jumps, b.Single x.unit) (h : b.resolve labels jumps = .ok c) :
    c = b.aimed labels jumps := by
  induction jumps generalizing b with
  | nil =>
    cases h
    rw [aimed_nil]
  | cons x jumps ih =>
    obtain ⟨s, target, hs, -, ht, hnext⟩ := resolve_cons h
    rw [ih (fun y hy ↦ (hone y (List.mem_cons_of_mem x hy)).setStmt _ _) hnext,
      aimed_setStmt (hone x List.mem_cons_self) hs ht]

theorem stmt?_of_single {v : CodeUnit} (h : b.Single v.id) (hv : v ∈ b.units) :
    b.stmt? v.id = some v.stmt := by
  cases hs : b.stmt? v.id with
  | none => exact absurd (List.find?_eq_none.1 (Option.map_eq_none_iff.1 hs) v hv) (by simp)
  | some s =>
    obtain ⟨w, hw, he, rfl⟩ := exists_unit_of_stmt? hs
    rw [h w hw v hv he rfl]

theorem resolve_of_jumps (labels : List (String × UnitId))
    (hj : ∀ x ∈ jumps, ∃ s, b.stmt? x.unit = some s ∧ s.IsJump) :
    match jumps.find? (labels.lookup ·.label = none) with
    | some x => b.resolve labels jumps = .error (.unresolvedLabel x.label)
    | none => ∃ c, b.resolve labels jumps = .ok c := by
  induction jumps generalizing b with
  | nil => exact ⟨b, rfl⟩
  | cons x jumps ih =>
    obtain ⟨s, hs, hjump⟩ := hj x List.mem_cons_self
    -- the first label without a unit ends it, and no jump met before then can
    cases ht : labels.lookup x.label with
    | none => simp [ht, resolve]
    | some target =>
      have hnext : b.resolve labels (x :: jumps) =
          (b.setStmt x.unit (s.mapTargets fun _ ↦ target)).resolve labels jumps := by
        rw [resolve, ht, hs]
        simp only [hjump target]
      rw [List.find?_cons_of_neg (by simp [ht]), hnext]
      refine ih fun y hy ↦ ?_
      obtain ⟨s', hs', hjump'⟩ := hj y (List.mem_cons_of_mem x hy)
      rw [stmt?_setStmt, hs']
      split
      · exact ⟨_, rfl, hjump.mapTargets _⟩
      · exact ⟨s', rfl, hjump'⟩

/-- The body with the fragment behind it as it is, its jumps still open. -/
def attach (b : Body) (f : Fragment) : Body :=
  f.traps.foldl pushTrap ((f.locals.foldl declareLocal b).append f.units).2

theorem locals_attach (b : Body) (f : Fragment) :
    (b.attach f).locals = b.locals ++ b.newLocals f.locals := by
  rw [attach, pushTraps_eq, declareLocals_eq]
  exact locals_append _ f.units

theorem traps_attach (b : Body) (f : Fragment) : (b.attach f).traps = b.traps ++ f.traps := by
  rw [attach, pushTraps_eq, traps_append, declareLocals_eq]

variable (hb : b.Bounded) (hfit : f.Fits b.nextUnit)
include hb hfit

theorem append_shift_eq_none :
    ((f.locals.foldl declareLocal b).append (f.shift b.nextUnit).units).1 = none ↔
      (f.units.map (·.id)).Nodup := by
  rw [append_fst_eq_none, Fragment.nodup_shift hfit, declareLocals_eq]
  refine and_iff_left fun v hv hold ↦ ?_
  have hlow : v.id.index < b.nextUnit := hb v.id hold
  obtain ⟨w, hw, rfl⟩ := List.mem_map.1 hv
  exact absurd hlow (Nat.not_lt_of_le (UnitId.le_index_shift (hfit.units w hw)))

theorem units_attach (hf : (f.units.map (·.id)).Nodup) :
    (b.attach (f.shift b.nextUnit)).units = b.units ++ (f.shift b.nextUnit).units := by
  rw [attach, pushTraps_eq]
  refine (units_append ((append_shift_eq_none hb hfit).2 hf)).trans ?_
  rw [declareLocals_eq]

theorem merge_eq_resolve (hf : (f.units.map (·.id)).Nodup) : b.merge f =
    (b.attach (f.shift b.nextUnit)).resolve (f.shift b.nextUnit).labels
      (f.shift b.nextUnit).openJumps := by
  have hnone := (append_shift_eq_none hb hfit).2 hf
  unfold merge
  dsimp only
  split
  · next e d hd =>
    rw [show (f.shift b.nextUnit).locals = f.locals from rfl] at hd
    simp [hd] at hnone
  · next d hd =>
    rw [attach, hd]

theorem nodup_of_merge (h : b.merge f = .ok c) : (f.units.map (·.id)).Nodup := by
  refine (append_shift_eq_none hb hfit).1 ?_
  unfold merge at h
  dsimp only at h
  split at h
  · cases h
  · next d hd => exact congrArg Prod.fst hd

theorem single_attach (hf : (f.units.map (·.id)).Nodup) (hu : b.nextUnit ≤ u.index) :
    (b.attach (f.shift b.nextUnit)).Single u := by
  have hmem (v : CodeUnit) (hv : v ∈ (b.attach (f.shift b.nextUnit)).units) (hvu : v.id = u) :
      v ∈ (f.shift b.nextUnit).units := by
    rw [units_attach hb hfit hf] at hv
    refine (List.mem_append.1 hv).resolve_left fun hv ↦ ?_
    exact Nat.not_lt_of_le hu (hvu ▸ hb v.id (id_mem_ids hv))
  intro v hv w hw hvu hwu
  exact List.inj_on_of_nodup_map ((Fragment.nodup_shift hfit).2 hf) (hmem v hv hvu)
    (hmem w hw hwu) (hvu.trans hwu.symm)

omit hb in
theorem le_index_of_mem_openJumps (hx : x ∈ (f.shift b.nextUnit).openJumps) :
    b.nextUnit ≤ x.unit.index := by
  obtain ⟨y, hy, rfl⟩ := List.mem_map.1 hx
  exact UnitId.le_index_shift (hfit.openJumps y hy)

theorem merge_eq_aimed (h : b.merge f = .ok c) :
    c = (b.attach (f.shift b.nextUnit)).aimed (f.shift b.nextUnit).labels
      (f.shift b.nextUnit).openJumps := by
  have hf := nodup_of_merge hb hfit h
  rw [merge_eq_resolve hb hfit hf] at h
  exact resolve_eq (fun x hx ↦ single_attach hb hfit hf (le_index_of_mem_openJumps hfit hx)) h

theorem units_merge (h : b.merge f = .ok c) :
    c.units = b.units ++ f.units.map (f.copy b.nextUnit) := by
  have hold : b.units.map (·.aimed (f.shift b.nextUnit).labels (f.shift b.nextUnit).openJumps) =
      b.units := by
    refine map_eq_self_iff.2 fun v hv ↦ CodeUnit.aimed_eq_self fun x hx he ↦ ?_
    have hlow : v.id.index < b.nextUnit := hb v.id (id_mem_ids hv)
    exact Nat.not_lt_of_le (le_index_of_mem_openJumps hfit hx) (he ▸ hlow)
  have hnew : (f.shift b.nextUnit).units.map
      (·.aimed (f.shift b.nextUnit).labels (f.shift b.nextUnit).openJumps) =
      f.units.map (f.copy b.nextUnit) :=
    List.map_map.trans (List.map_congr_left fun v hv ↦ Fragment.aimed_shift hfit hv)
  rw [← hold, ← hnew, ← List.map_append, ← units_attach hb hfit (nodup_of_merge hb hfit h),
    merge_eq_aimed hb hfit h, aimed]

omit hb hfit

/-- The body with the fragment behind it: nothing of the body changes, and the fragment moves up
alike in all that it names. -/
structure Embeds (b : Body) (f : Fragment) (c : Body) : Prop where
  units : c.units = b.units ++ f.units.map (f.copy b.nextUnit)
  /-- A unit that no open jump names keeps its targets, moved up. -/
  fixed : ∀ v ∈ f.units, (∀ x ∈ f.openJumps, x.unit ≠ v.id) →
    f.copy b.nextUnit v = ⟨v.id.shift b.nextUnit, v.stmt.mapTargets (.shift b.nextUnit)⟩
  /-- What names no unit of the fragment does not come to name one, unless it moves past the last
  identity. -/
  strangers : ∀ t, t.Fits b.nextUnit → t ∉ f.units.map (·.id) → t.shift b.nextUnit ∉ c.ids
  nodup : c.ids.Nodup
  traps : c.traps = b.traps ++ f.traps.map (·.mapRefs (.shift b.nextUnit))
  locals : c.locals = b.locals ++ b.newLocals f.locals

end Body

end ThreeAddress
