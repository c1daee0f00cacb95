namespace ThreeAddress

namespace FactSet

/-- A set of facts is a number: the facts are numbered, and those whose bit is set belong to it. -/
def ofList (facts : List Nat) : Nat := facts.foldl (fun s i ↦ s ||| 1 <<< i) 0

def union (sets : List Nat) : Nat := sets.foldl (· ||| ·) 0

theorem testBit_foldl_or (sets : List Nat) (s : Nat) (i : Nat) :
    (sets.foldl (· ||| ·) s).testBit i = (s.testBit i || sets.any (·.testBit i)) := by
  induction sets generalizing s with
  | nil => simp
  | cons t sets ih => rw [List.foldl_cons, ih, Nat.testBit_or, List.any_cons, Bool.or_assoc]

@[simp] theorem testBit_union {β : Type} (l : List β) (set : β → Nat) (i : Nat) :
    (union (l.map set)).testBit i = true ↔ ∃ a ∈ l, (set a).testBit i = true := by
  rw [union, testBit_foldl_or, Nat.zero_testBit, Bool.false_or, List.any_map, List.any_eq_true]
  rfl

@[simp] theorem testBit_ofList (facts : List Nat) (i : Nat) :
    (ofList facts).testBit i = true ↔ i ∈ facts := by
  have he : ofList facts = union (facts.map (1 <<< ·)) := by
    rw [ofList, union, List.foldl_map]
  rw [he, testBit_union]
  simp only [Nat.one_shiftLeft, Nat.testBit_two_pow, decide_eq_true_eq]
  exact ⟨fun ⟨j, hj, hi⟩ ↦ hi ▸ hj, fun hi ↦ ⟨i, hi, rfl⟩⟩

def table (size : Nat) (facts : Nat → List Nat) : List Nat :=
  (List.range size).map fun p ↦ ofList (facts p)

theorem testBit_table {size : Nat} {facts : Nat → List Nat} {p i : Nat} :
    ((table size facts).getD p 0).testBit i = true ↔ p < size ∧ i ∈ facts p := by
  rw [table, List.getD_eq_getElem?_getD, List.getElem?_map]
  by_cases hp : p < size
  · rw [List.getElem?_range hp, Option.map_some, Option.getD_some, testBit_ofList]
    exact (and_iff_right hp).symm
  · rw [List.getElem?_eq_none (by simpa using hp)]
    simp [hp]

def pick {β : Type} (s : Nat) (l : List β) : List β :=
  l.zipIdx.filterMap fun (a, i) ↦ if s.testBit i then some a else none

end FactSet

structure Facts where
  entry : Nat := 0
  exit : Nat := 0
deriving Repr

namespace Facts

structure Below (r s : Facts) : Prop where
  entry : ∀ i, r.entry.testBit i = true → s.entry.testBit i = true
  exit : ∀ i, r.exit.testBit i = true → s.exit.testBit i = true

structure Within (width : Nat) (r : Facts) : Prop where
  entry : ∀ i, r.entry.testBit i = true → i < width
  exit : ∀ i, r.exit.testBit i = true → i < width

def differ (r s : Facts) : Bool := r.entry != s.entry || r.exit != s.exit

def room (width : Nat) (r : Facts) : Nat := (1 <<< width - r.entry) + (1 <<< width - r.exit)

variable {width : Nat} {r s t : Facts}

theorem Below.refl (r : Facts) : r.Below r := ⟨fun _ h ↦ h, fun _ h ↦ h⟩

theorem Below.trans (h : r.Below s) (h' : s.Below t) : r.Below t :=
  ⟨fun i hi ↦ h'.entry i (h.entry i hi), fun i hi ↦ h'.exit i (h.exit i hi)⟩

theorem within_empty : Within width {} := by
  constructor <;> simp

theorem below_empty : Below {} r := by
  constructor <;> simp

theorem lt_of_testBit_lt {s : Nat} (h : ∀ i, s.testBit i = true → i < width) :
    s < 1 <<< width := by
  rw [Nat.one_shiftLeft]
  exact Nat.lt_pow_two_of_testBit s fun i hi ↦ Bool.eq_false_iff.2 fun hs ↦ absurd (h i hs) (by omega)

theorem Below.eq_or_room_lt (h : r.Below s) (hs : s.Within width) :
    r = s ∨ s.room width < r.room width := by
  have hentry := Nat.le_of_testBit h.entry
  have hexit := Nat.le_of_testBit h.exit
  have hbound := lt_of_testBit_lt hs.entry
  have hbound' := lt_of_testBit_lt hs.exit
  unfold room
  obtain hlt | he := Nat.lt_or_eq_of_le hentry
  · right
    omega
  · obtain hlt | he' := Nat.lt_or_eq_of_le hexit
    · right
      omega
    · left
      cases r
      cases s
      exact congr (congrArg Facts.mk he) he'

end Facts

structure DataFlow where
  /-- The number of positions. -/
  size : Nat
  /-- Every fact has a number below the width. -/
  width : Nat
  derive : (Nat → Facts) → Nat → Facts
  /-- The positions whose facts depend on those at a position. -/
  readers : Nat → List Nat
  /-- Whether the readers have something new to read. -/
  isNews : Facts → Facts → Bool := Facts.differ
  isNews_self : ∀ r, isNews r r = false := by simp [Facts.differ]
  derive_mono : ∀ {k l : Nat → Facts}, (∀ p, (k p).Below (l p)) → ∀ p, (derive k p).Below (derive l p)
  derive_within : ∀ {k : Nat → Facts}, (∀ p, (k p).Within width) → ∀ p, (derive k p).Within width

def enqueue (queue positions : List Nat) : List Nat :=
  positions.foldl (fun q p ↦ if p ∈ q then q else q ++ [p]) queue

def factsAt (rows : List Facts) (p : Nat) : Facts := rows.getD p {}

theorem factsAt_set (rows : List Facts) (p q : Nat) (r : Facts) :
    factsAt (rows.set p r) q = if p = q ∧ p < rows.length then r else factsAt rows q := by
  simp only [factsAt, List.getD_eq_getElem?_getD, List.getElem?_set]
  grind

theorem factsAt_replicate (n p : Nat) : factsAt (List.replicate n {}) p = {} := by
  rw [factsAt, List.getD_eq_getElem?_getD, List.getElem?_replicate]
  split <;> rfl

namespace DataFlow

/-- Computes the facts at a position anew. -/
def visit (f : DataFlow) (rows : List Facts) (p : Nat) : List Facts :=
  rows.set p (f.derive (factsAt rows) p)

/-- The queue behind a visit. If it has brought news, the readers of the position wait again. -/
def wake (f : DataFlow) (rows next : List Facts) (p : Nat) (queue : List Nat) : List Nat :=
  if f.isNews (factsAt rows p) (factsAt next p) then enqueue queue (f.readers p) else queue

structure Founded (f : DataFlow) (rows : List Facts) : Prop where
  below : ∀ p, (factsAt rows p).Below (f.derive (factsAt rows) p)
  within : ∀ p, (factsAt rows p).Within f.width

def room (f : DataFlow) (rows : List Facts) : Nat := rows.foldr (fun r n ↦ r.room f.width + n) 0

variable {f : DataFlow} {rows : List Facts} {p : Nat}

theorem founded_start (f : DataFlow) : f.Founded (List.replicate f.size {}) where
  below p := by
    rw [factsAt_replicate]
    exact Facts.below_empty
  within p := by
    rw [factsAt_replicate]
    exact Facts.within_empty

namespace Founded

theorem below_visit (h : f.Founded rows) (p q : Nat) :
    (factsAt rows q).Below (factsAt (f.visit rows p) q) := by
  rw [visit, factsAt_set]
  split
  · next hq => exact hq.1 ▸ h.below p
  · exact Facts.Below.refl _

theorem visit (h : f.Founded rows) (p : Nat) : f.Founded (f.visit rows p) where
  below q := by
    refine Facts.Below.trans ?_ (f.derive_mono (h.below_visit p) q)
    rw [DataFlow.visit, factsAt_set]
    split
    · next hq => exact hq.1 ▸ Facts.Below.refl _
    · exact h.below q
  within q := by
    rw [DataFlow.visit, factsAt_set]
    split
    · exact f.derive_within h.within p
    · exact h.within q

theorem room_set_lt {r : Facts} {l : List Facts} {p : Nat} (h : l[p]? = some r) {s : Facts}
    (hlt : s.room f.width < r.room f.width) : f.room (l.set p s) < f.room l := by
  induction l generalizing p with
  | nil => simp at h
  | cons x l ih =>
    cases p with
    | zero =>
      rw [List.getElem?_cons_zero, Option.some.injEq] at h
      rw [List.set_cons_zero, room, room, List.foldr_cons, List.foldr_cons, h]
      exact Nat.add_lt_add_right hlt _
    | succ p =>
      rw [List.getElem?_cons_succ] at h
      rw [List.set_cons_succ, room, room, List.foldr_cons, List.foldr_cons]
      exact Nat.add_lt_add_left (ih h) _

theorem visit_eq_or_room_lt (h : f.Founded rows) (p : Nat) :
    f.visit rows p = rows ∨ f.room (f.visit rows p) < f.room rows := by
  by_cases hp : p < rows.length
  · have hrow : rows[p]? = some (factsAt rows p) := by simp [factsAt, hp]
    obtain he | hlt := (h.below p).eq_or_room_lt (f.derive_within h.within p)
    · left
      rw [DataFlow.visit, ← he]
      simp [factsAt, hp]
    · right
      exact room_set_lt hrow hlt
  · exact .inl (List.set_eq_of_length_le (Nat.le_of_not_lt hp))

theorem visit_lt (h : f.Founded rows) (p : Nat) (queue : List Nat) :
    Prod.Lex (· < ·) (· < ·)
      (f.room (f.visit rows p), (f.wake rows (f.visit rows p) p queue).length)
      (f.room rows, (p :: queue).length) := by
  obtain he | hlt := h.visit_eq_or_room_lt p
  · simp only [wake, he, f.isNews_self, Bool.false_eq_true, if_false]
    exact Prod.Lex.right _ (Nat.lt_succ_self _)
  · exact Prod.Lex.left _ _ hlt

end Founded

/-- Goes on until no position waits. -/
def settle (f : DataFlow) (rows : List Facts) (h : f.Founded rows) : List Nat → List Facts
  | [] => rows
  | p :: queue =>
    let next := f.visit rows p
    settle f next (h.visit p) (f.wake rows next p queue)
termination_by queue => (f.room rows, queue.length)
decreasing_by exact h.visit_lt p queue

def solve (f : DataFlow) (queue : List Nat) : List Facts :=
  f.settle (List.replicate f.size {}) f.founded_start queue

end DataFlow

end ThreeAddress
