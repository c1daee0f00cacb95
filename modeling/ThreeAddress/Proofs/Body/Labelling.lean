import Mathlib.Data.List.Induction
import ThreeAddress.Proofs.Body.Hollow
import ThreeAddress.Proofs.Body.Lines

namespace ThreeAddress

section Index

variable {α : Type} [DecidableEq α] {l : List α} {x : α} {n k : Nat}

theorem lookup_zipIdx : (l.zipIdx k).lookup x = (l.idxOf? x).map (k + ·) := by
  induction l generalizing k with
  | nil => rfl
  | cons y l ih =>
    rw [List.zipIdx_cons, List.lookup_cons, List.idxOf?_cons, ih, Bool.beq_comm]
    cases y == x with
    | true => rfl
    | false => simp [Option.map_map, Function.comp_def, Nat.add_assoc, Nat.add_comm 1]

theorem idxOf?_eq_some_of_nodup (hn : l.Nodup) : l.idxOf? x = some n ↔ l[n]? = some x := by
  rw [List.idxOf?_eq_some_iff, List.getElem?_eq_some_iff]
  constructor
  · rintro ⟨hlt, hx, -⟩
    exact ⟨hlt, hx⟩
  · rintro ⟨hlt, hx⟩
    refine ⟨hlt, hx, fun m hm he ↦ ?_⟩
    exact absurd ((hn.getElem_inj_iff).1 (he.trans hx.symm)) (Nat.ne_of_lt hm)

theorem filterMap_idxOf? (hn : l.Nodup) : l.filterMap l.idxOf? = List.range l.length := by
  have hindex : l.filterMap l.idxOf? = l.map l.idxOf := by
    refine List.filterMap_eq_map_iff_forall_eq_some.2 fun y hy ↦ ?_
    obtain ⟨n, hlt, rfl⟩ := List.mem_iff_getElem.1 hy
    rw [hn.idxOf_getElem n hlt]
    exact (idxOf?_eq_some_of_nodup hn).2 (List.getElem?_eq_getElem hlt)
  rw [hindex]
  refine List.ext_getElem (by simp) fun n hlt _ ↦ ?_
  rw [List.length_map] at hlt
  rw [List.getElem_map, List.getElem_range, hn.idxOf_getElem n hlt]

end Index

open Text

namespace Body

variable {b : Body} {u : UnitId} {v : CodeUnit} {t : Trap} {m n : Nat}

/-- A jump goes to the unit, or a trap begins or ends there or has it for its handler. -/
def Names (b : Body) (u : UnitId) : Prop :=
  (∃ v ∈ b.units, u ∈ v.stmt.targets) ∨
    ∃ t ∈ b.traps, u = t.first ∨ u = t.last ∨ u = t.handler

theorem isReferenced_iff : b.isReferenced u = true ↔ b.Names u := by
  simp [isReferenced, isJumpTarget, Names, Trap.refs]

def labelled (b : Body) : List UnitId := b.ids.filter b.isReferenced

/-- After any number of units the table holds those that are named, each with its index among
these. -/
theorem scan_eq (us : List UnitId) (hn : us.Nodup) :
    us.foldl b.enterLabel [] = (us.filter b.isReferenced).zipIdx := by
  induction us using List.reverseRecOn with
  | nil => rfl
  | append_singleton us x ih =>
    obtain ⟨hus, -, hx⟩ := List.nodup_append.1 hn
    rw [List.foldl_concat, ih hus, List.filter_append, enterLabel]
    cases href : b.isReferenced x with
    | false => simp [href]
    | true =>
      have hkeep : (us.filter b.isReferenced).zipIdx.filter (·.1 ≠ x) =
          (us.filter b.isReferenced).zipIdx := by
        refine List.filter_eq_self.2 fun p hp ↦ decide_eq_true fun he ↦ ?_
        have hmem := (List.mem_filter.1 (List.fst_mem_of_mem_zipIdx hp)).1
        exact hx p.1 hmem x (List.mem_singleton_self x) he
      rw [if_pos rfl, hkeep, List.zipIdx_append, List.length_zipIdx]
      simp [href]

theorem label?_eq (hn : b.ids.Nodup) : b.label? u = b.labelled.idxOf? u := by
  rw [label?, labels, scan_eq b.ids hn, lookup_zipIdx, labelled]
  simp

theorem isSome_label? (hn : b.ids.Nodup) :
    (b.label? u).isSome = true ↔ u ∈ b.ids ∧ b.Names u := by
  rw [label?_eq hn, List.isSome_idxOf?, labelled, List.mem_filter, isReferenced_iff]

theorem filterMap_label? (hn : b.ids.Nodup) :
    b.ids.filterMap b.label? = List.range b.labelled.length := by
  have hskip : b.ids.filterMap b.label? = b.labelled.filterMap b.labelled.idxOf? := by
    rw [labelled, List.filterMap_filter]
    refine List.filterMap_congr fun u _ ↦ ?_
    rw [label?_eq hn, labelled]
    split
    · rfl
    · next href =>
      exact List.idxOf?_eq_none_iff.2 fun hm ↦ href (List.mem_filter.1 hm).2
  exact hskip.trans (filterMap_idxOf? (hn.filter _))

def labelName (n : Nat) : String := "label" ++ toString n

def labelLine (n : Nat) : String := "  " ++ labelName n ++ ":"

def stmtLine (b : Body) (s : Stmt) : String := "    " ++ b.stmtText s ++ ";"

/-- The line of the number stands once in the text, directly before the statement of the unit. -/
def Heads (b : Body) (n : Nat) (u : UnitId) : Prop :=
  (linesOf b.text).count (labelLine n) = 1 ∧ ∃ front v back,
    b.units = front ++ v :: back ∧ v.id = u ∧ linesOf b.text = b.localLines ++
      front.flatMap b.unitLines ++ labelLine n :: b.stmtLine v.stmt ::
        (back.flatMap b.unitLines ++ b.traps.map b.trapLine)

theorem labelLine_inj : labelLine m = labelLine n ↔ m = n := by
  refine ⟨fun h ↦ ?_, congrArg _⟩
  rw [labelLine, labelLine, String.append_left_inj, String.append_right_inj, labelName, labelName,
    String.append_right_inj] at h
  have hdigits := congrArg (fun s ↦ Nat.ofDigitChars 10 s.toList 0) h
  simpa [toString, Nat.repr, Nat.ofDigitChars_ten_toDigits] using hdigits

theorem labelText_eq (h : b.label? u = some n) : b.labelText u = labelName n := by
  rw [labelText, h]
  rfl

theorem indented_ne (s : String) : "    " ++ s ≠ labelLine n := by
  intro h
  have hthird := congrArg (fun s ↦ s.toList[2]?) h
  simp [labelLine, labelName] at hthird

theorem unitLines_eq : b.unitLines v =
    ((b.label? v.id).map labelLine).toList ++ [b.stmtLine v.stmt] := by
  rw [unitLines]
  cases b.label? v.id with
  | none => rfl
  | some n =>
    have hline : "  label" ++ toString n ++ ":" = labelLine n := by
      rw [labelLine, labelName]
      simp only [← String.append_assoc]
      rfl
    simp only [hline]
    rfl

theorem stmtLine_ne (s : Stmt) : b.stmtLine s ≠ labelLine n := by
  rw [stmtLine, String.append_assoc]
  exact indented_ne _

theorem not_mem_localLines : labelLine n ∉ b.localLines := by
  rw [localLines, List.mem_append, not_or]
  constructor
  · intro h
    obtain ⟨l, -, hl⟩ := List.mem_map.1 h
    rw [String.append_assoc] at hl
    exact indented_ne _ hl
  · intro h
    split at h
    · exact List.not_mem_nil h
    · have hempty := congrArg String.length (List.mem_singleton.1 h)
      simp [labelLine, labelName] at hempty

theorem not_mem_trapLines : labelLine n ∉ b.traps.map b.trapLine := by
  intro h
  obtain ⟨t, -, ht⟩ := List.mem_map.1 h
  have hindent : "    catch " = "    " ++ "catch " := rfl
  delta trapLine at ht
  simp only [String.append_assoc] at ht
  rw [hindent, String.append_assoc] at ht
  exact indented_ne _ ht

theorem lines_eq {front back : List CodeUnit} (h : b.units = front ++ v :: back) :
    b.lines = b.localLines ++ front.flatMap b.unitLines ++
      (b.unitLines v ++ (back.flatMap b.unitLines ++ b.traps.map b.trapLine)) := by
  simp [lines, h]

theorem count_lines : b.lines.count (labelLine n) = (b.ids.filterMap b.label?).count n := by
  have hunits (us : List CodeUnit) : (us.flatMap b.unitLines).count (labelLine n) =
      ((us.map (·.id)).filterMap b.label?).count n := by
    induction us with
    | nil => rfl
    | cons v us ih =>
      rw [List.flatMap_cons, List.count_append, ih, unitLines_eq]
      cases h : b.label? v.id <;>
        simp [h, stmtLine_ne, List.count_cons, labelLine_inj, Nat.add_comm]
  rw [lines, List.count_append, List.count_append, hunits,
    List.count_eq_zero.2 not_mem_localLines, List.count_eq_zero.2 not_mem_trapLines]
  simp [ids]

section Heads

variable (hl : linesOf b.text = b.lines)
include hl

theorem heads_of_label? (hn : b.ids.Nodup) (h : b.label? u = some n) : b.Heads n u := by
  have hu : u ∈ b.ids := ((isSome_label? hn).1 (by rw [h]; rfl)).1
  rw [Heads, hl]
  constructor
  · have hnumber : n ∈ b.ids.filterMap b.label? := List.mem_filterMap.2 ⟨u, hu, h⟩
    rw [filterMap_label? hn] at hnumber
    rw [count_lines, filterMap_label? hn]
    exact List.count_eq_one_of_mem List.nodup_range hnumber
  · obtain ⟨v, hv, rfl⟩ := mem_ids.1 hu
    obtain ⟨front, back, hsplit⟩ := List.append_of_mem hv
    refine ⟨front, v, back, hsplit, rfl, ?_⟩
    rw [lines_eq hsplit, unitLines_eq, h]
    rfl

theorem label?_of_heads (h : b.Heads n u) : b.label? u = some n := by
  obtain ⟨-, front, v, back, hsplit, rfl, hlines⟩ := h
  rw [hl, lines_eq hsplit, List.append_right_inj, unitLines_eq] at hlines
  cases hv : b.label? v.id with
  | none =>
    rw [hv] at hlines
    have hlength := congrArg List.length hlines
    simp at hlength
  | some m =>
    rw [hv] at hlines
    rw [labelLine_inj.1 (List.cons.inj hlines).1]

theorem heads_of_mem_lines (hn : b.ids.Nodup) (h : labelLine n ∈ linesOf b.text) :
    ∃ u, b.Heads n u := by
  rw [hl, ← List.count_pos_iff, count_lines, List.count_pos_iff, List.mem_filterMap] at h
  obtain ⟨u, -, hu⟩ := h
  exact ⟨u, heads_of_label? hl hn hu⟩

end Heads

def caseText (i : Nat) (name : String) : String := "case " ++ toString i ++ ": goto " ++ name

/-- The text of a jump to the labels of these numbers. -/
inductive Spells (b : Body) : Stmt → List Nat → String → Prop
  | branch {c : Comparison} {z : UnitId} {n : Nat} :
      Spells b (.branch c z) [n] ("if " ++ b.comparisonText c ++ " goto " ++ labelName n)
  | goto {z : UnitId} {n : Nat} : Spells b (.goto z) [n] ("goto " ++ labelName n)
  | switch {key : Value} {zs : List UnitId} {z : UnitId} {ns : List Nat} {n : Nat} :
      Spells b (.switch key zs z) (ns ++ [n]) ("switch(" ++ b.valueText key ++ ") \x7b " ++
        "; ".intercalate (ns.zipIdx.map fun p ↦ caseText p.2 (labelName p.1)) ++
        "; default: goto " ++ labelName n ++ " \x7d")

def catchLine (exception : Ty) (first last handler : Nat) : String :=
  "    catch " ++ exception.text ++ " from " ++ labelName first ++ " to " ++ labelName last ++
    " with " ++ labelName handler ++ ";"

theorem exists_numbers {zs : List UnitId} (h : ∀ z ∈ zs, ∃ n, b.label? z = some n) :
    ∃ ns : List Nat, zs.map b.label? = ns.map some ∧ zs.map b.labelText = ns.map labelName := by
  induction zs with
  | nil => exact ⟨[], rfl, rfl⟩
  | cons z zs ih =>
    obtain ⟨⟨n, hn⟩, hzs⟩ := List.forall_mem_cons.1 h
    obtain ⟨ns, hns, hnames⟩ := ih hzs
    refine ⟨n :: ns, ?_, ?_⟩
    · rw [List.map_cons, hn, hns, List.map_cons]
    · rw [List.map_cons, labelText_eq hn, hnames, List.map_cons]

theorem exists_spells {s : Stmt} (hs : s.targets ≠ [])
    (h : ∀ z ∈ s.targets, ∃ n, b.label? z = some n) :
    ∃ ns : List Nat, s.targets.map b.label? = ns.map some ∧ b.Spells s ns (b.stmtText s) := by
  cases s with
  | branch c z =>
    obtain ⟨n, hn⟩ := h z (List.mem_singleton_self z)
    refine ⟨[n], by rw [Stmt.targets, List.map_singleton, hn]; rfl, ?_⟩
    rw [stmtText, labelText_eq hn]
    exact .branch
  | goto z =>
    obtain ⟨n, hn⟩ := h z (List.mem_singleton_self z)
    refine ⟨[n], by rw [Stmt.targets, List.map_singleton, hn]; rfl, ?_⟩
    rw [stmtText, labelText_eq hn]
    exact .goto
  | switch key zs z =>
    obtain ⟨hzs, hz⟩ := List.forall_mem_append.1 h
    obtain ⟨n, hn⟩ := hz z (List.mem_singleton_self z)
    obtain ⟨ns, hns, hnames⟩ := exists_numbers hzs
    refine ⟨ns ++ [n], by simp [Stmt.targets, hns, hn], ?_⟩
    -- the cases are a function of the names of the targets in order
    have hcases : (zs.zipIdx.map fun p ↦ caseText p.2 (b.labelText p.1)) =
        ns.zipIdx.map fun p ↦ caseText p.2 (labelName p.1) := by
      have hzip := congrArg (fun names ↦ names.zipIdx.map fun p ↦ caseText p.2 p.1) hnames
      simpa [List.zipIdx_map, Function.comp_def] using hzip
    have htext : b.stmtText (.switch key zs z) = "switch(" ++ b.valueText key ++ ") \x7b " ++
        "; ".intercalate (zs.zipIdx.map fun p ↦ caseText p.2 (b.labelText p.1)) ++
        "; default: goto " ++ b.labelText z ++ " \x7d" := rfl
    rw [htext, hcases, labelText_eq hn]
    exact .switch
  | _ => exact absurd rfl hs

theorem trapLine_eq {i j k : Nat} (hi : b.label? t.first = some i) (hj : b.label? t.last = some j)
    (hk : b.label? t.handler = some k) : b.trapLine t = catchLine t.exception i j k := by
  delta trapLine catchLine
  rw [labelText_eq hi, labelText_eq hj, labelText_eq hk]

/-- What the labels in the text of a body say. -/
structure Labelling (b : Body) : Prop where
  lines : linesOf b.text = b.localLines ++ b.units.flatMap b.unitLines ++ b.traps.map b.trapLine
  numbered : ∀ u, (∃ n, b.label? u = some n) ↔ b.Names u
  counted : b.ids.filterMap b.label? = List.range (b.ids.filterMap b.label?).length
  headed : ∀ u n, b.label? u = some n ↔ b.Heads n u
  unlabelled : ∀ v ∈ b.units, ¬ b.Names v.id → b.unitLines v = [b.stmtLine v.stmt]
  /-- No line of a label stands anywhere else. -/
  exhausted : ∀ n, labelLine n ∈ linesOf b.text → ∃ u, b.Heads n u
  jumps : ∀ v ∈ b.units, v.stmt.targets ≠ [] → ∃ ns : List Nat,
    v.stmt.targets.map b.label? = ns.map some ∧ b.Spells v.stmt ns (b.stmtText v.stmt)
  catches : ∀ t ∈ b.traps, ∃ i j k, b.label? t.first = some i ∧ b.label? t.last = some j ∧
    b.label? t.handler = some k ∧ b.trapLine t = catchLine t.exception i j k

/-- In the text of a valid body the units that some jump or trap names have the numbers from zero
on, in order. The line of each number stands once, in front of the unit, and every jump and every
trap shows the numbers of the units that it names. No other unit has such a line. All this holds as
long as no name holds a line break. -/
theorem labels_identify (h : b.Valid) (hplain : ∀ name ∈ b.shownNames, IsLine name) :
    b.Labelling := by
  have hn := h.nodup
  have hl := linesOf_text hplain
  have hnumbered (u : UnitId) : (∃ n, b.label? u = some n) ↔ b.Names u := by
    rw [← Option.isSome_iff_exists, isSome_label? hn, and_iff_right_iff_imp, ← isReferenced_iff]
    exact h.coherent.mem_ids_of_isReferenced
  constructor
  case lines => exact hl
  case numbered => exact hnumbered
  case counted => rw [filterMap_label? hn, List.length_range]
  case headed => exact fun u n ↦ ⟨heads_of_label? hl hn, label?_of_heads hl⟩
  case unlabelled =>
    intro v _ hv
    have hnone : b.label? v.id = none := by
      rw [← hnumbered, ← Option.isSome_iff_exists] at hv
      exact Option.not_isSome_iff_eq_none.1 hv
    rw [unitLines_eq, hnone]
    rfl
  case exhausted => exact fun n ↦ heads_of_mem_lines hl hn
  case jumps =>
    intro v hv hjump
    refine exists_spells hjump fun z hz ↦ ?_
    exact (hnumbered z).2 (.inl ⟨v, hv, hz⟩)
  case catches =>
    intro t ht
    obtain ⟨i, hi⟩ := (hnumbered t.first).2 (.inr ⟨t, ht, .inl rfl⟩)
    obtain ⟨j, hj⟩ := (hnumbered t.last).2 (.inr ⟨t, ht, .inr (.inl rfl)⟩)
    obtain ⟨k, hk⟩ := (hnumbered t.handler).2 (.inr ⟨t, ht, .inr (.inr rfl)⟩)
    exact ⟨i, j, k, hi, hj, hk, trapLine_eq hi hj hk⟩

/-- A switch with a target that it shares with a trap, a jump back to it, and two traps that
overlap. -/
def crossroads : Body where
  locals := [⟨⟨0⟩, "n", .int⟩, ⟨⟨1⟩, "e", .object "E"⟩]
  units :=
    [⟨⟨9⟩, .identity ⟨0⟩ (.parameter 0)⟩,
      ⟨⟨1⟩, .switch (.var ⟨0⟩) [⟨4⟩, ⟨2⟩, ⟨4⟩] ⟨6⟩⟩,
      ⟨⟨2⟩, .assign (.var ⟨0⟩) (.binary .div (.var ⟨0⟩) (.const (.int 2)))⟩,
      ⟨⟨3⟩, .nop⟩,
      ⟨⟨4⟩, .branch ⟨.eq, .var ⟨0⟩, .const (.int 0)⟩ ⟨6⟩⟩,
      ⟨⟨5⟩, .goto ⟨1⟩⟩,
      ⟨⟨6⟩, .ret none⟩,
      ⟨⟨7⟩, .identity ⟨1⟩ .caughtException⟩,
      ⟨⟨8⟩, .throw (.var ⟨1⟩)⟩]
  traps := [⟨⟨2⟩, ⟨5⟩, ⟨7⟩, .object "E"⟩, ⟨⟨4⟩, ⟨6⟩, ⟨7⟩, .object "E"⟩]
  nextUnit := 10

theorem labels_identify_crossroads :
    (crossroads.Valid ∧ ∀ name ∈ crossroads.shownNames, IsLine name) ∧
    crossroads.ids.filterMap crossroads.label? = [0, 1, 2, 3, 4, 5] ∧
    crossroads.Heads 2 ⟨4⟩ ∧ ¬ crossroads.Names ⟨3⟩ := by
  have hvalid : crossroads.Valid := validate_eq_ok.1 (by decide +kernel)
  have hplain : ∀ name ∈ crossroads.shownNames, IsLine name := by decide
  have hlabels := labels_identify hvalid hplain
  have hnone : crossroads.label? ⟨3⟩ = none := by decide +kernel
  refine ⟨⟨hvalid, hplain⟩, by decide +kernel, (hlabels.headed _ _).1 (by decide +kernel), ?_⟩
  rw [← hlabels.numbered, hnone]
  simp

example : crossroads.text =
    "    int n;\n    E e;\n\n" ++
    "    n := @parameter0;\n" ++
    "  label0:\n" ++
    "    switch(n) \x7b case 0: goto label2; case 1: goto label1; case 2: goto label2; " ++
      "default: goto label4 \x7d;\n" ++
    "  label1:\n" ++
    "    n = n / 2;\n" ++
    "    nop;\n" ++
    "  label2:\n" ++
    "    if n == 0 goto label4;\n" ++
    "  label3:\n" ++
    "    goto label0;\n" ++
    "  label4:\n" ++
    "    return;\n" ++
    "  label5:\n" ++
    "    e := @caughtexception;\n" ++
    "    throw e;\n" ++
    "    catch E from label1 to label3 with label5;\n" ++
    "    catch E from label2 to label4 with label5;\n" := by
  decide +kernel

def forger : Body where
  locals := [⟨⟨0⟩, "x;\n  label0:\n    int y", .int⟩]
  units := [⟨⟨0⟩, .goto ⟨0⟩⟩]
  nextUnit := 1

/-- The name of a local can put the line of a label where no unit stands. -/
theorem labels_forged : forger.Valid ∧ forger.label? ⟨0⟩ = some 0 ∧
    forger.text = "    int x;\n  label0:\n    int y;\n\n  label0:\n    goto label0;\n" ∧
    (linesOf forger.text).count (labelLine 0) = 2 := by
  have htext : forger.text =
      "    int x;\n  label0:\n    int y;\n\n  label0:\n    goto label0;\n" := by decide +kernel
  refine ⟨validate_eq_ok.1 (by decide +kernel), by decide +kernel, htext, ?_⟩
  rw [htext]
  decide +kernel

end Body

end ThreeAddress
