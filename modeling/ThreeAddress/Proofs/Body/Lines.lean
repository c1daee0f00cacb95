import Mathlib.Data.List.Basic
import Mathlib.Tactic.SplitIfs
import ThreeAddress.Body.Text
import ThreeAddress.Proofs.Overloads

namespace ThreeAddress

namespace Text

variable {s t : String} {l : List String}

def IsLine (s : String) : Prop := '\n' ∉ s.toList

instance (s : String) : Decidable (IsLine s) := inferInstanceAs (Decidable ('\n' ∉ s.toList))

/-- The lines of a text, each of which ends in a line break. -/
def linesOf (s : String) : List String := ((s.toList.splitOn '\n').map String.ofList).dropLast

@[simp] theorem isLine_append : IsLine (s ++ t) ↔ IsLine s ∧ IsLine t := by
  simp [IsLine]

theorem isLine_intercalate (hs : IsLine s) (hl : ∀ t ∈ l, IsLine t) :
    IsLine (s.intercalate l) := by
  induction l with
  | nil => simp [IsLine]
  | cons t l ih =>
    obtain ⟨ht, hl⟩ := List.forall_mem_cons.1 hl
    cases l with
    | nil => simpa [IsLine] using ht
    | cons v l =>
      have hrest := ih hl
      rw [IsLine, String.toList_intercalate] at hrest ⊢
      simp only [List.map_cons, List.intercalate_cons_cons, List.mem_append, not_or] at hrest ⊢
      exact ⟨⟨ht, hs⟩, hrest⟩

theorem not_mem_toDigits {b : Nat} (hb : 0 < b) (hb' : b ≤ 16) (n : Nat) :
    '\n' ∉ Nat.toDigits b n := by
  have hdigit : ∀ d < 16, '\n' ≠ Nat.digitChar d := by decide
  have hcore (fuel n : Nat) (ds : List Char) (hds : '\n' ∉ ds) :
      '\n' ∉ Nat.toDigitsCore b fuel n ds := by
    induction fuel generalizing n ds with
    | zero => exact hds
    | succ fuel ih =>
      have hlt : n % b < 16 := Nat.lt_of_lt_of_le (Nat.mod_lt n hb) hb'
      have hcons : '\n' ∉ (n % b).digitChar :: ds :=
        mt List.mem_cons.1 (not_or.2 ⟨hdigit _ hlt, hds⟩)
      rw [Nat.toDigitsCore]
      split
      · exact hcons
      · exact ih _ _ hcons
  exact hcore _ _ _ List.not_mem_nil

@[simp] theorem isLine_nat (n : Nat) : IsLine n.repr := by
  rw [IsLine, Nat.toList_repr]
  exact not_mem_toDigits (by decide) (by decide) n

@[simp] theorem isLine_int (n : Int) : IsLine (toString n) := by
  cases n with
  | ofNat n => exact isLine_nat n
  | negSucc n => exact isLine_append.2 ⟨by decide, isLine_nat (n + 1)⟩

theorem not_mem_escape (c : Char) : '\n' ∉ escape c := by
  unfold escape
  split_ifs with _ _ _ hbreak
  any_goals decide
  · have hhex : '\n' ∉ Nat.toDigits 16 c.toNat := not_mem_toDigits (by decide) (by decide) _
    simp [hexEscape, hhex]
  · simpa using Ne.symm hbreak

@[simp] theorem isLine_quote (s : String) : IsLine (quote s) := by
  simp [IsLine, quote, not_mem_escape]

theorem linesOf_join (hl : ∀ t ∈ l, IsLine t) :
    linesOf (String.join (l.map (· ++ "\n"))) = l := by
  have hchars : (String.join (l.map (· ++ "\n"))).toList =
      ['\n'].intercalate (l.map String.toList ++ [[]]) := by
    rw [String.toList_join]
    induction l with
    | nil => rfl
    | cons t l ih =>
      rw [List.map_cons, List.flatMap_cons, ih (List.forall_mem_cons.1 hl).2, List.map_cons,
        List.cons_append, List.intercalate_cons_of_ne_nil (by simp)]
      simp
  have hrows : ∀ row ∈ l.map String.toList ++ [[]], '\n' ∉ row := by
    intro row hrow
    obtain hrow | hrow := List.mem_append.1 hrow
    · obtain ⟨t, ht, rfl⟩ := List.mem_map.1 hrow
      exact hl t ht
    · simp [List.mem_singleton.1 hrow]
  have hsplit := List.splitOn_intercalate '\n' hrows (by simp)
  rw [linesOf, hchars, hsplit]
  simp [Function.comp_def]

end Text

open Text

namespace Floating

theorem isLine_positional (d : Decimal) : IsLine d.positional := by
  have hdigits : '\n' ∉ (dropTrailingZeros (Nat.toDigits 10 d.digits)).1 :=
    fun h ↦ not_mem_toDigits (by decide) (by decide) _ (List.mem_of_mem_take h)
  unfold Decimal.positional
  dsimp only
  generalize (dropTrailingZeros (Nat.toDigits 10 d.digits)).1 = digits at hdigits
  split
  · simp [IsLine, hdigits]
  · split
    · simp only [IsLine, String.toList_ofList, List.mem_append, List.mem_cons, not_or]
      exact ⟨fun h ↦ hdigits (List.mem_of_mem_take h), by decide,
        fun h ↦ hdigits (List.mem_of_mem_drop h)⟩
    · simp [IsLine, hdigits]

theorem isLine_text (f : FloatFormat) (x : Floating) : IsLine (x.text f) := by
  cases x with
  | nan =>
    change IsLine "NaN"
    decide
  | infinite negative =>
    change IsLine (if negative then "-inf" else "inf")
    cases negative <;> decide
  | finite negative m q =>
    have hmagnitude : IsLine (if m = 0 then "0" else (neighbourhood f m q).shortest.positional) := by
      split
      · decide
      · exact isLine_positional _
    cases negative with
    | false => exact hmagnitude
    | true => exact isLine_append.2 ⟨by decide, hmagnitude⟩

end Floating

theorem Constant.isLine_text (c : Constant) : IsLine c.text := by
  cases c with
  | int v => exact isLine_int _
  | long v => exact isLine_append.2 ⟨isLine_int _, by decide⟩
  | float bits => exact isLine_append.2 ⟨Floating.isLine_text .single _, by decide⟩
  | double bits => exact Floating.isLine_text .double _
  | bool v => cases v <;> decide
  | string v => exact isLine_quote v
  | null => decide

theorem Ty.isLine_text {t : Ty} (h : ∀ name ∈ t.className?, IsLine name) : IsLine t.text := by
  induction t with
  | object name => exact h name rfl
  | array element ih => exact isLine_append.2 ⟨ih h, by decide⟩
  | _ => decide

theorem LocalId.isLine_text (x : LocalId) : IsLine x.text :=
  isLine_append.2 ⟨by decide, isLine_nat _⟩

theorem UnitId.isLine_text (u : UnitId) : IsLine u.text :=
  isLine_append.2 ⟨by decide, isLine_nat _⟩

/-- The names that a text shows for a field: that of its class only if there is no receiver. -/
def Field.shownNames (receiver : Option Value) (ref : Field) : List String :=
  (if receiver.isSome then [] else [ref.declaringType]) ++ [ref.name]

def Call.shownNames (c : Call) : List String :=
  c.method.declaringType :: c.method.name :: c.method.returnType.className?.toList

def Expr.shownNames : Expr → List String
  | .cast ty _ | .new ty | .newArray ty _ | .instanceOf ty _ => ty.className?.toList
  | .field receiver ref => ref.shownNames receiver
  | .invoke call => call.shownNames
  | _ => []

def Place.shownNames : Place → List String
  | .field receiver ref => ref.shownNames receiver
  | _ => []

def Stmt.shownNames : Stmt → List String
  | .assign place expr => place.shownNames ++ expr.shownNames
  | .invoke call => call.shownNames
  | _ => []

namespace Body

/-- The names of locals, classes, fields and methods that the text of a body shows. -/
def shownNames (b : Body) : List String :=
  b.locals.flatMap (fun l ↦ l.name :: l.ty.className?.toList) ++
    b.units.flatMap (·.stmt.shownNames) ++ b.traps.flatMap (·.exception.className?.toList)

variable {b : Body}

theorem isLine_labelText (b : Body) (u : UnitId) : IsLine (b.labelText u) := by
  unfold labelText
  split
  · exact isLine_append.2 ⟨by decide, isLine_nat _⟩
  · exact u.isLine_text

section

variable (hb : ∀ l ∈ b.locals, IsLine l.name)
include hb

theorem isLine_localText (x : LocalId) : IsLine (b.localText x) := by
  unfold localText
  split
  · next l hl => exact hb l (List.mem_of_find?_eq_some hl)
  · exact x.isLine_text

theorem isLine_valueText (v : Value) : IsLine (b.valueText v) := by
  cases v with
  | var x => exact isLine_localText hb x
  | const c => exact c.isLine_text

theorem isLine_comparisonText (c : Comparison) : IsLine (b.comparisonText c) := by
  have hop : IsLine c.op.symbol := by cases c.op <;> decide
  simp +decide [comparisonText, isLine_valueText hb, hop]

theorem isLine_fieldText {receiver : Option Value} {ref : Field}
    (h : ∀ name ∈ ref.shownNames receiver, IsLine name) : IsLine (b.fieldText receiver ref) := by
  have hname : IsLine ref.name := h _ (by simp [Field.shownNames])
  cases receiver with
  | none =>
    have hclass : IsLine ref.declaringType := h _ (by simp [Field.shownNames])
    simp +decide [fieldText, hname, hclass]
  | some v => simp +decide [fieldText, hname, isLine_valueText hb]

theorem isLine_elementText (array index : Value) : IsLine (b.elementText array index) := by
  simp +decide [elementText, isLine_valueText hb]

theorem isLine_callText {c : Call} (h : ∀ name ∈ c.shownNames, IsLine name) :
    IsLine (b.callText c) := by
  obtain ⟨hclass, hname, hty⟩ : IsLine c.method.declaringType ∧ IsLine c.method.name ∧
      IsLine c.method.returnType.text := by
    refine ⟨h _ (by simp [Call.shownNames]), h _ (by simp [Call.shownNames]), Ty.isLine_text ?_⟩
    exact fun name hn ↦ h name (by simp [Call.shownNames, Option.mem_def.1 hn])
  have hdispatch : IsLine c.dispatch.text := by cases c.dispatch <;> decide
  have harguments : IsLine (", ".intercalate (c.arguments.map b.valueText)) := by
    refine isLine_intercalate (by decide) fun t ht ↦ ?_
    obtain ⟨v, -, rfl⟩ := List.mem_map.1 ht
    exact isLine_valueText hb v
  unfold callText
  cases c.receiver <;>
    simp +decide [hclass, hname, hty, hdispatch, isLine_valueText hb, harguments]

theorem isLine_exprText {e : Expr} (h : ∀ name ∈ e.shownNames, IsLine name) :
    IsLine (b.exprText e) := by
  have hty (ty : Ty) (hnames : e.shownNames = ty.className?.toList) : IsLine ty.text :=
    Ty.isLine_text fun name hn ↦ h name (by simp [hnames, Option.mem_def.1 hn])
  have hv := isLine_valueText hb
  cases e with
  | value v => exact hv v
  | compare c => exact isLine_comparisonText hb c
  | binary op left right =>
    have hop : IsLine op.symbol := by cases op <;> decide
    simp +decide [exprText, hv, hop]
  | unary op operand =>
    have hop : IsLine op.symbol := by cases op <;> decide
    simp +decide [exprText, hv, hop]
  | cast ty v => simp +decide [exprText, hv, hty ty rfl]
  | new ty => simp +decide [exprText, hty ty rfl]
  | newArray ty size => simp +decide [exprText, hv, hty ty rfl]
  | instanceOf ty v => simp +decide [exprText, hv, hty ty rfl]
  | length array => simp +decide [exprText, hv]
  | field receiver ref => exact isLine_fieldText hb h
  | element array index => exact isLine_elementText hb array index
  | invoke call => exact isLine_callText hb h

theorem isLine_placeText {place : Place} (h : ∀ name ∈ place.shownNames, IsLine name) :
    IsLine (b.placeText place) := by
  cases place with
  | var x => exact isLine_localText hb x
  | field receiver ref => exact isLine_fieldText hb h
  | element array index => exact isLine_elementText hb array index

theorem isLine_stmtText {s : Stmt} (h : ∀ name ∈ s.shownNames, IsLine name) :
    IsLine (b.stmtText s) := by
  have hlabel := b.isLine_labelText
  have hv := isLine_valueText hb
  cases s with
  | identity x source =>
    have hsource : IsLine source.text := by
      cases source with
      | parameter i => exact isLine_append.2 ⟨by decide, isLine_nat i⟩
      | _ => decide
    simp +decide [stmtText, isLine_localText hb, hsource]
  | assign place e =>
    obtain ⟨hplace, hexpr⟩ := List.forall_mem_append.1 h
    simp +decide [stmtText, isLine_placeText hb hplace, isLine_exprText hb hexpr]
  | branch c t => simp +decide [stmtText, isLine_comparisonText hb, hlabel]
  | goto t => simp +decide [stmtText, hlabel]
  | switch key ts d =>
    have hcases : ∀ t ∈ ts.zipIdx.map fun p ↦ "case " ++ toString p.2 ++ ": goto " ++
        b.labelText p.1, IsLine t := by
      intro t ht
      obtain ⟨p, -, rfl⟩ := List.mem_map.1 ht
      simp +decide [hlabel]
    have hjoined := isLine_intercalate (s := "; ") (by decide) hcases
    simpa +decide [stmtText, hv, hlabel] using hjoined
  | invoke call => exact isLine_callText hb h
  | ret value => cases value <;> simp +decide [stmtText, hv]
  | throw v => simp +decide [stmtText, hv]
  | nop =>
    change IsLine "nop"
    decide

end

/-- Where no name that it shows holds a line break, the text of a body has the lines that it is put
together from. -/
theorem linesOf_text (h : ∀ name ∈ b.shownNames, IsLine name) : linesOf b.text = b.lines := by
  simp only [shownNames, List.mem_append, List.mem_flatMap, or_imp, forall_and,
    forall_exists_index, and_imp] at h
  obtain ⟨⟨hlocals, hunits⟩, htraps⟩ := h
  have hb : ∀ l ∈ b.locals, IsLine l.name := fun l hl ↦ hlocals _ l hl List.mem_cons_self
  refine linesOf_join fun line hline ↦ ?_
  rw [lines, List.mem_append, List.mem_append] at hline
  obtain (hline | hline) | hline := hline
  · rw [localLines, List.mem_append] at hline
    obtain hline | hline := hline
    · obtain ⟨l, hl, rfl⟩ := List.mem_map.1 hline
      have hty : IsLine l.ty.text := Ty.isLine_text fun name hn ↦
        hlocals name l hl (by simp [Option.mem_def.1 hn])
      simp +decide [Local.text, hty, hb l hl]
    · split at hline
      · exact absurd hline List.not_mem_nil
      · rw [List.mem_singleton.1 hline]
        decide
  · obtain ⟨v, hv, hline⟩ := List.mem_flatMap.1 hline
    rw [unitLines, List.mem_append] at hline
    obtain hline | hline := hline
    · split at hline
      · rw [List.mem_singleton.1 hline]
        simp +decide
      · exact absurd hline List.not_mem_nil
    · rw [List.mem_singleton.1 hline]
      simp +decide [isLine_stmtText hb fun name hn ↦ hunits name v hv hn]
  · obtain ⟨t, ht, rfl⟩ := List.mem_map.1 hline
    have hty : IsLine t.exception.text := Ty.isLine_text fun name hn ↦
      htraps name t ht (by simp [Option.mem_def.1 hn])
    delta trapLine
    simp +decide [hty, b.isLine_labelText]

end Body

end ThreeAddress
