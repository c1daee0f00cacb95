import Mathlib.Data.List.Nodup
import ThreeAddress.Signature

namespace ThreeAddress

namespace Text

def separators : List Char := [' ', ',', ':', '(', ')']

def IsPlain (name : String) : Prop := name ≠ "" ∧ ∀ c ∈ separators, c ∉ name.toList

instance (name : String) : Decidable (IsPlain name) :=
  have : Decidable (∀ c ∈ separators, c ∉ name.toList) :=
    List.decidableBAll (fun c ↦ c ∉ name.toList) separators
  inferInstanceAs (Decidable (name ≠ "" ∧ ∀ c ∈ separators, c ∉ name.toList))

theorem IsPlain.chars_ne_nil {name : String} (h : IsPlain name) : name.toList ≠ [] := by
  intro hnil
  apply h.1
  apply String.toList_inj.1
  simpa using hnil

theorem cut_inj {c : Char} {w v r s : List Char} (hw : c ∉ w) (hv : c ∉ v) :
    w ++ c :: r = v ++ c :: s ↔ w = v ∧ r = s := by
  constructor
  · intro h
    induction w generalizing v with
    | nil =>
      cases v with
      | nil => simpa using h
      | cons d v =>
        have hd : c = d := (List.cons.inj h).1
        exact absurd (hd ▸ List.mem_cons_self) hv
    | cons d w ih =>
      rw [List.mem_cons, not_or] at hw
      cases v with
      | nil => exact absurd (List.cons.inj h).1.symm hw.1
      | cons d' v =>
        rw [List.mem_cons, not_or] at hv
        obtain ⟨hd, ht⟩ := List.cons.inj h
        obtain ⟨hwv, hr⟩ := ih hw.2 hv.2 ht
        exact ⟨by rw [hd, hwv], hr⟩
  · intro h
    rw [h.1, h.2]

theorem intercalate_append_self {sep : List Char} {ws : List (List Char)} (h : ws ≠ []) :
    sep.intercalate ws ++ sep = ws.flatMap (· ++ sep) := by
  induction ws with
  | nil => exact absurd rfl h
  | cons w ws ih =>
    cases ws with
    | nil => simp
    | cons v ws =>
      rw [List.intercalate_cons_cons, List.append_assoc, ih (List.cons_ne_nil v ws)]
      simp

theorem intercalate_eq_nil (sep : List Char) {ws : List (List Char)} (h : ∀ w ∈ ws, w ≠ []) :
    sep.intercalate ws = [] ↔ ws = [] := by
  cases ws with
  | nil => simp
  | cons w ws =>
    have hfirst := h w List.mem_cons_self
    cases ws <;> simp [hfirst]

theorem closed_inj {ws vs : List (List Char)} (hw : ∀ w ∈ ws, ',' ∉ w) (hv : ∀ v ∈ vs, ',' ∉ v)
    (h : ws.flatMap (· ++ [',', ' ']) = vs.flatMap (· ++ [',', ' '])) : ws = vs := by
  induction ws generalizing vs with
  | nil => cases vs <;> simp_all
  | cons w ws ih =>
    cases vs with
    | nil => simp at h
    | cons v vs =>
      simp only [List.flatMap_cons, List.append_assoc, List.cons_append, List.nil_append] at h
      obtain ⟨hfirst, hrest⟩ :=
        (cut_inj (hw w List.mem_cons_self) (hv v List.mem_cons_self)).1 h
      have hrest := ih (fun u hu ↦ hw u (List.mem_cons_of_mem w hu))
        (fun u hu ↦ hv u (List.mem_cons_of_mem v hu)) (List.cons.inj hrest).2
      rw [hfirst, hrest]

theorem intercalate_inj {ws vs : List (List Char)} (hw : ∀ w ∈ ws, w ≠ [] ∧ ',' ∉ w)
    (hv : ∀ v ∈ vs, v ≠ [] ∧ ',' ∉ v)
    (h : [',', ' '].intercalate ws = [',', ' '].intercalate vs) : ws = vs := by
  have hnil := intercalate_eq_nil [',', ' '] fun w hm ↦ (hw w hm).1
  have hnil' := intercalate_eq_nil [',', ' '] fun v hm ↦ (hv v hm).1
  by_cases hws : ws = []
  · rw [hws, hnil'.1 (h.symm.trans (hnil.2 hws))]
  · have hvs : vs ≠ [] := fun he ↦ hws (hnil.1 (h.trans (hnil'.2 he)))
    apply closed_inj (fun w hm ↦ (hw w hm).2) (fun v hm ↦ (hv v hm).2)
    rw [← intercalate_append_self hws, ← intercalate_append_self hvs, h]

end Text

open Text

namespace Ty

def atoms : List Ty := [void, boolean, byte, char, short, int, long, float, double, null]

def className? : Ty → Option String
  | object name => some name
  | array element => element.className?
  | _ => none

def IsClassName (name : String) : Prop :=
  IsPlain name ∧ ¬ "[]".toList <:+ name.toList ∧ name ∉ atoms.map text

instance (name : String) : Decidable (IsClassName name) :=
  inferInstanceAs
    (Decidable (IsPlain name ∧ ¬ "[]".toList <:+ name.toList ∧ name ∉ atoms.map text))

def IsLegible (t : Ty) : Prop := ∀ name ∈ t.className?, IsClassName name

variable {s t : Ty}

theorem atom_or (t : Ty) :
    t ∈ atoms ∨ (∃ name, t = object name) ∨ ∃ element, t = array element := by
  cases t <;> simp [atoms]

theorem isLegible_of_mem_atoms (h : t ∈ atoms) : t.IsLegible := by
  have hnone : ∀ t ∈ atoms, t.className? = none := by decide
  intro name hname
  simp [hnone t h] at hname

theorem isPlain_text (h : t.IsLegible) : IsPlain t.text := by
  induction t with
  | object name => exact (h name rfl).1
  | array element ih =>
    obtain ⟨hne, hchars⟩ := ih h
    refine ⟨?_, ?_⟩
    · simp [text]
    · intro c hc
      have hbrackets : c ∉ "[]".toList := by
        intro hmem
        obtain h | h : c = '[' ∨ c = ']' := by simpa using hmem
        all_goals simp [h, separators] at hc
      simpa [text, hchars c hc] using hbrackets
  | _ => decide

theorem brackets_iff (h : t.IsLegible) :
    "[]".toList <:+ t.text.toList ↔ ∃ element, t = array element := by
  cases t with
  | object name => simpa [text] using (h name rfl).2.1
  | array element => simp [text]
  | _ =>
    simp only [reduceCtorEq, exists_false, iff_false]
    decide

theorem eq_of_text_of_mem_atoms (hs : s ∈ atoms) (ht : t.IsLegible) (h : s.text = t.text) :
    s = t := by
  obtain hatom | ⟨name, rfl⟩ | ⟨element, rfl⟩ := t.atom_or
  · have hn : (atoms.map text).Nodup := by decide
    exact List.inj_on_of_nodup_map hn hs hatom h
  · have hspelled : name ∈ atoms.map text := List.mem_map.2 ⟨s, hs, h⟩
    exact absurd hspelled (ht name rfl).2.2
  · have hbrackets := (brackets_iff ht).2 ⟨element, rfl⟩
    rw [← h] at hbrackets
    obtain ⟨_, rfl⟩ := (brackets_iff (isLegible_of_mem_atoms hs)).1 hbrackets
    simp [atoms] at hs

theorem text_inj (hs : s.IsLegible) (ht : t.IsLegible) : s.text = t.text ↔ s = t := by
  refine ⟨fun h ↦ ?_, congrArg text⟩
  induction s generalizing t with
  | array element ih =>
    have hbrackets := (brackets_iff hs).2 ⟨element, rfl⟩
    rw [h] at hbrackets
    obtain ⟨element', rfl⟩ := (brackets_iff ht).1 hbrackets
    have htext : element.text = element'.text := by simpa [text] using h
    rw [ih hs (t := element') ht htext]
  | object name =>
    obtain hatom | ⟨name', rfl⟩ | ⟨element, rfl⟩ := t.atom_or
    · exact (eq_of_text_of_mem_atoms hatom hs h.symm).symm
    · exact congrArg object h
    · have hbrackets := (brackets_iff ht).2 ⟨element, rfl⟩
      rw [← h] at hbrackets
      obtain ⟨_, hne⟩ := (brackets_iff hs).1 hbrackets
      cases hne
  | _ => exact eq_of_text_of_mem_atoms (by simp [atoms]) ht h

end Ty

namespace Signature

def classNames (m : Signature) : List String :=
  m.declaringType :: (m.returnType :: m.parameters.map (·.ty)).filterMap Ty.className?

def IsLegible (m : Signature) : Prop :=
  IsPlain m.name ∧ ∀ name ∈ m.classNames, Ty.IsClassName name

instance (m : Signature) : Decidable m.IsLegible :=
  inferInstanceAs (Decidable (IsPlain m.name ∧ ∀ name ∈ m.classNames, Ty.IsClassName name))

variable {m n : Signature}

theorem IsLegible.declaringType (h : m.IsLegible) : IsPlain m.declaringType :=
  (h.2 _ List.mem_cons_self).1

theorem IsLegible.ty (h : m.IsLegible) {t : Ty} (ht : t ∈ m.returnType :: m.parameters.map (·.ty)) :
    t.IsLegible :=
  fun name hname ↦ h.2 name (List.mem_cons_of_mem _ (List.mem_filterMap.2 ⟨t, ht, hname⟩))

theorem IsLegible.returnType (h : m.IsLegible) : m.returnType.IsLegible := h.ty List.mem_cons_self

theorem IsLegible.parameter (h : m.IsLegible) {t : Ty} (ht : t ∈ m.parameters.map (·.ty)) :
    t.IsLegible :=
  h.ty (List.mem_cons_of_mem _ ht)

/-- The text up to the colons: the mark of a static method, the return type, the declaring type. -/
def opener (isStatic : Bool) (returnType declaringType : List Char) : List Char :=
  (if isStatic then "static ".toList else []) ++ returnType ++ ' ' :: declaringType

theorem opener_inj {b c : Bool} {w v d e : List Char} (hw : ' ' ∉ w) (hv : ' ' ∉ v) (hd : ' ' ∉ d)
    (he : ' ' ∉ e) (h : opener b w d = opener c v e) : b = c ∧ w = v ∧ d = e := by
  have hstatic (w d : List Char) :
      opener true w d = ['s', 't', 'a', 't', 'i', 'c'] ++ ' ' :: (w ++ ' ' :: d) := by
    simp [opener]
  have hinstance (w d : List Char) : opener false w d = w ++ ' ' :: d := by
    simp [opener]
  have hword : ' ' ∉ ['s', 't', 'a', 't', 'i', 'c'] := by decide
  cases b <;> cases c
  · rw [hinstance, hinstance] at h
    exact ⟨rfl, (cut_inj hw hv).1 h⟩
  · -- one space against two
    rw [hinstance, hstatic] at h
    obtain ⟨-, hrest⟩ := (cut_inj hw hword).1 h
    exact absurd (hrest ▸ by simp) hd
  · rw [hinstance, hstatic] at h
    obtain ⟨-, hrest⟩ := (cut_inj hword hv).1 h
    exact absurd (hrest.symm ▸ by simp) he
  · rw [hstatic, hstatic] at h
    obtain ⟨-, hrest⟩ := (cut_inj hword hword).1 h
    exact ⟨rfl, (cut_inj hw hv).1 hrest⟩

theorem toList_text (m : Signature) : m.text.toList =
    opener m.isStatic m.returnType.text.toList m.declaringType.toList ++ ':' :: (':' ::
      (m.name.toList ++ '(' ::
        ([',', ' '].intercalate ((m.parameters.map (·.ty)).map (·.text.toList)) ++ [')']))) := by
  cases h : m.isStatic <;> simp [text, opener, qualifiedName, h, Function.comp_def]

theorem colon_not_mem_opener (h : m.IsLegible) :
    ':' ∉ opener m.isStatic m.returnType.text.toList m.declaringType.toList := by
  have hr := (Ty.isPlain_text h.returnType).2 ':' (by decide)
  have hd := h.declaringType.2 ':' (by decide)
  cases m.isStatic <;> simp [opener, hr, hd]

theorem words_of_legible {ts : List Ty} (h : ∀ t ∈ ts, t.IsLegible) :
    ∀ w ∈ ts.map (·.text.toList), w ≠ [] ∧ ',' ∉ w := by
  intro w hw
  obtain ⟨t, ht, rfl⟩ := List.mem_map.1 hw
  have hplain := Ty.isPlain_text (h t ht)
  exact ⟨hplain.chars_ne_nil, hplain.2 ',' (by decide)⟩

theorem texts_inj {ts us : List Ty} (ht : ∀ t ∈ ts, t.IsLegible) (hu : ∀ u ∈ us, u.IsLegible)
    (h : ts.map (·.text.toList) = us.map (·.text.toList)) : ts = us := by
  induction ts generalizing us with
  | nil => cases us <;> simp_all
  | cons t ts ih =>
    cases us with
    | nil => cases h
    | cons u us =>
      rw [List.forall_mem_cons] at ht hu
      obtain ⟨hfirst, hrest⟩ := List.cons.inj h
      rw [(Ty.text_inj ht.1 hu.1).1 (String.toList_inj.1 hfirst), ih ht.2 hu.2 hrest]

/-- Two legible signatures have the same text exactly if they agree in all but the names of their
parameters and in that one may be abstract. -/
theorem text_eq_iff (hm : m.IsLegible) (hn : n.IsLegible) : m.text = n.text ↔
    m.isStatic = n.isStatic ∧ m.returnType = n.returnType ∧ m.declaringType = n.declaringType ∧
      m.name = n.name ∧ m.parameters.map (·.ty) = n.parameters.map (·.ty) := by
  constructor
  · intro h
    have hchars := congrArg String.toList h
    rw [toList_text, toList_text] at hchars
    obtain ⟨hopener, hrest⟩ :=
      (cut_inj (colon_not_mem_opener hm) (colon_not_mem_opener hn)).1 hchars
    obtain ⟨hname, hrest⟩ := (cut_inj (hm.1.2 '(' (by decide)) (hn.1.2 '(' (by decide))).1
      (List.cons.inj hrest).2
    have hwords := intercalate_inj (words_of_legible fun _ ↦ hm.parameter)
      (words_of_legible fun _ ↦ hn.parameter) (List.append_cancel_right hrest)
    obtain ⟨hstatic, hreturn, hdeclaring⟩ := opener_inj
      ((Ty.isPlain_text hm.returnType).2 ' ' (by decide))
      ((Ty.isPlain_text hn.returnType).2 ' ' (by decide))
      (hm.declaringType.2 ' ' (by decide)) (hn.declaringType.2 ' ' (by decide)) hopener
    refine ⟨hstatic, ?_, String.toList_inj.1 hdeclaring, String.toList_inj.1 hname, ?_⟩
    · exact (Ty.text_inj hm.returnType hn.returnType).1 (String.toList_inj.1 hreturn)
    · exact texts_inj (fun _ ↦ hm.parameter) (fun _ ↦ hn.parameter) hwords
  · intro h
    obtain ⟨hstatic, hreturn, hdeclaring, hname, htypes⟩ := h
    have htexts (k : Signature) :
        (k.parameters.map fun p ↦ p.ty.text) = (k.parameters.map (·.ty)).map Ty.text := by simp
    simp only [text, qualifiedName, hstatic, hreturn, hdeclaring, hname, htexts, htypes]

/-- An array of arrays against two arrays, in classes whose names hold brackets and a type. -/
theorem text_eq_iff_nested :
    let nested : Signature :=
      { declaringType := "int[].List", name := "of", isStatic := true
        parameters := [⟨none, .array (.array (.object "A[]B"))⟩], returnType := .object "static" }
    let flat : Signature :=
      { nested with parameters := [⟨some "a", .array (.object "A[]B")⟩, ⟨none, .array .int⟩] }
    (nested.IsLegible ∧ flat.IsLegible) ∧ (nested.text = flat.text ↔
      nested.isStatic = flat.isStatic ∧ nested.returnType = flat.returnType ∧
        nested.declaringType = flat.declaringType ∧ nested.name = flat.name ∧
        nested.parameters.map (·.ty) = flat.parameters.map (·.ty)) := by
  intro nested flat
  have hnested : nested.IsLegible := by decide +kernel
  have hflat : flat.IsLegible := by decide +kernel
  exact ⟨⟨hnested, hflat⟩, text_eq_iff hnested hflat⟩

end Signature

end ThreeAddress
