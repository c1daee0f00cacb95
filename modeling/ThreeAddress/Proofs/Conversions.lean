import Mathlib.Data.Int.ModEq
import ThreeAddress.Proofs.Pass.Statements

namespace ThreeAddress

namespace Ty

variable {t u : Ty} {r s v : Int}

def width : Ty → Nat
  | byte => 8
  | char | short => 16
  | int => 32
  | long => 64
  | _ => 0

def isSigned : Ty → Bool
  | short | int | long => true
  | _ => false

def least (t : Ty) : Int := if t.isSigned then -2 ^ (t.width - 1) else 0

def values (t : Ty) : Set Int := {v | t.least ≤ v ∧ v < t.least + 2 ^ t.width}

instance (t : Ty) (v : Int) : Decidable (v ∈ t.values) :=
  inferInstanceAs (Decidable (t.least ≤ v ∧ v < t.least + 2 ^ t.width))

def wrap (t : Ty) (v : Int) : Int := t.least + (v - t.least) % 2 ^ t.width

def literal : Ty → Int → Constant
  | long, v => .long (.ofInt v)
  | _, v => .int (.ofInt v)

theorem modulus_pos (t : Ty) : (0 : Int) < 2 ^ t.width := Int.pow_pos (by decide)

theorem wrap_mem (t : Ty) (v : Int) : t.wrap v ∈ t.values := by
  have hpos := t.modulus_pos
  constructor
  · exact Int.le_add_of_nonneg_right (Int.emod_nonneg _ hpos.ne')
  · exact Int.add_lt_add_left (Int.emod_lt_of_pos _ hpos) _

theorem wrap_modEq (t : Ty) (v : Int) : t.wrap v ≡ v [ZMOD 2 ^ t.width] := by
  have h := (Int.mod_modEq (v - t.least) (2 ^ t.width)).add_left t.least
  rwa [add_sub_cancel] at h

theorem eq_of_modEq (hr : r ∈ t.values) (hs : s ∈ t.values) (h : r ≡ s [ZMOD 2 ^ t.width]) :
    r = s := by
  obtain ⟨hrlow, hrhigh⟩ := hr
  obtain ⟨hslow, hshigh⟩ := hs
  have hlt : |s - r| < 2 ^ t.width := abs_lt.2 ⟨by omega, by omega⟩
  have hzero : s - r = 0 := Int.eq_zero_of_abs_lt_dvd h.dvd hlt
  omega

theorem eq_wrap_iff : s ∈ t.values ∧ s ≡ v [ZMOD 2 ^ t.width] ↔ s = t.wrap v := by
  constructor
  · rintro ⟨hs, h⟩
    exact eq_of_modEq hs (t.wrap_mem v) (h.trans (t.wrap_modEq v).symm)
  · rintro rfl
    exact ⟨t.wrap_mem v, t.wrap_modEq v⟩

theorem wrap_of_mem (h : v ∈ t.values) : t.wrap v = v := (eq_wrap_iff.1 ⟨h, .rfl⟩).symm

theorem wrap_wrap (h : u.width ≤ t.width) (v : Int) : u.wrap (t.wrap v) = u.wrap v := by
  have ht : t.wrap v ≡ v [ZMOD 2 ^ u.width] := (t.wrap_modEq v).of_dvd (pow_dvd_pow 2 h)
  exact eq_wrap_iff.1 ⟨u.wrap_mem _, (u.wrap_modEq _).trans ht⟩

theorem wrap_of_unsigned (h : t.isSigned = false) (v : Int) : t.wrap v = v % 2 ^ t.width := by
  simp [wrap, least, h]

theorem wrap_of_signed (h : t.isSigned = true) (v : Int) : t.wrap v = v.bmod (2 ^ t.width) := by
  have hpos : 0 < 2 ^ t.width := Nat.two_pow_pos _
  have hlow := Int.le_bmod (x := v) hpos
  have hhigh := Int.bmod_lt (x := v) hpos
  have hmem : v.bmod (2 ^ t.width) ∈ t.values := by
    cases t with
    | short | int | long =>
      simp only [width] at hlow hhigh
      simp only [values, least, isSigned, width, Set.mem_ofPred_eq, if_pos]
      omega
    | _ => simp [isSigned] at h
  have hmod := Int.bmod_emod (x := v) (m := 2 ^ t.width)
  rw [Nat.cast_pow, Nat.cast_ofNat] at hmod
  exact (eq_wrap_iff.1 ⟨hmem, hmod⟩).symm

end Ty

namespace Constant

variable {c : Constant} {t u : Ty} {r v : Int} {w : Int64}

def value? (c : Constant) : Option Int := c.integer?.map Int64.toInt

theorem truncated?_of_integer? (h : c.integer? = some w) : c.truncated? = some w := by
  cases c <;> simp_all [truncated?, integer?, floating?]

theorem toInt_mem_values (w : Int64) : w.toInt ∈ Ty.long.values :=
  ⟨w.le_toInt, w.toInt_lt⟩

theorem convert?_eq_literal (hc : c.value? = some v) (ht : t.isIntegral = true) :
    c.convert? t = some (t.literal (t.wrap v)) := by
  obtain ⟨w, hw, rfl⟩ := Option.map_eq_some_iff.1 hc
  have htruncated := truncated?_of_integer? hw
  cases t with
  | byte | char =>
    rw [Ty.wrap_of_unsigned rfl]
    simp [convert?, htruncated, Ty.literal, Ty.width]
  | short =>
    rw [Ty.wrap_of_signed rfl]
    simp [convert?, htruncated, Ty.literal, Ty.width]
  | int =>
    have hcut : Int32.ofInt (w.toInt.bmod (2 ^ 32)) = Int32.ofInt w.toInt := by
      rw [Int32.ofInt_eq_iff_bmod_eq_toInt, Int.bmod_bmod]
      exact Int32.toInt_ofInt.symm
    rw [Ty.wrap_of_signed rfl]
    simp only [convert?, htruncated, Option.map_some, Ty.literal, Ty.width, hcut]
  | long =>
    rw [Ty.wrap_of_mem (toInt_mem_values w)]
    simp [convert?, htruncated, Ty.literal]
  | _ => simp [Ty.isIntegral] at ht

theorem value?_literal (ht : t.isIntegral = true) (hr : r ∈ t.values) :
    (t.literal r).value? = some r := by
  obtain ⟨hlow, hhigh⟩ := hr
  cases t with
  | long => exact congrArg some (Int64.toInt_ofInt_of_le hlow hhigh)
  | byte | char | short | int =>
    simp [Ty.least, Ty.isSigned, Ty.width] at hlow hhigh
    have hint : (Int32.ofInt r).toInt = r := Int32.toInt_ofInt_of_le (by omega) (by omega)
    simpa [Ty.literal, value?, integer?] using hint
  | _ => simp [Ty.isIntegral] at ht

theorem convert?_literal (ht : t.isIntegral = true) (hu : u.isIntegral = true)
    (h : u.width ≤ t.width) (hc : c.value? = some v) :
    (t.literal (t.wrap v)).convert? u = c.convert? u := by
  have hvalue := value?_literal ht (t.wrap_mem v)
  rw [convert?_eq_literal hvalue hu, convert?_eq_literal hc hu, Ty.wrap_wrap h]

/-- A conversion of an integer constant yields the one value of the type with the same residue. It
is the value itself if the type has that, and a further conversion to a type of no more bits
is the same from either constant. -/
theorem integer_conversion (hc : c.value? = some v) (ht : t.isIntegral = true) :
    ∃ r, (∀ s, s ∈ t.values ∧ s ≡ v [ZMOD 2 ^ t.width] ↔ s = r) ∧
      c.convert? t = some (t.literal r) ∧ (t.literal r).value? = some r ∧
      (v ∈ t.values → r = v) ∧
      ∀ u : Ty, u.isIntegral = true → u.width ≤ t.width →
        (t.literal r).convert? u = c.convert? u := by
  refine ⟨t.wrap v, fun s ↦ Ty.eq_wrap_iff, convert?_eq_literal hc ht, ?_, Ty.wrap_of_mem, ?_⟩
  · exact value?_literal ht (t.wrap_mem v)
  · intro u hu hwidth
    exact convert?_literal ht hu hwidth hc

theorem integer_conversion_short :
    (Constant.long 40000).convert? .short = some (.int (-25536)) ∧
      (Constant.int (-25536)).convert? .byte = (Constant.long 40000).convert? .byte := by
  have hlong : (Constant.long 40000).value? = some 40000 := by decide
  obtain ⟨r, hr, hshort, -, -, hthen⟩ := integer_conversion (t := .short) hlong rfl
  obtain rfl : -25536 = r := (hr (-25536)).1 ⟨by decide, by decide⟩
  exact ⟨hshort, hthen .byte rfl (by decide)⟩

end Constant

end ThreeAddress
