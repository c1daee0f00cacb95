namespace ThreeAddress

/-- An interchange format: one sign bit, then `exponentBits` bits of biased exponent, then
`fractionBits` bits of fraction. -/
structure FloatFormat where
  fractionBits : Nat
  exponentBits : Nat
deriving DecidableEq, Repr

namespace FloatFormat

def single : FloatFormat := ⟨23, 8⟩

def double : FloatFormat := ⟨52, 11⟩

def specialField (f : FloatFormat) : Nat := (1 <<< f.exponentBits) - 1

def leastExponent (f : FloatFormat) : Int :=
  2 - ((1 <<< (f.exponentBits - 1) : Nat) : Int) - f.fractionBits

end FloatFormat

/-- A floating point datum. `finite negative m q` is `± m * 2 ^ q`; zero has both signs. -/
inductive Floating where
  | nan
  | infinite (negative : Bool)
  | finite (negative : Bool) (mantissa : Nat) (exponent : Int)
deriving DecidableEq, Repr

namespace Floating

def decode (f : FloatFormat) (bits : Nat) : Floating :=
  let fraction := bits % (1 <<< f.fractionBits)
  let exponent := (bits >>> f.fractionBits) % (1 <<< f.exponentBits)
  let negative := bits.testBit (f.fractionBits + f.exponentBits)
  if exponent = f.specialField then
    if fraction = 0 then infinite negative else nan
  else if exponent = 0 then
    finite negative fraction f.leastExponent
  else
    finite negative ((1 <<< f.fractionBits) + fraction) (f.leastExponent + (exponent - 1 : Nat))

def roundDiv (n d : Nat) : Nat :=
  let q := n / d
  let r := 2 * (n % d)
  if r < d then q else if d < r then q + 1 else q + q % 2

/-- The pattern, sign bit aside, nearest to `m * 2 ^ q`. Consecutive patterns are consecutive
values, so a mantissa that rounds up to the next power of two carries into the exponent field, and
a value past the largest finite one lands on infinity. -/
def roundMagnitude (f : FloatFormat) (m : Nat) (q : Int) : Nat :=
  if m = 0 then 0
  else
    let e := max f.leastExponent (q + m.log2 - f.fractionBits)
    let n := roundDiv (m <<< (q - e).toNat) (1 <<< (e - q).toNat)
    min (((e - f.leastExponent).toNat <<< f.fractionBits) + n) (f.specialField <<< f.fractionBits)

def signBit (f : FloatFormat) (negative : Bool) : Nat :=
  if negative then 1 <<< (f.fractionBits + f.exponentBits) else 0

def encode (f : FloatFormat) : Floating → Nat
  | nan => (f.specialField <<< f.fractionBits) + (1 <<< (f.fractionBits - 1))
  | infinite negative => signBit f negative + (f.specialField <<< f.fractionBits)
  | finite negative m q => signBit f negative + roundMagnitude f m q

def ofInt (v : Int) : Floating := finite (decide (v < 0)) v.natAbs 0

def signed (negative : Bool) (n : Nat) : Int := if negative then -n else n

def order? : Floating → Floating → Option Ordering
  | nan, _ => none
  | _, nan => none
  | infinite a, infinite b => some (if a = b then .eq else if a then .lt else .gt)
  | infinite a, finite .. => some (if a then .lt else .gt)
  | finite .., infinite b => some (if b then .gt else .lt)
  | finite a m q, finite b n r =>
    let e := min q r
    some (compare (signed a (m <<< (q - e).toNat)) (signed b (n <<< (r - e).toNat)))

/-- The datum cut to an integer and held between the least and the greatest 64-bit one. NaN is
zero. -/
def truncate : Floating → Int64
  | nan => 0
  | infinite negative => if negative then Int64.minValue else Int64.maxValue
  | finite negative m q =>
    let v := signed negative ((m <<< q.toNat) >>> (-q).toNat)
    Int64.ofInt (max Int64.minValue.toInt (min Int64.maxValue.toInt v))

end Floating

end ThreeAddress
