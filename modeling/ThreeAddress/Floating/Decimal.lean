import ThreeAddress.Floating.Basic

namespace ThreeAddress.Floating

/-- The real numbers that round to a positive finite datum, over the common scale `10 ^ scale`.
The ends belong to the interval when the mantissa is even. -/
structure Neighbourhood where
  value : Nat
  low : Nat
  high : Nat
  closed : Bool
  scale : Int
deriving Repr

/-- The neighbourhood of `m * 2 ^ q`. Its ends lie halfway to the next values; below a power of two
the next value is half as far away as above it, unless the exponent is the least. -/
def neighbourhood (f : FloatFormat) (m : Nat) (q : Int) : Neighbourhood :=
  let narrow := m == 1 <<< f.fractionBits && decide (f.leastExponent < q)
  -- A quarter of the last place is the unit, so that every halfway point is a whole number.
  let quarter := Nat.pow 5 (2 - q).toNat <<< (q - 2).toNat
  { value := 4 * m * quarter
    low := (if narrow then 4 * m - 1 else 4 * m - 2) * quarter
    high := (4 * m + 2) * quarter
    closed := m % 2 == 0
    scale := min (q - 2) 0 }

def Neighbourhood.contains (n : Neighbourhood) (x : Nat) : Bool :=
  if n.closed then decide (n.low ≤ x ∧ x ≤ n.high) else decide (n.low < x ∧ x < n.high)

structure Decimal where
  digits : Nat
  exponent : Int
deriving DecidableEq, Repr

/-- The first of the grids `10 ^ j`, `10 ^ (j - 1)`, … on which a neighbour of the value lies in its
neighbourhood, with the nearer of two such neighbours, a half going up. The value itself lies on the
last grid. -/
def Neighbourhood.search (n : Neighbourhood) : Nat → Decimal
  | 0 => ⟨n.value, n.scale⟩
  | j + 1 =>
    let step := Nat.pow 10 (j + 1)
    let below := n.value / step
    let above := below + 1
    let lowHit := n.contains (below * step)
    let highHit := n.contains (above * step)
    if highHit && (!lowHit || decide (above * step - n.value ≤ n.value - below * step)) then
      ⟨above, n.scale + (j + 1 : Nat)⟩
    else if lowHit then
      ⟨below, n.scale + (j + 1 : Nat)⟩
    else
      n.search j

/-- The shortest decimal that reads back, taken from the grid of its leading digit downwards. -/
def Neighbourhood.shortest (n : Neighbourhood) : Decimal :=
  n.search ((Nat.toDigits 10 n.value).length - 1)

def dropTrailingZeros (digits : List Char) : List Char × Nat :=
  let zeros := digits.reverse.takeWhile (· == '0')
  (digits.take (digits.length - zeros.length), zeros.length)

def Decimal.positional (d : Decimal) : String :=
  let (digits, zeros) := dropTrailingZeros (Nat.toDigits 10 d.digits)
  let exponent := d.exponent + zeros
  if 0 ≤ exponent then
    String.ofList (digits ++ List.replicate exponent.toNat '0')
  else
    let places := (-exponent).toNat
    if places < digits.length then
      let whole := digits.length - places
      String.ofList (digits.take whole ++ '.' :: digits.drop whole)
    else
      String.ofList ('0' :: '.' :: List.replicate (places - digits.length) '0' ++ digits)

def text (f : FloatFormat) : Floating → String
  | nan => "NaN"
  | infinite negative => if negative then "-inf" else "inf"
  | finite negative m q =>
    let magnitude := if m = 0 then "0" else (neighbourhood f m q).shortest.positional
    if negative then "-" ++ magnitude else magnitude

end ThreeAddress.Floating
