import ThreeAddress.Ty
import ThreeAddress.Floating.Decimal
import ThreeAddress.Text.Quoted

namespace ThreeAddress

/-- A literal. `int` also stands for bytes, characters and shorts. The floating constants hold the
bits of their format. -/
inductive Constant where
  | int (value : Int32)
  | long (value : Int64)
  | float (bits : UInt32)
  | double (bits : UInt64)
  | bool (value : Bool)
  | string (value : String)
  | null
deriving DecidableEq, Repr, Inhabited

namespace Constant

def ty : Constant → Ty
  | int _ => .int
  | long _ => .long
  | float _ => .float
  | double _ => .double
  | bool _ => .boolean
  | string _ => .string
  | null => .null

def floating? : Constant → Option Floating
  | float bits => some (.decode .single bits.toNat)
  | double bits => some (.decode .double bits.toNat)
  | _ => none

def ofSingle (x : Floating) : Constant := float (.ofNat (x.encode .single))

def ofDouble (x : Floating) : Constant := double (.ofNat (x.encode .double))

def integer? : Constant → Option Int64
  | int v => some v.toInt64
  | long v => some v
  | bool v => some (if v then 1 else 0)
  | _ => none

def real? (c : Constant) : Option Floating :=
  c.floating?.or (c.integer?.map fun v ↦ .decode .double ((Floating.ofInt v.toInt).encode .double))

def isZero (c : Constant) : Bool := c.integer? == some 0

def isOne (c : Constant) : Bool := c.integer? == some 1

def hasAllBits : Constant → Bool
  | int v => v == -1
  | long v => v == -1
  | bool v => v
  | _ => false

def truncated? (c : Constant) : Option Int64 :=
  (c.floating?.map Floating.truncate).or c.integer?

/-- The constant that a conversion to `t` yields, if it is known: integer types keep the low bits,
`byte` and `char` unsigned and the others signed, and a reference type accepts `null` and its own
constants. -/
def convert? (c : Constant) : Ty → Option Constant
  | .void => none
  | .boolean => c.truncated?.map fun v ↦ bool (v != 0)
  | .byte => c.truncated?.map fun v ↦ int (.ofInt (v.toInt % 256))
  | .char => c.truncated?.map fun v ↦ int (.ofInt (v.toInt % 65536))
  | .short => c.truncated?.map fun v ↦ int (.ofInt (v.toInt.bmod 65536))
  | .int => c.truncated?.map fun v ↦ int (.ofInt v.toInt)
  | .long => c.truncated?.map long
  | .float => c.real?.map ofSingle
  | .double => c.real?.map ofDouble
  | t => match c with
    | null => some null
    | string s => if t = .string then some (string s) else none
    | _ => none

def zero? : Ty → Option Constant
  | .void => none
  | .boolean => some (bool false)
  | .byte | .char | .short | .int => some (int 0)
  | .long => some (long 0)
  | .float => some (float 0)
  | .double => some (double 0)
  | .object _ | .array _ | .null => some null

def text : Constant → String
  | int v => toString v.toInt
  | long v => toString v.toInt ++ "L"
  | float bits => (Floating.decode .single bits.toNat).text .single ++ "F"
  | double bits => (Floating.decode .double bits.toNat).text .double
  | bool v => if v then "true" else "false"
  | string v => Text.quote v
  | null => "null"

def isNaN (c : Constant) : Bool := c.floating? == some .nan

def unsignZero (c : Constant) : Constant :=
  match c, c.floating? with
  | float _, some (.finite _ 0 _) => float 0
  | double _, some (.finite _ 0 _) => double 0
  | c, _ => c

end Constant

end ThreeAddress
