namespace ThreeAddress

/-- The static type of a local, constant or expression. `void` types no value: it is a return type
only. `null` is the type of the null reference. -/
inductive Ty where
  | void
  | boolean
  | byte
  | char
  | short
  | int
  | long
  | float
  | double
  | object (name : String)
  | array (element : Ty)
  | null
deriving DecidableEq, Repr, Inhabited

namespace Ty

def isPrimitive : Ty → Bool
  | boolean | byte | char | short | int | long | float | double => true
  | void | object _ | array _ | null => false

def isIntegral : Ty → Bool
  | byte | char | short | int | long => true
  | _ => false

def isReference : Ty → Bool
  | object _ | array _ | null => true
  | _ => false

def isFloating : Ty → Bool
  | float | double => true
  | _ => false

def tempLetter : Ty → String
  | boolean => "z"
  | byte => "b"
  | char => "c"
  | short => "s"
  | int => "i"
  | long => "l"
  | float => "f"
  | double => "d"
  | void | object _ | array _ | null => "r"

def text : Ty → String
  | void => "void"
  | boolean => "bool"
  | byte => "byte"
  | char => "char"
  | short => "short"
  | int => "int"
  | long => "long"
  | float => "float"
  | double => "double"
  | object name => name
  | array element => element.text ++ "[]"
  | null => "null_type"

def string : Ty := object "System.String"

end Ty

end ThreeAddress
