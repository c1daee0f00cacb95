import ThreeAddress.Ty

namespace ThreeAddress

structure Parameter where
  name : Option String
  ty : Ty
deriving DecidableEq, Repr, Inhabited

structure Signature where
  declaringType : String
  name : String
  isStatic : Bool := false
  isAbstract : Bool := false
  parameters : List Parameter
  returnType : Ty
deriving DecidableEq, Repr, Inhabited

namespace Signature

def flags (m : Signature) : Nat :=
  (if m.isStatic then 0x10 else 0) + (if m.isAbstract then 0x400 else 0)

def receiverType (m : Signature) : Ty := .object m.declaringType

def qualifiedName (m : Signature) : String := m.declaringType ++ "::" ++ m.name

def text (m : Signature) : String :=
  (if m.isStatic then "static " else "") ++ m.returnType.text ++ " " ++ m.qualifiedName ++ "(" ++
    ", ".intercalate (m.parameters.map fun p ↦ p.ty.text) ++ ")"

end Signature

end ThreeAddress
