import ThreeAddress.Comparison
import ThreeAddress.Stmt

namespace ThreeAddress

inductive Gap where
  | comparisonOpcode (op : CompareOp)
  | tooManyParameters (method : String)
  | construct (description : String)
deriving DecidableEq, Repr

namespace Gap

def message : Gap → String
  | comparisonOpcode op =>
    "relational expression '" ++ op.symbol ++ "' has no single-opcode lowering"
  | tooManyParameters method => method ++ " has more than 65535 parameters"
  | construct description => description

end Gap

inductive Violation where
  | noUnits
  | duplicateUnits
  | missingTarget (unit target : UnitId)
  | undeclaredLocal (unit : UnitId) (x : LocalId)
  | missingBoundary (boundary : UnitId)
  | invertedTrap (first last : UnitId)
  | danglingTrap (first last : UnitId)
  | appendedTwice (unit : UnitId)
  | removedMissing (unit : UnitId)
  | removedTrailing (unit : UnitId)
  | replacedByNothing (unit : UnitId)
  | replacedMissing (unit : UnitId)
  | trailingComparison (unit : UnitId)
  | notAComparison (unit : UnitId)
  | shortExpansion (unit : UnitId)
  | danglingLabel (label : String)
  | notAJump (label : String) (unit : UnitId)
  | missingJump (label : String) (unit : UnitId)
  | state (description : String)
deriving DecidableEq, Repr

namespace Violation

def message : Violation → String
  | noUnits => "body has no units"
  | duplicateUnits => "duplicate unit ids in body"
  | missingTarget unit target =>
    "unit " ++ unit.text ++ " jumps to missing unit " ++ target.text
  | undeclaredLocal unit x => "unit " ++ unit.text ++ " uses undeclared local " ++ x.text
  | missingBoundary boundary => "trap refers to missing unit " ++ boundary.text
  | invertedTrap first last =>
    "trap [" ++ first.text ++ ", " ++ last.text ++ ") is empty or inverted"
  | danglingTrap first last =>
    "trap [" ++ first.text ++ ", " ++ last.text ++ ") refers to a missing unit"
  | appendedTwice unit => "unit " ++ unit.text ++ " appended twice"
  | removedMissing unit => "cannot remove missing unit " ++ unit.text
  | removedTrailing unit =>
    "cannot remove trailing unit " ++ unit.text ++ " while it is referenced"
  | replacedByNothing unit => "unit " ++ unit.text ++ " replaced by nothing"
  | replacedMissing unit => "cannot replace missing unit " ++ unit.text
  | trailingComparison unit => "comparison at " ++ unit.text ++ " is the last unit"
  | notAComparison unit => "unit " ++ unit.text ++ " is not a comparison assignment"
  | shortExpansion unit => "comparison at " ++ unit.text ++ " expanded short"
  | danglingLabel label => "label '" ++ label ++ "' marks no unit"
  | notAJump label unit =>
    "jump fixup for '" ++ label ++ "' names non-jump unit " ++ unit.text
  | missingJump label unit => "jump fixup for '" ++ label ++ "' names missing unit " ++ unit.text
  | state description => description

end Violation

inductive Error where
  | unsupported (gap : Gap)
  | invariant (violation : Violation)
  | unresolvedLabel (label : String)
  /-- An error raised inside a named pass. -/
  | passFailed (pass : String) (source : Error)
deriving DecidableEq, Repr

namespace Error

def rootCause : Error → Error
  | passFailed _ source => source.rootCause
  | e => e

def isRecoverable : Error → Bool
  | unsupported _ => true
  | invariant _ => false
  | unresolvedLabel _ => true
  | passFailed _ source => source.isRecoverable

def textFrom (place : String) : Error → String
  | unsupported gap => "Unsupported - " ++ place ++ gap.message
  | invariant violation => "Invariant violated - " ++ place ++ violation.message
  | unresolvedLabel label => "Jump to unknown block label '" ++ label ++ "'"
  | passFailed pass source => "Pass '" ++ pass ++ "' failed: " ++ source.textFrom place

end Error

/-- A comparison has no instruction of its own on a stack machine: its opcode is always a gap. -/
def Comparison.opcode (c : Comparison) : Except Error UInt8 :=
  .error (.unsupported (.comparisonOpcode c.op))

end ThreeAddress
