import ThreeAddress.Body.Basic

namespace ThreeAddress.Body

/-- A unit that is named gets the number of those that have one, also when it has one already. -/
def enterLabel (b : Body) (labels : List (UnitId × Nat)) (u : UnitId) : List (UnitId × Nat) :=
  if b.isReferenced u then labels.filter (·.1 ≠ u) ++ [(u, labels.length)] else labels

def labels (b : Body) : List (UnitId × Nat) := b.ids.foldl b.enterLabel []

def label? (b : Body) (u : UnitId) : Option Nat := b.labels.lookup u

def labelText (b : Body) (u : UnitId) : String :=
  match b.label? u with
  | some n => "label" ++ toString n
  | none => u.text

def localText (b : Body) (x : LocalId) : String :=
  match b.local? x with
  | some l => l.name
  | none => x.text

def valueText (b : Body) : Value → String
  | .var x => b.localText x
  | .const c => c.text

def comparisonText (b : Body) (c : Comparison) : String :=
  b.valueText c.left ++ " " ++ c.op.symbol ++ " " ++ b.valueText c.right

def callText (b : Body) (c : Call) : String :=
  let receiver := match c.receiver with
    | some v => b.valueText v ++ "."
    | none => ""
  c.dispatch.text ++ " " ++ receiver ++ "<" ++ c.method.declaringType ++ ": " ++
    c.method.returnType.text ++ " " ++ c.method.name ++ ">(" ++
    ", ".intercalate (c.arguments.map b.valueText) ++ ")"

def fieldText (b : Body) (receiver : Option Value) (ref : Field) : String :=
  match receiver with
  | some v => b.valueText v ++ "." ++ ref.name
  | none => ref.declaringType ++ "." ++ ref.name

def elementText (b : Body) (array index : Value) : String :=
  b.valueText array ++ "[" ++ b.valueText index ++ "]"

def exprText (b : Body) : Expr → String
  | .value v => b.valueText v
  | .compare c => b.comparisonText c
  | .binary op left right => b.valueText left ++ " " ++ op.symbol ++ " " ++ b.valueText right
  | .unary op operand => op.symbol ++ " " ++ b.valueText operand
  | .cast ty v => "(" ++ ty.text ++ ") " ++ b.valueText v
  | .new ty => "new " ++ ty.text
  | .newArray element size => "newarray (" ++ element.text ++ ")[" ++ b.valueText size ++ "]"
  | .instanceOf ty v => b.valueText v ++ " instanceof " ++ ty.text
  | .length array => "lengthof " ++ b.valueText array
  | .field receiver ref => b.fieldText receiver ref
  | .element array index => b.elementText array index
  | .invoke call => b.callText call

def placeText (b : Body) : Place → String
  | .var x => b.localText x
  | .field receiver ref => b.fieldText receiver ref
  | .element array index => b.elementText array index

def stmtText (b : Body) : Stmt → String
  | .identity x source => b.localText x ++ " := " ++ source.text
  | .assign place expr => b.placeText place ++ " = " ++ b.exprText expr
  | .branch condition target =>
    "if " ++ b.comparisonText condition ++ " goto " ++ b.labelText target
  | .goto target => "goto " ++ b.labelText target
  | .switch key targets default =>
    let cases := targets.zipIdx.map fun (target, i) ↦
      "case " ++ toString i ++ ": goto " ++ b.labelText target
    "switch(" ++ b.valueText key ++ ") \x7b " ++ "; ".intercalate cases ++ "; default: goto " ++
      b.labelText default ++ " \x7d"
  | .invoke call => b.callText call
  | .ret none => "return"
  | .ret (some v) => "return " ++ b.valueText v
  | .throw v => "throw " ++ b.valueText v
  | .nop => "nop"

def localLines (b : Body) : List String :=
  b.locals.map (fun l ↦ "    " ++ l.text ++ ";") ++ (if b.locals.isEmpty then [] else [""])

def unitLines (b : Body) (u : CodeUnit) : List String :=
  (match b.label? u.id with
    | some n => ["  label" ++ toString n ++ ":"]
    | none => []) ++ ["    " ++ b.stmtText u.stmt ++ ";"]

def trapLine (b : Body) (t : Trap) : String :=
  "    catch " ++ t.exception.text ++ " from " ++ b.labelText t.first ++ " to " ++
    b.labelText t.last ++ " with " ++ b.labelText t.handler ++ ";"

def lines (b : Body) : List String :=
  b.localLines ++ b.units.flatMap b.unitLines ++ b.traps.map b.trapLine

def text (b : Body) : String := String.join (b.lines.map (· ++ "\n"))

end ThreeAddress.Body
