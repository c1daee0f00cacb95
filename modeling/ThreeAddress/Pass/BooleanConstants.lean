import ThreeAddress.Pass.InPlace

namespace ThreeAddress

namespace BooleanConstants

def retype : Value → Value
  | .const (.int n) => .const (.bool (n != 0))
  | v => v

def isBoolean (b : Body) : Value → Bool
  | .var x => b.tableType? x == some .boolean
  | .const c => c.ty == .boolean

def retypePartner (b : Body) (left right : Value) : Value × Value :=
  if isBoolean b left then (left, retype right)
  else if isBoolean b right then (retype left, right)
  else (left, right)

def retypeComparison (b : Body) (c : Comparison) : Comparison :=
  let (left, right) := retypePartner b c.left c.right
  { c with left, right }

def retypeCall (c : Call) : Call :=
  { c with
    arguments := c.arguments.zipIdx.map fun (v, i) ↦
      if c.method.parameters[i]? = some .boolean then retype v else v }

def isBooleanPlace (b : Body) : Place → Bool
  | .var x => b.tableType? x == some .boolean
  | .field _ ref => ref.ty == .boolean
  | .element .. => false

def retypeExpr (b : Body) (place : Place) : Expr → Expr
  | .value v => .value (if isBooleanPlace b place then retype v else v)
  | .binary op left right =>
    if op.isLogical then
      let (left, right) := retypePartner b left right
      .binary op left right
    else .binary op left right
  | .compare c => .compare (retypeComparison b c)
  | .invoke call => .invoke (retypeCall call)
  | e => e

def retypeStmt (m : Signature) (b : Body) : Stmt → Stmt
  | .assign place expr => .assign place (retypeExpr b place expr)
  | .ret (some v) => .ret (some (if m.returnType = .boolean then retype v else v))
  | .branch condition target => .branch (retypeComparison b condition) target
  | .invoke call => .invoke (retypeCall call)
  | s => s

def differences (s t : Stmt) : Nat := (s.values.zip t.values).countP fun (v, w) ↦ v ≠ w

def retyped? (m : Signature) (b : Body) (s : Stmt) : Option (Stmt × EventKind × String) :=
  let t := retypeStmt m b s
  let n := differences s t
  if n = 0 then none
  else some (t, .booleanNormalized, toString n ++ " integer constant(s) retyped to bool")

end BooleanConstants

def Pass.booleanConstants : Pass where
  name := "boolean-normalization"
  description := "Rewrites 0/1 integer constants used as booleans to boolean constants"
  run m b := (Revision.perStmt (BooleanConstants.retyped? m b) b).finish

end ThreeAddress
