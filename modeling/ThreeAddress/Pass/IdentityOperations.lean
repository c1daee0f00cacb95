import ThreeAddress.Pass.InPlace

namespace ThreeAddress

namespace IdentityOperations

def isFloating (b : Body) : Value → Bool
  | .var x => ((b.tableType? x).map Ty.isFloating).getD false
  | .const c => c.ty.isFloating

def isConst (test : Constant → Bool) (v : Value) : Bool := (v.const?.map test).getD false

/-- The operand that an operation equals, by an identity on its right or else on its left. -/
def survivor? (op : BinaryOp) (left right : Value) : Option Value :=
  match op with
  | .add | .or | .xor => either Constant.isZero
  | .mul => either Constant.isOne
  | .and => either Constant.hasAllBits
  | .sub | .shl | .shr | .ushr => onRight Constant.isZero
  | .div => onRight Constant.isOne
  | .rem => none
where
  onRight (test : Constant → Bool) : Option Value :=
    if isConst test right then some left else none
  either (test : Constant → Bool) : Option Value :=
    if isConst test right then some left else if isConst test left then some right else none

def simplify (b : Body) : Stmt → Option (Stmt × EventKind × String)
  | .assign place (.binary op left right) =>
    -- adding zero can change the sign of a floating point zero
    if isFloating b left || isFloating b right then none
    else (survivor? op left right).map fun v ↦
      (.assign place (.value v), .constantFolded, "identity operand of " ++ op.symbol ++ " dropped")
  | _ => none

end IdentityOperations

def Pass.identityOperations : Pass where
  name := "identity-operation-elimination"
  description := "Removes arithmetic and logical operations with an identity operand"
  run _ b := (Revision.perStmt (IdentityOperations.simplify b) b).finish

end ThreeAddress
