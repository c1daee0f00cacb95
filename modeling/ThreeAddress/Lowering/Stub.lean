import ThreeAddress.Lowering.Prologue

namespace ThreeAddress

namespace Lowering

/-- Binds the inputs, throws a local of the exception type, and closes with a return of the zero of
the return type. -/
def stub (m : Signature) (exception : String) : Except Error Body := do
  let (scope, body) ← prologue m
  let (thrown, _) := scope.temp (.object exception)
  let throwing := ((body.declareLocal thrown).push (.throw (.var thrown.id))).2
  return (throwing.push (.ret ((Constant.zero? m.returnType).map .const))).2

end Lowering

end ThreeAddress
