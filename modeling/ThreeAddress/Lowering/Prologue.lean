import ThreeAddress.Body.Edit
import ThreeAddress.Fragment.Scope
import ThreeAddress.Signature

namespace ThreeAddress

namespace Signature

/-- The inputs of a method with the names and types of the locals that take them: the receiver, if
there is one, and then the parameters. -/
def bindings (m : Signature) : List (String × Ty × Input) :=
  (if m.isStatic then [] else [("this", m.receiverType, Input.receiver)]) ++
    m.parameters.zipIdx.map fun (p, i) ↦ (p.name.getD ("arg" ++ toString i), p.ty, .parameter i)

end Signature

namespace Lowering

def bind (st : Scope × Body) (binding : String × Ty × Input) : Scope × Body :=
  let (name, ty, source) := binding
  let (l, scope) := st.1.declare name ty
  (scope, ((st.2.declareLocal l).push (.identity l.id source)).2)

/-- The scope and the body that a method starts with. Parameter numbers have sixteen bits. -/
def prologue (m : Signature) : Except Error (Scope × Body) :=
  if 65536 < m.parameters.length then
    .error (.unsupported (.tooManyParameters m.text))
  else .ok (m.bindings.foldl bind ({}, {}))

def declareOne (st : Scope × Body) (v : Variable) : Scope × Body :=
  let (l, scope) := st.1.declare v.name v.ty
  (scope, st.2.declareLocal l)

def declareAll (st : Scope × Body) (vs : List Variable) : Scope × Body :=
  vs.foldl declareOne st

end Lowering

end ThreeAddress
