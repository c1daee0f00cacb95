import ThreeAddress.Body.Valid
import ThreeAddress.Event.Log
import ThreeAddress.Pass.JumpThreading
import ThreeAddress.Pass.ConstantBranches
import ThreeAddress.Pass.LocalPacking
import ThreeAddress.Pass.UnusedLocals
import ThreeAddress.Pass.TrapTightening
import ThreeAddress.Pass.TrapMerging
import ThreeAddress.Pass.TemporaryFolding
import ThreeAddress.Pass.NeedlessCasts
import ThreeAddress.Pass.IdentityOperations
import ThreeAddress.Pass.UnreachableUnits
import ThreeAddress.Pass.BooleanConstants
import ThreeAddress.Pass.CopyPropagation
import ThreeAddress.Pass.StoredComparisons
import ThreeAddress.Pass.DeadAllocations
import ThreeAddress.Pass.DeadAssignments
import ThreeAddress.Pass.Nops
import ThreeAddress.Pass.LocalNames

namespace ThreeAddress

def Pass.all : List Pass :=
  [jumpThreading, constantBranches, localPacking, unusedLocals, trapTightening, trapMerging,
    temporaryFolding, constantCasts, identityCasts, identityOperations, unreachableUnits,
    booleanConstants, copyPropagation, storedComparisons, deadAllocations, deadAssignments, nops,
    localNames]

structure Pipeline where
  passes : List Pass := []
  validate : Bool := true

namespace Pipeline

/-- The stages that bring a body into its normal form. Folding and propagation run again once
their own results and the expanded comparisons have opened new chances, and names come last. -/
def standard : Pipeline where
  passes :=
    [.jumpThreading, .localPacking, .unusedLocals, .trapTightening, .trapMerging, .temporaryFolding,
      .constantBranches, .constantCasts, .identityCasts, .identityOperations, .unreachableUnits,
      .booleanConstants, .copyPropagation, .booleanConstants, .copyPropagation, .storedComparisons,
      .deadAllocations, .deadAssignments, .unusedLocals, .constantBranches, .jumpThreading, .nops,
      .localNames]

/-- The outcome of a pipeline: the body as it was left, the events, and whether a pass changed the
body or why one failed. -/
structure Run where
  body : Body
  events : List Event
  result : Except Error Bool

def event (method pass : String) (n : Note) : Event :=
  ⟨n.kind, some method, n.location, n.message, some pass⟩

/-- One stage, between an event for its start and one for its end. A stage that fails, or that
leaves an invalid body behind, has no end. -/
def stage (validate : Bool) (m : Signature) (pass : Pass) (b : Body) : Run :=
  let run := pass.run m b
  let event := event m.text pass.name
  let events := event ⟨.passStarted, none, EventKind.passStarted.description⟩ ::
    run.notes.map event
  let result := do
    let changed ← run.result
    if validate then run.body.validate
    return changed
  match result with
  | .error e => ⟨run.body, events, .error (.passFailed pass.name e)⟩
  | .ok changed =>
    ⟨run.body,
      events ++ [event ⟨.passCompleted, none, if changed then "changed" else "unchanged"⟩],
      .ok changed⟩

/-- Runs the stages in order, up to the first that fails. -/
def runFrom (validate : Bool) (m : Signature) (changed : Bool) (b : Body) : List Pass → Run
  | [] => ⟨b, [], .ok changed⟩
  | pass :: rest =>
    let first := stage validate m pass b
    match first.result with
    | .error e => ⟨first.body, first.events, .error e⟩
    | .ok c =>
      let others := runFrom validate m (changed || c) first.body rest
      { others with events := first.events ++ others.events }

def run (p : Pipeline) (m : Signature) (b : Body) : Run := runFrom p.validate m false b p.passes

end Pipeline

end ThreeAddress
