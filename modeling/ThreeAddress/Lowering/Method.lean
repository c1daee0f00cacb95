import ThreeAddress.Fragment.Merge
import ThreeAddress.Lowering.Batch
import ThreeAddress.Lowering.Stub
import ThreeAddress.Pipeline

namespace ThreeAddress

structure LoweringOptions where
  /-- Whether a stub stands in for a method with a recoverable error. -/
  stubOnError : Bool := true
  validate : Bool := true
  stubException : String := "System.Exception"
  /-- Whether the methods of a batch may be lowered side by side. The results are the same. -/
  parallel : Bool := true
  /-- What events put in front of the message of an error, such as the place of its cause. -/
  place : String := ""
deriving DecidableEq, Repr, Inhabited

abbrev FrontEnd (α : Type) := α → Scope → Except Error Fragment

structure Method (α : Type) where
  signature : Signature
  declarations : List Variable := []
  code : α

structure Lowered where
  body : Body
  stubbed : Bool
deriving DecidableEq, Repr, Inhabited

structure Lowering (α : Type) where
  frontEnd : FrontEnd α
  options : LoweringOptions := {}
  pipeline : Pipeline := { Pipeline.standard with validate := options.validate }

namespace Lowering

variable {α : Type}

/-- The body of a method before any pass. -/
def assemble (l : Lowering α) (input : Method α) : Except Error Body := do
  let (scope, body) := declareAll (← prologue input.signature) input.declarations
  body.merge (← l.frontEnd input.code scope)

def lower (l : Lowering α) (input : Method α) : List Event × Except Error Body :=
  match l.assemble input with
  | .error e => ([], .error e)
  | .ok body =>
    let run := l.pipeline.run input.signature body
    match run.result with
    | .error e => (run.events, .error e)
    | .ok _ =>
      (run.events ++
        [⟨.methodLowered, some input.signature.text, none,
          toString run.body.size ++ " units, " ++ toString run.body.locals.length ++ " locals",
          none⟩],
        .ok run.body)

/-- Lowers a method, or lets a stub stand in for it if the error allows that. -/
def lowerWithStub (l : Lowering α) (input : Method α) :
    List Event × Except Error Lowered :=
  let (events, result) := l.lower input
  let closing (kind : EventKind) (e : Error) : List Event :=
    events ++ [⟨kind, some input.signature.text, none, e.textFrom l.options.place, none⟩]
  match result with
  | .ok body => (events, .ok ⟨body, false⟩)
  | .error e =>
    if l.options.stubOnError && e.isRecoverable then
      match stub input.signature l.options.stubException with
      | .ok body => (closing .stubSubstituted e, .ok ⟨body, true⟩)
      | .error f => (events, .error f)
    else (closing .error e, .error e)

/-- Adds the lowered methods to a batch, up to the first that fails. Abstract ones have no body. -/
def lowerInto (l : Lowering α) (c : Batch) :
    List (Method α) → Except Error Batch
  | [] => .ok c
  | input :: rest =>
    if input.signature.isAbstract then l.lowerInto c rest
    else
      let (events, result) := l.lowerWithStub input
      match result with
      | .error e => .error e
      | .ok lowered =>
        l.lowerInto ({ c with log := c.log.append events }.insert input.signature.text
          lowered.body lowered.stubbed) rest

def lowerBatch (l : Lowering α) (inputs : List (Method α)) : Except Error Batch :=
  l.lowerInto {} inputs

end Lowering

end ThreeAddress
