namespace ThreeAddress

inductive EventKind where
  | branchFolded
  | localsPacked
  | localRemoved
  | trapTightened
  | trapRemoved
  | statementAggregated
  | castRemoved
  | constantFolded
  | unitRemoved
  | booleanNormalized
  | copyPropagated
  | comparisonExpanded
  | allocationRemoved
  | assignmentRemoved
  | localRenamed
  | passStarted
  | passCompleted
  | methodLowered
  | stubSubstituted
  | error
deriving DecidableEq, Repr, Inhabited

namespace EventKind

def all : List EventKind :=
  [branchFolded, localsPacked, localRemoved, trapTightened, trapRemoved, statementAggregated,
    castRemoved, constantFolded, unitRemoved, booleanNormalized, copyPropagated,
    comparisonExpanded, allocationRemoved, assignmentRemoved, localRenamed, passStarted,
    passCompleted, methodLowered, stubSubstituted, error]

def description : EventKind → String
  | branchFolded => "branch folded"
  | localsPacked => "locals packed"
  | localRemoved => "local removed"
  | trapTightened => "trap tightened"
  | trapRemoved => "trap removed"
  | statementAggregated => "statement aggregated"
  | castRemoved => "cast removed"
  | constantFolded => "constant folded"
  | unitRemoved => "unit removed"
  | booleanNormalized => "boolean normalized"
  | copyPropagated => "copy propagated"
  | comparisonExpanded => "condition rewritten"
  | allocationRemoved => "allocation removed"
  | assignmentRemoved => "assignment removed"
  | localRenamed => "local renamed"
  | passStarted => "pass started"
  | passCompleted => "pass completed"
  | methodLowered => "method lowered"
  | stubSubstituted => "stub substituted"
  | error => "error"

def isChange : EventKind → Bool
  | passStarted | passCompleted | methodLowered | stubSubstituted | error => false
  | _ => true

end EventKind

structure Event where
  kind : EventKind
  method : Option String := none
  location : Option Nat := none
  message : String := kind.description
  pass : Option String := none
deriving DecidableEq, Repr, Inhabited

namespace Event

def text (e : Event) : String :=
  match e.method with
  | some method => "[" ++ e.kind.description ++ "] " ++ method ++ ": " ++ e.message
  | none => "[" ++ e.kind.description ++ "] " ++ e.message

end Event

end ThreeAddress
