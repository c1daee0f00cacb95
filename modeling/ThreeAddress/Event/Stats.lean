import ThreeAddress.Event.Log

namespace ThreeAddress

structure Span where
  nanoseconds : Nat := 0
deriving DecidableEq, Repr, Inhabited

namespace Span

def hundredths (n unit : Nat) : Nat :=
  let q := n * 100 / unit
  let r := 2 * (n * 100 % unit)
  if r < unit then q else if unit < r then q + 1 else q + q % 2

def twoPlaces (h : Nat) : String :=
  toString (h / 100) ++ "." ++ toString (h % 100 / 10) ++ toString (h % 10)

def text (t : Span) : String :=
  let n := t.nanoseconds
  if 1000000000 ≤ n then twoPlaces (hundredths n 1000000000) ++ "s"
  else if 1000000 ≤ n then twoPlaces (hundredths n 1000000) ++ "ms"
  else if 1000 ≤ n then twoPlaces (hundredths n 1000) ++ "µs"
  else twoPlaces (hundredths n 1) ++ "ns"

end Span

structure Stats where
  methodsChanged : Nat
  methodsLowered : Nat
  stubs : Nat
  unitsRemoved : Nat
  localsRemoved : Nat
  branchesFolded : Nat
  copiesPropagated : Nat
  comparisonsExpanded : Nat
  localsRenamed : Nat
  errors : Nat
  time : Span := {}
deriving DecidableEq, Repr, Inhabited

namespace EventLog

def stats (log : EventLog) : Stats where
  methodsChanged := log.affectedMethods
  methodsLowered := log.count .methodLowered
  stubs := log.count .stubSubstituted
  unitsRemoved :=
    log.count .unitRemoved + log.count .allocationRemoved + log.count .assignmentRemoved
  localsRemoved := log.count .localRemoved
  branchesFolded := log.count .branchFolded
  copiesPropagated := log.count .copyPropagated
  comparisonsExpanded := log.count .comparisonExpanded
  localsRenamed := log.count .localRenamed
  errors := log.count .error

end EventLog

namespace Stats

def text (s : Stats) : String :=
  let parts := [(s.methodsLowered, " methods lowered"), (s.stubs, " stubbed"),
    (s.unitsRemoved, " units removed"), (s.localsRemoved, " locals removed"),
    (s.branchesFolded, " branches folded"), (s.comparisonsExpanded, " conditions rewritten"),
    (s.errors, " errors")].filterMap fun (n, label) ↦
      if n = 0 then none else some (toString n ++ label)
  let parts := if s.time.nanoseconds = 0 then parts else parts ++ [s.time.text]
  if parts.isEmpty then "no changes" else ", ".intercalate parts

end Stats

end ThreeAddress
