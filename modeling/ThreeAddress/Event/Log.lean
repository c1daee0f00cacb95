import ThreeAddress.Event.Basic

namespace ThreeAddress

structure EventLog where
  events : List Event := []
deriving DecidableEq, Repr, Inhabited

namespace EventLog

def size (log : EventLog) : Nat := log.events.length

def isEmpty (log : EventLog) : Bool := log.events.isEmpty

def push (log : EventLog) (e : Event) : EventLog := ⟨log.events ++ [e]⟩

def append (log : EventLog) (es : List Event) : EventLog := ⟨log.events ++ es⟩

def count (log : EventLog) (k : EventKind) : Nat := log.events.countP (·.kind == k)

def ofMethod (log : EventLog) (method : String) : List Event :=
  log.events.filter (·.method == some method)

def ofPass (log : EventLog) (pass : String) : List Event :=
  log.events.filter (·.pass == some pass)

def changes (log : EventLog) : List Event := log.events.filter (·.kind.isChange)

def kinds (log : EventLog) : List EventKind := EventKind.all.filter (0 < log.count ·)

def affectedMethods (log : EventLog) : Nat :=
  (log.changes.filterMap (·.method)).eraseDups.length

/-- How often each transformation occurred. The parts are ordered as text, so that ten comes before
two. -/
def summary (log : EventLog) : String :=
  if log.isEmpty then "no events"
  else
    let parts := (log.kinds.filter EventKind.isChange).map fun k ↦
      toString (log.count k) ++ " " ++ k.description
    if parts.isEmpty then toString log.size ++ " events"
    else ", ".intercalate (parts.mergeSort fun s t ↦ decide (s ≤ t))

end EventLog

end ThreeAddress
