import Midend.Handle

namespace Midend

/-- The kinds of events. Those down to `loopDetected` tell of a change. -/
inductive EventKind where
  | cellPromoted
  | phiInserted
  | instRemoved
  | blockRemoved
  | slotsAssigned
  | groupStructured
  | loopDetected
  | verificationFailed
  | passStarted
  | passCompleted
  | info
  | warning
  | error
deriving DecidableEq, Repr

namespace EventKind

def all : List EventKind :=
  [cellPromoted, phiInserted, instRemoved, blockRemoved, slotsAssigned, groupStructured,
    loopDetected, verificationFailed, passStarted, passCompleted, info, warning, error]

def text : EventKind → String
  | cellPromoted => "cell promoted"
  | phiInserted => "phi inserted"
  | instRemoved => "instruction removed"
  | blockRemoved => "block removed"
  | slotsAssigned => "slots assigned"
  | groupStructured => "group structured"
  | loopDetected => "loop detected"
  | verificationFailed => "verification failed"
  | passStarted => "pass started"
  | passCompleted => "pass completed"
  | info => "info"
  | warning => "warning"
  | error => "error"

/-- Whether the event tells of a change or of a result for a function. -/
def isTransformation : EventKind → Bool
  | cellPromoted | phiInserted | instRemoved | blockRemoved | slotsAssigned | groupStructured
  | loopDetected => true
  | _ => false

def isDiagnostic : EventKind → Bool
  | verificationFailed | info | warning | error => true
  | _ => false

end EventKind

structure Event where
  kind : EventKind
  func : Option FuncId := none
  block : Option Nat := none
  message : String := kind.text
  pass : Option String := none
deriving DecidableEq, Repr

/-- Kind, pass, place and message; a block shows only together with its function. -/
def Event.text (e : Event) : String :=
  let place := match e.func, e.block with
    | some f, some b => " " ++ f.text ++ ":b" ++ b.repr
    | some f, none => " " ++ f.text
    | none, _ => ""
  "[" ++ e.kind.text ++ "]" ++ (e.pass.map (" " ++ ·)).getD "" ++ place ++ ": " ++ e.message

/-- The events so far, oldest first. -/
structure EventLog where
  events : List Event := []
deriving DecidableEq, Repr, Inhabited

namespace EventLog

def size (l : EventLog) : Nat := l.events.length

def isEmpty (l : EventLog) : Bool := l.events.isEmpty

def record (l : EventLog) (e : Event) : EventLog := ⟨l.events ++ [e]⟩

def info (l : EventLog) (message : String) : EventLog := l.record { kind := .info, message }

def warn (l : EventLog) (message : String) : EventLog := l.record { kind := .warning, message }

def error (l : EventLog) (message : String) : EventLog := l.record { kind := .error, message }

def merge (l other : EventLog) : EventLog := ⟨l.events ++ other.events⟩

def ofKind (l : EventLog) (kind : EventKind) : List Event := l.events.filter (·.kind = kind)

def ofFunc (l : EventLog) (func : FuncId) : List Event := l.events.filter (·.func = some func)

def ofPass (l : EventLog) (pass : String) : List Event := l.events.filter (·.pass = some pass)

def diagnostics (l : EventLog) : List Event := l.events.filter (·.kind.isDiagnostic)

def has (l : EventLog) (kind : EventKind) : Bool := l.events.any (·.kind = kind)

def countOf (l : EventLog) (kind : EventKind) : Nat := (l.ofKind kind).length

/-- The kinds that occur, in order of declaration, with their numbers. -/
def counts (l : EventLog) : List (EventKind × Nat) :=
  (EventKind.all.map fun k => (k, l.countOf k)).filter fun e => e.2 ≠ 0

/-- The changes by kind, or the number of events if there are none. -/
def summary (l : EventLog) : String :=
  let parts := (l.counts.filter (·.1.isTransformation)).map fun e => e.2.repr ++ " " ++ e.1.text
  if l.isEmpty then "no events"
  else if parts.isEmpty then l.size.repr ++ " event(s), no changes"
  else ", ".intercalate parts

end EventLog

end Midend
