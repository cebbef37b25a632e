import Foreman.Fault
import Foreman.Log

/-! What an executor logs. A sink records every line that it gets, and may raise
a fault after it has recorded one. -/

namespace Foreman

/-- A time in milliseconds as the log shows it. -/
def renderMillis (millis : Nat) : String :=
  if millis < 1000 then s!"{millis} ms"
  else
    let thousandths := toString (millis % 1000)
    let zeros := "".pushn '0' (3 - thousandths.length)
    s!"{millis / 1000}.{zeros}{thousandths} secs"

namespace Executor

/-- Times are in milliseconds. -/
inductive Event where
  | workersStart (workers : Nat)
  | nodeStarted (node thread : String)
  | nodeCompleted (node thread : String) (took : Nat)
  | workerFinished (thread : String) (busy idle : Nat)
  | planAborted (cause : String)
  deriving DecidableEq

namespace Event

def level : Event → Level
  | .workersStart _ | .workerFinished .. => .debug
  | .nodeStarted .. | .nodeCompleted .. => .info
  | .planAborted _ => .error

def name : Event → String
  | .workersStart _ => "workers_start"
  | .nodeStarted .. => "node_started"
  | .nodeCompleted .. => "node_completed"
  | .workerFinished .. => "worker_finished"
  | .planAborted _ => "plan_aborted"

def message : Event → String
  | .workersStart workers => s!"Using {workers} parallel executor threads"
  | .nodeStarted node thread => s!"{node} ({thread}) started."
  | .nodeCompleted node thread took =>
    let time := renderMillis took
    s!"{node} ({thread}) completed. Took {time}."
  | .workerFinished thread busy idle =>
    let working := renderMillis busy
    let waiting := renderMillis idle
    s!"Execution worker [{thread}] finished, busy: {working}, idle: {waiting}"
  | .planAborted cause => cause

def line (event : Event) (plan : String) : Line :=
  { level := event.level, trace := plan, component := "executor", event := event.name
    message := event.message }

end Event

/-- Decides whether recording an event raises a fault, given how many lines were
recorded before it. -/
abbrev Sink := Nat → Event → Option Fault

def Sink.record (sink : Option Sink) (plan : String) (event : Event) (log : List Line) :
    Option Fault × List Line :=
  match sink with
  | none => (none, log)
  | some sink => (sink log.length event, log ++ [event.line plan])

end Executor
end Foreman
