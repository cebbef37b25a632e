import Foreman.Cancel.Token
import Foreman.Fault

/-! Callbacks and the threads that run them. A callback is a list of commands,
some of which call the token again. Threads take turns between any two commands;
each keeps a stack of what it has still to do. Every step uses up some of the
work that was given to the machine, so each thread comes to an end. -/

namespace Foreman.Cancel

inductive Command where
  | log (text : String)
  /-- Notes whether cancellation was requested. -/
  | state
  | request
  | remove (id : Nat)
  /-- Registers a callback. The callback may hold no code. -/
  | on (callback : Option (List Command))
  /-- Raises a fault if cancellation was requested. -/
  | check
  | throw (fault : Fault)
  deriving Inhabited

abbrev Callback := Option (List Command)

/-- A callback together with the number of the registration that brought it. -/
structure Registration where
  serial : Nat
  callback : Callback

inductive Frame where
  | body (rest : List Command)
  /-- The flag is set and the callbacks are still to be taken. -/
  | take
  /-- The callbacks that were taken and did not run yet. -/
  | deliver (rest : List (Nat × Registration))
  /-- Registration found the flag set, so the callback runs at once. -/
  | inline (registration : Registration)
  /-- Registration returns this id. -/
  | answer (id : Nat)

inductive Event where
  | logged (text : String)
  | observed (canceled : Bool)
  | raised
  | taken
  | enrolled (serial id : Nat)
  | invoked (serial : Nat)
  | removed (id : Nat)
  | answered (id : Nat)
  deriving DecidableEq

structure Thread where
  stack : List Frame := []
  /-- What ended the thread before its work was done. -/
  fault : Option Fault := none

structure Machine where
  token : Token Registration := {}
  threads : List Thread := []
  /-- How many registrations were asked for. -/
  serials : Nat := 0
  /-- What happened, oldest first. -/
  history : List Event := []

/-- The fault of a checkpoint that finds the flag set. -/
def canceledFault : Fault := .runtime "CancelToken: operation canceled"

structure Advance where
  token : Token Registration
  thread : Thread
  serials : Nat
  events : List Event := []

/-- One command of a body, of which `rest` is still to come. -/
def Command.advance (command : Command) (token : Token Registration) (serials : Nat)
    (rest : List Command) (stack : List Frame) : Advance :=
  let on : Thread := { stack := .body rest :: stack }
  match command with
  | .log text => { token, thread := on, serials, events := [.logged text] }
  | .state => { token, thread := on, serials, events := [.observed token.canceled] }
  | .request =>
    match token.raise with
    | (true, token) =>
      { token, thread := { stack := .take :: .body rest :: stack }, serials, events := [.raised] }
    | (false, token) => { token, thread := on, serials }
  | .remove id => { token := token.remove id, thread := on, serials, events := [.removed id] }
  | .on callback =>
    let registration : Registration := { serial := serials, callback }
    match token.enroll registration with
    | (some id, token) =>
      { token, thread := on, serials := serials + 1
        events := [.enrolled serials id, .answered id] }
    | (none, token) =>
      { token, serials := serials + 1
        thread := { stack := .inline registration :: .answer 0 :: .body rest :: stack } }
  | .check =>
    if token.canceled then { token, thread := { fault := some canceledFault }, serials }
    else { token, thread := on, serials }
  | .throw fault => { token, thread := { fault := some fault }, serials }

/-- Runs a callback before the rest of the stack. One without code is passed over. -/
def Registration.invoke (registration : Registration) (token : Token Registration) (serials : Nat)
    (stack : List Frame) : Advance :=
  match registration.callback with
  | none => { token, thread := { stack }, serials }
  | some body =>
    { token, thread := { stack := .body body :: stack }, serials
      events := [.invoked registration.serial] }

def Frame.advance (frame : Frame) (token : Token Registration) (serials : Nat)
    (stack : List Frame) : Advance :=
  match frame with
  | .body [] | .deliver [] => { token, thread := { stack }, serials }
  | .body (command :: rest) => command.advance token serials rest stack
  | .take =>
    let (callbacks, token) := token.take
    { token, thread := { stack := .deliver callbacks :: stack }, serials, events := [.taken] }
  | .deliver ((_, registration) :: rest) =>
    registration.invoke token serials (.deliver rest :: stack)
  | .inline registration => registration.invoke token serials stack
  | .answer id => { token, thread := { stack }, serials, events := [.answered id] }

namespace Machine

/-- One step of a thread. There is none when the thread has ended. -/
def step (machine : Machine) (index : Nat) : Option Machine :=
  match machine.threads[index]? with
  | some { stack := frame :: stack, .. } =>
    let after := frame.advance machine.token machine.serials stack
    some
      { token := after.token
        threads := machine.threads.set index after.thread
        serials := after.serials
        history := machine.history ++ after.events }
  | _ => none

def spawn (machine : Machine) (commands : List Command) : Machine :=
  { machine with threads := machine.threads ++ [{ stack := [.body commands] }] }

end Machine

mutual
/-- An upper bound of the steps that a command can bring about. -/
def Command.weight : Command → Nat
  | .request => 3
  | .on callback => 3 + callbackWeight callback
  | _ => 1

def callbackWeight : Option (List Command) → Nat
  | none => 0
  | some body => 1 + bodyWeight body

def bodyWeight : List Command → Nat
  | [] => 0
  | command :: rest => command.weight + bodyWeight rest
end

/-- The work in callbacks that wait to be run. -/
def callbacksWeight : List (Nat × Registration) → Nat
  | [] => 0
  | entry :: rest => callbackWeight entry.2.callback + 1 + callbacksWeight rest

def Frame.weight : Frame → Nat
  | .body rest => 1 + bodyWeight rest
  | .take => 2
  | .deliver rest => 1 + callbacksWeight rest
  | .inline registration => 1 + callbackWeight registration.callback
  | .answer _ => 1

def stackWeight : List Frame → Nat
  | [] => 0
  | frame :: rest => frame.weight + stackWeight rest

def Thread.weight (thread : Thread) : Nat := stackWeight thread.stack

def threadsWeight : List Thread → Nat
  | [] => 0
  | thread :: rest => thread.weight + threadsWeight rest

def Machine.weight (machine : Machine) : Nat :=
  threadsWeight machine.threads + callbacksWeight machine.token.callbacks

end Foreman.Cancel
