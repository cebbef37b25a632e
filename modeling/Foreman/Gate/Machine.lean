import Foreman.Gate.Ending

/-! The gate and the threads at it. One thread at a time is inside and runs its
transform. A thread whose pass wants to run again falls asleep and remembers the
generation of the gate; it may be woken at any time, but goes inside again only
once the generation has moved on. A signal from outside moves the generation on
in one step and wakes the sleepers in a later one. -/

namespace Foreman.Gate

/-- What one pass of a transform leaves. -/
structure Turn (ρ : Type) where
  ending : Ending Unit
  /-- The state beside the lock table. -/
  shared : ρ
  pass : Pass

/-- A transform knows how many of its passes have returned. -/
abbrev Transform (ρ : Type) := Nat → ρ → Pass → Turn ρ

inductive Place where
  /-- Wants to go inside. -/
  | entering
  | inside
  /-- Waits until the generation is no longer the one it has seen. -/
  | asleep (seen : Nat)
  /-- Was woken and wants the gate, to look at the generation. -/
  | awake (seen : Nat)
  /-- Wants the gate, to move the generation on. -/
  | signalling
  /-- Has moved the generation on; the sleepers are not woken yet. -/
  | announcing
  | gone (fault : Option Fault)
  deriving DecidableEq

structure Thread (ρ : Type) where
  place : Place
  transform : Transform ρ
  passes : Nat := 0

structure Machine (ρ : Type) where
  locks : Locks := {}
  shared : ρ
  generation : Nat := 0
  holder : Option Nat := none
  threads : List (Thread ρ) := []

/-- A move of a thread, named for what the thread does. -/
inductive Move where
  | enter
  | leave
  /-- Wakes up for no reason. -/
  | stir
  | look
  | signal
  | announce
  deriving DecidableEq

variable {ρ : Type}

def Place.wake : Place → Place
  | .asleep seen => .awake seen
  | place => place

namespace Machine

variable (machine : Machine ρ)

def moveTo (index : Nat) (place : Place) : Machine ρ :=
  { machine with threads := machine.threads.modify index fun thread => { thread with place } }

def count (index : Nat) : Machine ρ :=
  { machine with
    threads := machine.threads.modify index fun thread =>
      { thread with passes := thread.passes + 1 } }

def wakeAll : Machine ρ :=
  { machine with
    threads := machine.threads.map fun thread => { thread with place := thread.place.wake } }

/-- The pass of the thread inside, up to its leaving. Its own signal wakes the
sleepers but not itself, since it falls asleep after it. -/
def leave (index : Nat) (thread : Thread ρ) : Machine ρ :=
  let turn := thread.transform thread.passes machine.shared { locks := machine.locks }
  let generation := publish turn.pass machine.generation
  let settled : Machine ρ :=
    { machine with
      locks := settle turn.ending turn.pass
      shared := turn.shared
      generation
      holder := none }
  let told := if turn.pass.book.changed then settled.wakeAll else settled
  match turn.ending with
  | .finished _ => (told.count index).moveTo index (.gone none)
  | .retry => (told.count index).moveTo index (.asleep generation)
  | .thrown fault => told.moveTo index (.gone (some fault))

/-- One move of one thread, if the thread can make it now. -/
def step (index : Nat) (move : Move) : Option (Machine ρ) :=
  match machine.threads[index]? with
  | none => none
  | some thread =>
    match move, thread.place, machine.holder with
    | .enter, .entering, none => some { machine.moveTo index .inside with holder := some index }
    | .leave, .inside, _ => some (machine.leave index thread)
    | .stir, .asleep seen, _ => some (machine.moveTo index (.awake seen))
    | .look, .awake seen, none =>
      if seen = machine.generation then some (machine.moveTo index (.asleep seen))
      else some { machine.moveTo index .inside with holder := some index }
    | .signal, .signalling, none =>
      some { machine.moveTo index .announcing with generation := machine.generation + 1 }
    | .announce, .announcing, _ => some (machine.wakeAll.moveTo index (.gone none))
    | _, _, _ => none

/-- A new thread that wants to run a transform under the gate. -/
def call (transform : Transform ρ) : Machine ρ :=
  { machine with threads := machine.threads ++ [{ place := .entering, transform }] }

/-- A new thread that signals a change from outside. -/
def notify : Machine ρ :=
  let idle : Transform ρ := fun _ shared pass => { ending := .finished (), shared, pass }
  { machine with threads := machine.threads ++ [{ place := .signalling, transform := idle }] }

end Machine
end Foreman.Gate
