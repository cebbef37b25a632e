import Foreman.Gate.Machine

/-! Transforms given as data. A scripted pass asks for locks and gives locks
back in a fixed order, notes what it saw, and ends as the script says. -/

namespace Foreman.Gate

inductive Command where
  | tryLock (lock : Lock)
  | unlock (lock : Lock)
  /-- Gives back what the pass acquired so far. -/
  | release
  | notify
  deriving DecidableEq

/-- One command of a pass, with the answer to an attempt to lock. -/
def Command.perform (pass : Pass) : Command → Option Bool × Pass
  | .tryLock lock =>
    let (answer, pass) := pass.tryLock lock
    (some answer, pass)
  | .unlock lock => (none, pass.unlock lock)
  | .release => (none, pass.release)
  | .notify => (none, pass.notify)

/-- The commands in order, with the answers to the attempts to lock. -/
def perform (pass : Pass) : List Command → List Bool × Pass
  | [] => ([], pass)
  | command :: rest =>
    let (answer, pass) := command.perform pass
    let (answers, pass) := perform pass rest
    (answer.toList ++ answers, pass)

structure ScriptedPass where
  commands : List Command := []
  ending : Ending Unit := .finished ()

/-- What a scripted pass notes before it ends. -/
structure Record where
  answers : List Bool
  acquired : Nat
  changed : Bool
  deriving DecidableEq

/-- The records of all threads, each with the number of its thread. -/
abbrev Records := List (Nat × Record)

/-- The records of one thread, oldest first. -/
def Records.of (records : Records) (index : Nat) : List Record :=
  records.filterMap fun entry => if entry.1 = index then some entry.2 else none

/-- The pass that follows `earlier` others. A script that has come to its end
finishes without a record. -/
def scripted (index : Nat) (script : List ScriptedPass) : Transform Records :=
  fun earlier records pass =>
    match script[earlier]? with
    | none => { ending := .finished (), shared := records, pass }
    | some scripted =>
      let (answers, pass) := perform pass scripted.commands
      let record : Record :=
        { answers, acquired := pass.book.acquired.length, changed := pass.book.changed }
      { ending := scripted.ending, shared := records ++ [(index, record)], pass }

end Foreman.Gate
