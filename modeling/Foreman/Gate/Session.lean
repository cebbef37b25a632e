import Foreman.Gate.Rest

/-! Scripted threads at a gate, started one after the other. After each start
the threads run until they rest. -/

namespace Foreman.Gate

structure Session where
  machine : Machine Records
  /-- The scripts of the threads. A thread that only signals has none. -/
  scripts : List (List ScriptedPass) := []

namespace Session

/-- More moves than the threads can make: each pass takes two, a signal takes
two and may wake every thread in vain once. -/
def moves (session : Session) : Nat :=
  2 * session.scripts.flatten.length + session.scripts.length * (session.scripts.length + 4)

def rest (session : Session) : Session :=
  { session with machine := session.machine.rest session.moves }

def call (session : Session) (script : List ScriptedPass) : Session :=
  let index := session.scripts.length
  rest
    { machine := session.machine.call (scripted index script)
      scripts := session.scripts ++ [script] }

def notify (session : Session) : Session :=
  rest { machine := session.machine.notify, scripts := session.scripts ++ [[]] }

def place? (session : Session) (index : Nat) : Option Place :=
  session.machine.threads[index]?.map (·.place)

def passes (session : Session) (index : Nat) : Nat :=
  (session.machine.threads[index]?.map (·.passes)).getD 0

/-- What the passes of a thread noted, oldest first. -/
def records (session : Session) (index : Nat) : List Record := session.machine.shared.of index

end Session
end Foreman.Gate
