import Foreman.Pool

/-! A pool at work. Its owner makes one call after the other: it starts jobs, and it
stops the pool, which takes until all jobs have ended. Each accepted job has a thread of
its own, and the threads go on in any order, between the calls and while the owner waits. -/

namespace Foreman.Pool

/-- A thread of a pool. It is made with its job and with the `title` that it takes for
its name as soon as it begins. -/
structure Thread (ι : Type) where
  job : ι
  title : String
  name : String := ""
  begun : Bool := false
  deriving DecidableEq

/-- What happens at a pool. Threads are counted from zero. -/
inductive Event (ι : Type) where
  | accepted (job : ι)
  | refused (fault : Fault)
  /-- The job begins on a thread that has this name now. -/
  | began (thread : Nat) (job : ι) (name : String)
  | ended (thread : Nat) (fault : Option Fault)
  /-- The owner asks the pool to stop. -/
  | stopping
  /-- The pool has stopped, and the owner gets this fault. -/
  | stopped (fault : Option Fault)
  deriving DecidableEq

inductive Move (ι : Type) where
  | execute (job : ι)
  | stop
  /-- The owner finds that all jobs have ended. -/
  | join
  | begin (thread : Nat)
  /-- The job of the thread ends, perhaps by letting a fault escape. -/
  | finish (thread : Nat) (fault : Option Fault)

structure Shift (ι : Type) where
  pool : Pool
  /-- What the thread of the owner is called. -/
  owner : String
  /-- The owner has asked the pool to stop and has no answer yet. -/
  waiting : Bool := false
  threads : List (Thread ι) := []
  events : List (Event ι) := []
  deriving DecidableEq

namespace Shift

variable {ι : Type}

/-- A new pool. -/
def fresh (name : String) (capacity : Nat) (owner : String) : Shift ι :=
  { pool := { name, capacity }, owner }

variable (shift : Shift ι)

def happen (event : Event ι) : Shift ι := { shift with events := shift.events ++ [event] }

def execute (job : ι) : Shift ι :=
  match shift.pool.execute with
  | .error refusal => shift.happen (.refused refusal.fault)
  | .ok (number, pool) =>
    let thread : Thread ι := { job, title := shift.pool.threadName number }
    { shift with pool, threads := shift.threads ++ [thread] }.happen (.accepted job)

def stop : Shift ι := { shift with pool := shift.pool.close, waiting := true }.happen .stopping

def join (stopped : Option Fault × Pool) : Shift ι :=
  { shift with pool := stopped.2, waiting := false }.happen (.stopped stopped.1)

def begin (number : Nat) (thread : Thread ι) : Shift ι :=
  let named := { thread with name := thread.title, begun := true }
  { shift with threads := shift.threads.set number named }.happen
    (.began number named.job named.name)

def finish (number : Nat) (fault : Option Fault) : Shift ι :=
  { shift with pool := shift.pool.finish number fault }.happen (.ended number fault)

/-- The thread runs its job. -/
def isBusy (number : Nat) (thread : Thread ι) : Bool :=
  thread.begun && shift.pool.jobs[number]? = some .running

/-- One move, if it can be made now. The owner makes no call before it has the answer to
the last one. -/
def step : Move ι → Option (Shift ι)
  | .execute job => if shift.waiting then none else some (shift.execute job)
  | .stop => if shift.waiting then none else some shift.stop
  | .join => if shift.waiting then shift.pool.stop.map shift.join else none
  | .begin number =>
    match shift.threads[number]? with
    | some thread => if thread.begun then none else some (shift.begin number thread)
    | none => none
  | .finish number fault =>
    match shift.threads[number]? with
    | some thread => if shift.isBusy number thread then some (shift.finish number fault) else none
    | none => none

/-- Makes the moves one after the other. There is nothing after one that cannot be made. -/
def play (shift : Shift ι) : List (Move ι) → Option (Shift ι)
  | [] => some shift
  | move :: rest => (shift.step move).bind (·.play rest)

end Shift
end Foreman.Pool
