import Foreman.Fault

/-! A named pool of threads. Each accepted job gets a thread of its own, and the
threads are numbered from one without gaps. The pool keeps the first fault that
a job lets escape and hands it out once, when it is stopped. -/

namespace Foreman

inductive Job where
  | running
  | ended (fault : Option Fault)
  deriving DecidableEq, Inhabited

def Job.hasEnded : Job → Bool
  | .running => false
  | .ended _ => true

structure Pool where
  name : String
  /-- How many jobs the pool accepts in its life. -/
  capacity : Nat
  /-- The accepted jobs, in order. -/
  jobs : List Job := []
  stopped : Bool := false
  /-- The fault that was recorded first and not handed out yet. -/
  failure : Option Fault := none
  deriving DecidableEq, Inhabited

namespace Pool

inductive Refusal where
  | stopped (pool : String)
  | full (pool : String) (capacity : Nat)
  deriving DecidableEq

def Refusal.message : Refusal → String
  | .stopped pool => s!"Worker pool '{pool}' has been stopped"
  | .full pool capacity => s!"Worker pool '{pool}' is at capacity ({capacity} threads)"

def Refusal.fault (refusal : Refusal) : Fault := .logic refusal.message

def threadName (pool : Pool) (job : Nat) : String := s!"{pool.name} Thread {job + 1}"

/-- The name of the current thread. A thread that runs no job has none. -/
def currentThreadName (pool : Pool) (job : Option Nat) : String := job.elim "" pool.threadName

/-- Starts a job. The answer is its number, counted from zero. -/
def execute (pool : Pool) : Except Refusal (Nat × Pool) :=
  if pool.stopped then .error (.stopped pool.name)
  else if pool.jobs.length ≥ pool.capacity then .error (.full pool.name pool.capacity)
  else .ok (pool.jobs.length, { pool with jobs := pool.jobs ++ [.running] })

/-- A pool with room for that many jobs which has started as many. -/
def launch (name : String) (count : Nat) : Pool :=
  { name, capacity := count, jobs := List.replicate count .running }

/-- A running job ends, perhaps by letting a fault escape. -/
def finish (pool : Pool) (job : Nat) (fault : Option Fault) : Pool :=
  if pool.jobs[job]? = some .running then
    { pool with
      jobs := pool.jobs.set job (.ended fault)
      failure := pool.failure <|> fault }
  else pool

def close (pool : Pool) : Pool := { pool with stopped := true }

/-- All jobs have ended, so their threads can be joined. -/
def isJoinable (pool : Pool) : Bool := pool.jobs.all (·.hasEnded)

/-- Closes the pool and, once all jobs have ended, hands out the first fault.
There is no answer while a job runs. -/
def stop (pool : Pool) : Option (Option Fault × Pool) :=
  if pool.isJoinable then some (pool.failure, { pool.close with failure := none }) else none

end Pool
end Foreman
