import Foreman.Cancel.Token
import Foreman.Executor.Action
import Foreman.Executor.Config
import Foreman.Executor.Driven
import Foreman.Pool

/-! The state of executors at work. A call runs one plan: the calling thread queues
the nodes and waits for the end, and its workers select and execute them. All
calls meet at one gate, share its lock table and heed one cancellation token. -/

namespace Foreman.Executor

/-- What is left to do of a request for cancellation. -/
inductive Request where
  | raise
  /-- The flag is set and the callbacks are still to be taken. -/
  | take
  /-- That many calls are still to be woken. -/
  | wake (left : Nat)
  deriving DecidableEq

/-- Where a worker is. A parked worker waits until the generation of the gate is
no longer the one that it has seen. -/
inductive Phase where
  /-- Has not run yet and has no lease. -/
  | hired
  | choosing (lease : Lease) (parked : Option Nat)
  /-- Owns the node, whose action has not started. -/
  | chosen (lease : Lease) (node : Nat)
  | acting (lease : Lease) (node : Nat) (rest : List Instruction) (request : Option Request)
  /-- The node has ended and is still to be completed. -/
  | completing (lease : Lease) (node : Nat)
  /-- No nodes remain. -/
  | retiring (lease : Lease)
  /-- A fault escaped. The node is the one that was not completed. -/
  | failing (lease : Lease) (node : Option Nat) (fault : Fault)
  | gone (fault : Option Fault)

inductive Stage where
  | arriving
  | launching
  | queueing (parked : Option Nat)
  /-- All nodes are queued. -/
  | reporting
  | awaiting (parked : Option Nat)
  /-- A fault escaped from one of the stages before. -/
  | aborting (fault : Fault)
  /-- Waits for the workers. A fault at hand is raised after that. -/
  | joining (fault : Option Fault)
  | gone (fault : Option Fault)

structure Call where
  executor : Executor
  /-- The number of the executor, for its statistics. -/
  owner : Nat := 0
  /-- The plan of the call, by its number. -/
  plan : Nat
  /-- Absent when the action holds no code. -/
  action : Option Action
  /-- The name of the calling thread, if it belongs to a pool. -/
  caller : Option String := none
  failures : List Failure := []
  stage : Stage := .arriving
  /-- The id of the callback that wakes the call on cancellation. -/
  wakeup : Option Nat := none
  /-- Some worker let a fault escape, so its node may never be completed. -/
  workerFailed : Bool := false
  workers : List Phase := []
  pool : Pool := { name := "", capacity := 0 }
  /-- What actions noted, with the ids of their nodes. -/
  notes : List (String × Note) := []

structure Stat where
  owner : Nat
  label : String
  deriving DecidableEq

/-- What happened, as far as it matters who did it and when. -/
inductive Happening where
  | raised
  | selected (call node : Nat)
  | started (call node : Nat)
  | ended (call node : Nat)
  deriving DecidableEq

structure World where
  locks : Locks := {}
  generation : Nat := 0
  /-- Each callback wakes the call of that number. -/
  token : Token Nat := {}
  /-- The flag was set after the last pass under the gate, so the next pass may
  have looked at it too early to see it. -/
  landed : Bool := false
  /-- Requests for cancellation that come from outside, each until it is done. -/
  requests : List (Option Request) := []
  plans : List Driven := []
  calls : List Call := []
  stats : List Stat := []
  log : List Line := []
  history : List Happening := []
  deriving Inhabited

namespace World

def setCall (world : World) (index : Nat) (call : Call) : World :=
  { world with calls := world.calls.set index call }

def setStage (world : World) (index : Nat) (stage : Stage) : World :=
  { world with calls := world.calls.modify index fun call => { call with stage } }

def setPhase (world : World) (index worker : Nat) (phase : Phase) : World :=
  { world with
    calls := world.calls.modify index fun call =>
      { call with workers := call.workers.set worker phase } }

def happen (world : World) (happening : Happening) : World :=
  { world with history := world.history ++ [happening] }

/-- Signals a change from outside the gate. -/
def signal (world : World) : World := { world with generation := world.generation + 1 }

def modifyPlan (world : World) (plan : Nat) (f : Plan → Plan) : World :=
  { world with
    plans := world.plans.modify plan fun driven => { driven with plan := f driven.plan } }

/-- Records the failure of a node, unless it has one. -/
def failNode (world : World) (plan node : Nat) (failure : Failure) : World :=
  world.modifyPlan plan (·.failNode node failure)

def record (world : World) (call : Call) (event : Event) : Option Fault × World :=
  let plan := ((world.plans[call.plan]?).map (·.plan.name)).getD ""
  let (fault, log) := Sink.record call.executor.sink plan event world.log
  (fault, { world with log })

def begin (world : World) (call : Call) : World :=
  { world with calls := world.calls ++ [call] }

end World
end Foreman.Executor
