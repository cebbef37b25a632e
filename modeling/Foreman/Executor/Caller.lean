import Foreman.Executor.Worker

/-! The steps of the thread that makes a call. It starts the workers, queues the
nodes, waits for the end of the plan, takes the failures and joins the workers.
A fault on the way aborts the run first, so that the workers can end. -/

namespace Foreman.Executor.World

/-- The callback that wakes the call on cancellation is registered. After a
cancellation everybody is woken at once instead. -/
def register (world : World) (index : Nat) (call : Call) : World :=
  let arrived : Call := { call with stage := .launching }
  if call.executor.watches then
    match world.token.enroll index with
    | (some id, token) => { world with token }.setCall index { arrived with wakeup := some id }
    | (none, _) => world.signal.setCall index arrived
  else world.setCall index arrived

def launch (world : World) (index : Nat) (call : Call) (plan : Plan) : World :=
  let workers := call.executor.workers
  match world.record call (.workersStart workers) with
  | (some fault, world) => world.setStage index (.aborting fault)
  | (none, world) =>
    world.setCall index
      { call with
        stage := .queueing none
        workers := List.replicate workers .hired
        pool := .launch s!"Execution worker for '{plan.name}'" workers }

/-- What is ready is queued, until all is. -/
def queue (missed : Bool) (world : World) (index : Nat) (call : Call) (driven : Driven) : World :=
  let work := Scene.queue call.executor.sink (world.sees call missed)
  match world.pass index call driven work with
  | (.finished _, world) => world.setStage index .reporting
  | (.retry, world) => world.setStage index (.queueing (some world.generation))
  | (.thrown fault, world) => world.setStage index (.aborting fault)

/-- What the thread is called in the statistics. -/
def queuerLabel (call : Call) (plan : Plan) : String :=
  call.caller.getD s!"Execution queuer for '{plan.name}'"

def await (world : World) (index : Nat) (call : Call) (driven : Driven) : World :=
  match world.pass index call driven Scene.await with
  | (.finished _, world) => world.setStage index (.joining none)
  | (.retry, world) => world.setStage index (.awaiting (some world.generation))
  | (.thrown fault, world) => world.setStage index (.aborting fault)

/-- The run is aborted. A fault in that takes the place of the first. -/
def abort (world : World) (index : Nat) (call : Call) (driven : Driven) (fault : Fault) : World :=
  match world.pass index call driven (Scene.abortWith call.executor.sink fault ()) with
  | (.thrown raised, world) => world.setStage index (.joining (some raised))
  | (_, world) => world.setStage index (.joining (some fault))

/-- The call returns, or raises a fault. Its callback is forgotten. -/
def depart (world : World) (index : Nat) (call : Call) (fault : Option Fault) : World :=
  let token := call.wakeup.elim world.token world.token.remove
  { world with token }.setStage index (.gone fault)

/-- What the thread does next, by its stage. The fault that an ended worker left
behind is raised only if no other is at hand. -/
def advanceCaller (missed : Bool) (world : World) (index : Nat) (call : Call) (driven : Driven) :
    Option World :=
  match call.stage with
  | .arriving => some (world.register index call)
  | .launching => some (world.launch index call driven.plan)
  | .queueing parked =>
    if world.waits parked then none else some (world.queue missed index call driven)
  | .reporting =>
    some ((world.addStat call (queuerLabel call driven.plan)).setStage index (.awaiting none))
  | .awaiting parked =>
    if world.waits parked then none else some (world.await index call driven)
  | .aborting fault => some (world.abort index call driven fault)
  | .joining fault =>
    call.pool.stop.map fun stopped => world.depart index call (fault <|> stopped.1)
  | .gone _ => none

def stepCaller (missed : Bool) (world : World) (index : Nat) : Option World :=
  match world.calls[index]? with
  | none => none
  | some call =>
    match world.plans[call.plan]? with
    | none => none
    | some driven => world.advanceCaller missed index call driven

end Foreman.Executor.World
