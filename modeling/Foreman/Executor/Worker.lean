import Foreman.Executor.Act
import Foreman.Executor.Passes

/-! The steps of a worker. It gets a lease of its own, then selects nodes and
executes them until none remain. A fault that escapes outside an action ends the
worker, which fails the run first. -/

namespace Foreman.Executor.World

/-- Whether a thread parked at this generation has to wait. -/
def waits (world : World) (parked : Option Nat) : Bool := parked = some world.generation

/-- Whether a pass of the call sees that cancellation was requested. A pass that
looked too early `missed` a request that landed before it ended. -/
def sees (world : World) (call : Call) (missed : Bool) : Bool :=
  call.executor.watches && world.token.canceled && !(missed && world.landed)

def leave (world : World) (index worker : Nat) (fault : Option Fault) : World :=
  { world with
    calls := world.calls.modify index fun call =>
      { call with
        workers := call.workers.set worker (.gone fault)
        pool := call.pool.finish worker fault } }

def addStat (world : World) (call : Call) (label : String) : World :=
  { world with stats := world.stats ++ [{ owner := call.owner, label }] }

def settleIn (world : World) (index worker : Nat) (call : Call) : World :=
  let (lease, locks) := world.locks.createChild call.executor.root
  { world with locks }.setPhase index worker (.choosing lease none)

/-- The worker selects a node, is done, or parks. -/
def choose (missed : Bool) (world : World) (index worker : Nat) (call : Call) (driven : Driven)
    (lease : Lease) : World :=
  let work := Scene.choose call.executor.sink (world.sees call missed) lease
  match world.pass index call driven work with
  | (.finished (some node), world) =>
    (world.happen (.selected index node)).setPhase index worker (.chosen lease node)
  | (.finished none, world) => world.setPhase index worker (.retiring lease)
  | (.retry, world) => world.setPhase index worker (.choosing lease (some world.generation))
  | (.thrown fault, world) => world.setPhase index worker (.failing lease none fault)

def complete (world : World) (index worker : Nat) (call : Call) (driven : Driven) (lease : Lease)
    (node : Nat) : World :=
  match world.pass index call driven (Scene.complete node) with
  | (.thrown fault, world) => world.setPhase index worker (.failing lease (some node) fault)
  | (_, world) => world.setPhase index worker (.choosing lease none)

/-- A worker whose work is done says so and reports its times. -/
def retire (world : World) (index worker : Nat) (call : Call) (lease : Lease) : World :=
  let label := call.pool.threadName worker
  match world.record call (.workerFinished label 0 0) with
  | (some fault, world) => world.setPhase index worker (.failing lease none fault)
  | (none, world) => (world.addStat call label).leave index worker none

/-- A worker that let a fault escape fails the run and ends. A fault in that
takes the place of the first. -/
def fail (world : World) (index worker : Nat) (call : Call) (driven : Driven) (lease : Lease)
    (node : Option Nat) (fault : Fault) : World :=
  match world.pass index call driven (Scene.failRun call.executor.sink lease node fault) with
  | (.thrown raised, world) => world.leave index worker (some raised)
  | (_, world) => world.leave index worker (some fault)

def advanceWorker (missed : Bool) (world : World) (index worker : Nat) (call : Call)
    (driven : Driven) : Phase → Option World
  | .hired => some (world.settleIn index worker call)
  | .choosing lease parked =>
    if world.waits parked then none
    else some (world.choose missed index worker call driven lease)
  | .chosen lease position =>
    (driven.plan.node? position).map (world.start index worker call lease position)
  | .acting lease position rest request =>
    (driven.plan.node? position).bind fun node =>
      world.act index worker call driven.plan lease position node.id rest request
  | .completing lease node => some (world.complete index worker call driven lease node)
  | .retiring lease => some (world.retire index worker call lease)
  | .failing lease node fault => some (world.fail index worker call driven lease node fault)
  | .gone _ => none

def stepWorker (missed : Bool) (world : World) (index worker : Nat) : Option World :=
  match world.calls[index]? with
  | none => none
  | some call =>
    match world.plans[call.plan]?, call.workers[worker]? with
    | some driven, some phase => world.advanceWorker missed index worker call driven phase
    | _, _ => none

end Foreman.Executor.World
