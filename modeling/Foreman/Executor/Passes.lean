import Foreman.Executor.World
import Foreman.Gate.Ending

/-! The passes that an executor makes under the gate. Every pass of the queuer
and of a choosing worker looks first whether cancellation was requested. A fault
that breaks the plan's bookkeeping aborts the run. -/

namespace Foreman.Executor

/-- What one pass of a call can touch. -/
structure Scene where
  driven : Driven
  pass : Pass
  log : List Line
  failures : List Failure
  workerFailed : Bool

namespace Scene

/-- Skips what nobody has selected if cancellation was requested. -/
def poll (canceled : Bool) (scene : Scene) : Option Fault × Scene :=
  if canceled then
    match scene.driven.cancel with
    | (.error fault, driven) => (some fault, { scene with driven })
    | (.ok changed, driven) =>
      (none, { scene with driven, pass := if changed then scene.pass.notify else scene.pass })
  else (none, scene)

/-- Undoes the pass and fails the whole run. The log may raise a fault of its
own, but only after that. -/
def abortRun (sink : Option Sink) (fault : Fault) (scene : Scene) : Option Fault × Scene :=
  let failure := Failure.ofFault .plan (some fault)
  let pass := scene.pass.release.notify
  let driven := scene.driven.abort failure
  let (raised, log) :=
    Sink.record sink driven.plan.name (.planAborted failure.internalMessage) scene.log
  (raised, { scene with pass, driven, log })

/-- Aborts the run and finishes with `value`, unless the log raises a fault. -/
def abortWith {α : Type} (sink : Option Sink) (fault : Fault) (value : α) (scene : Scene) :
    Ending α × Scene :=
  match scene.abortRun sink fault with
  | (some raised, scene) => (.thrown raised, scene)
  | (none, scene) => (.finished value, scene)

/-- Queues what has become ready, until the plan says that all is queued. -/
def queue (sink : Option Sink) (canceled : Bool) (scene : Scene) : Ending Unit × Scene :=
  match scene.poll canceled with
  | (some fault, scene) => (.thrown fault, scene)
  | (none, scene) =>
    match scene.driven.populate with
    | (some fault, driven) => { scene with driven }.abortWith sink fault ()
    | (none, driven) =>
      (if driven.allQueued then .finished () else .retry,
        { scene with driven, pass := scene.pass.notify })

/-- Selects a node. A pass that finishes without one ends the worker: no nodes
remain, a worker has failed, or the run was aborted. -/
def choose (sink : Option Sink) (canceled : Bool) (lease : Lease) (scene : Scene) :
    Ending (Option Nat) × Scene :=
  match scene.poll canceled with
  | (some fault, scene) => (.thrown fault, scene)
  | (none, scene) =>
    if scene.workerFailed || !scene.driven.plan.hasRemaining then (.finished none, scene)
    else
      match scene.driven.select lease scene.pass with
      | (.error fault, driven, pass) => { scene with driven, pass }.abortWith sink fault none
      | (.ok (some node), driven, pass) => (.finished (some node), { scene with driven, pass })
      | (.ok none, driven, pass) => (.retry, { scene with driven, pass })

def complete (node : Nat) (scene : Scene) : Ending Unit × Scene :=
  match scene.driven.complete node scene.pass.locks with
  | (some fault, driven, locks) =>
    (.thrown fault, { scene with driven, pass := { scene.pass with locks } })
  | (none, driven, locks) =>
    (.finished (), { scene with driven, pass := { scene.pass with locks }.notify })

def dropHeld (node : Nat) (scene : Scene) : Scene :=
  let held := ((scene.driven.plan.node? node).map (·.held)).getD []
  { scene with
    driven.plan := scene.driven.plan.modifyNode node fun node => { node with held := [] }
    pass := { scene.pass with locks := scene.pass.locks.unlockAll held } }

/-- The last pass of a worker that let a fault escape. It gives back what the
worker holds and fails the run, so that nobody waits for its node. -/
def failRun (sink : Option Sink) (lease : Lease) (node : Option Nat) (fault : Fault)
    (scene : Scene) : Ending Unit × Scene :=
  let scene := { scene with workerFailed := true }
  let scene := node.elim scene fun node => scene.dropHeld node
  { scene with pass := scene.pass.unlock (.lease lease) }.abortWith sink fault ()

/-- Waits until every node is terminal or a worker has failed, and then takes the
failures. -/
def await (scene : Scene) : Ending Unit × Scene :=
  if scene.workerFailed || scene.driven.plan.allComplete then
    match scene.driven.collect with
    | (.error fault, driven) => (.thrown fault, { scene with driven })
    | (.ok failures, driven) =>
      (.finished (), { scene with driven, failures := scene.failures ++ failures })
  else (.retry, scene)

end Scene

/-- The state after a pass of a call that worked on its scene. -/
def World.afterPass {α : Type} (world : World) (index : Nat) (call : Call)
    (ending : Ending α) (scene : Scene) : World :=
  { world with
    locks := Gate.settle ending scene.pass
    generation := Gate.publish scene.pass world.generation
    landed := false
    plans := world.plans.set call.plan scene.driven
    log := scene.log
    calls := world.calls.set index
      { call with failures := scene.failures, workerFailed := scene.workerFailed } }

def World.pass {α : Type} (world : World) (index : Nat) (call : Call) (driven : Driven)
    (work : Scene → Ending α × Scene) : Ending α × World :=
  let (ending, scene) := work
    { driven
      pass := { locks := world.locks }
      log := world.log
      failures := call.failures
      workerFailed := call.workerFailed }
  (ending, world.afterPass index call ending scene)

end Foreman.Executor
