import Foreman.Cancel.Callback
import Foreman.Executor.Request

/-! Executing a node, between its selection and its completion. Whatever goes
wrong there, in the log or in the action, is a failure of the node. -/

namespace Foreman.Executor

inductive Result where
  | returned (failure : Option Failure)
  | raised (fault : Fault)

namespace World

/-- A fault that escapes while a node is executed is a failure of the node. -/
def captureFault (world : World) (plan node : Nat) (fault : Fault) : World :=
  world.failNode plan node (.ofFault .execution (some fault))

/-- Logs an event of a node. A fault in that is a failure of the node. The answer
tells whether the event was logged without one. -/
def recordOnNode (world : World) (call : Call) (node : Nat) (event : Event) : Bool × World :=
  match world.record call event with
  | (some fault, world) => (false, world.captureFault call.plan node fault)
  | (none, world) => (true, world)

def startedCount (world : World) (index : Nat) : Nat :=
  world.history.countP fun
    | .started call _ => call = index
    | _ => false

def hasEnded (world : World) (index node : Nat) : Bool := world.history.contains (.ended index node)

def note (world : World) (index : Nat) (id : String) (note : Note) : World :=
  { world with
    calls := world.calls.modify index fun call =>
      { call with notes := call.notes ++ [(id, note)] } }

/-- Records how the action of a node ended. The end of an action that raised a
fault is not logged. -/
def settleAction (world : World) (call : Call) (node : Nat) (id thread : String) :
    Result → World
  | .raised fault => world.captureFault call.plan node fault
  | .returned failure =>
    let told := failure.elim world (world.failNode call.plan node)
    (told.recordOnNode call node (.nodeCompleted id thread 0)).2

/-- A worker starts to execute the node that it selected. A terminal node has
nothing to do. -/
def start (world : World) (index worker : Nat) (call : Call) (lease : Lease) (position : Nat)
    (node : Node) : World :=
  if node.state.isTerminal then world.setPhase index worker (.completing lease position)
  else
    match world.recordOnNode call position (.nodeStarted node.id (call.pool.threadName worker)) with
    | (false, world) => world.setPhase index worker (.completing lease position)
    | (true, world) =>
      match call.action with
      | none =>
        (world.captureFault call.plan position .emptyCall).setPhase index worker
          (.completing lease position)
      | some action =>
        (world.happen (.started index position)).setPhase index worker
          (.acting lease position (action node.id) none)

inductive Effect where
  /-- The action goes on, perhaps after a request for cancellation. -/
  | goOn (world : World) (request : Option Request)
  | ends (result : Result)
  | waits

def follow (world : World) (index worker : Nat) (call : Call) (plan : Plan) (position : Nat)
    (id : String) : Instruction → Effect
  | .err failure => .ends (.returned (some failure))
  | .throw fault => .ends (.raised fault)
  | .check =>
    if world.token.canceled then .ends (.raised Cancel.canceledFault) else .goOn world none
  | .fail failure => .goOn (world.failNode call.plan position failure) none
  | .cancel => .goOn world (some .raise)
  | .see =>
    .goOn ((plan.view? position world.locks).elim world fun view =>
      world.note index id (.seen view)) none
  | .thread => .goOn (world.note index id (.thread (call.pool.threadName worker))) none
  | .add added =>
    match plan.add added [] [] with
    | .ok after =>
      .goOn ((world.modifyPlan call.plan fun _ => after).note index id (.added (.ok ()))) none
    | .error refusal => .goOn (world.note index id (.added (.error refusal))) none
  | .barrier count => if count ≤ world.startedCount index then .goOn world none else .waits
  | .await ids =>
    if (ids.filterMap plan.position?).all (world.hasEnded index) then .goOn world none else .waits

def endAction (world : World) (index worker : Nat) (call : Call) (lease : Lease) (position : Nat)
    (id : String) (result : Result) : World :=
  let ended := world.happen (.ended index position)
  (ended.settleAction call position id (call.pool.threadName worker) result).setPhase index worker
    (.completing lease position)

/-- The action of a node goes one step on: with its request for cancellation, or
with its next instruction. -/
def act (world : World) (index worker : Nat) (call : Call) (plan : Plan) (lease : Lease)
    (position : Nat) (id : String) (rest : List Instruction) (request : Option Request) :
    Option World :=
  match request, rest with
  | some request, rest =>
    let (left, after) := world.advanceRequest request
    some (after.setPhase index worker (.acting lease position rest left))
  | none, [] => some (world.endAction index worker call lease position id (.returned none))
  | none, instruction :: rest =>
    match world.follow index worker call plan position id instruction with
    | .goOn world request =>
      some (world.setPhase index worker (.acting lease position rest request))
    | .ends result => some (world.endAction index worker call lease position id result)
    | .waits => none

end World
end Foreman.Executor
