import Foreman.Executor.Step

/-! Running calls to their end. Threads take turns, one step at a time, and a
thread that has to wait is passed over. -/

namespace Foreman.Executor.World

/-- All threads. The thread that makes a call comes before its workers. -/
def threads (world : World) : List Move :=
  let ofCall (index : Nat) (call : Call) : List Move :=
    .caller index :: (List.range call.workers.length).map (.worker index)
  (world.calls.mapIdx ofCall).flatten ++ (List.range world.requests.length).map .request

/-- One turn of a thread. The answer remembers whether anybody made a step. -/
def turn (progress : Bool × World) (move : Move) : Bool × World :=
  match progress.2.step false move with
  | some world => (true, world)
  | none => progress

def round (world : World) : Bool × World := world.threads.foldl turn (false, world)

/-- A bound of the steps that are left. Each pass that signals a change lets each
thread make one more, and there are at most ten of them for every node, worker
and call. -/
def work (world : World) : Nat :=
  let nodes := world.plans.foldl (fun nodes driven => nodes + driven.plan.size) 0
  let ofCall (call : Call) : Nat :=
    let ids := ((world.plans[call.plan]?).map (·.plan.entries.map (·.node.id))).getD []
    let length (id : String) : Nat := call.action.elim 0 fun action => (action id).length
    let instructions := ids.foldl (fun instructions id => instructions + length id) 0
    call.executor.workers + instructions + 1
  let calls := world.calls.foldl (fun size call => size + ofCall call) 0
  let size := nodes + calls + world.requests.length + 2
  12 * size * size

/-- Rounds until nobody can make a step, at most that many. -/
def rounds (world : World) : Nat → World
  | 0 => world
  | left + 1 =>
    match world.round with
    | (true, world) => world.rounds left
    | (false, world) => world

def run (world : World) : World := world.rounds world.work

end Foreman.Executor.World
