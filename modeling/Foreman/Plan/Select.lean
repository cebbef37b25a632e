import Foreman.Pass
import Foreman.Plan.Basic

/-! Selection. A worker gets the first node of the queue whose resources are all
free; its lease and the resources are locked in the same step. -/

namespace Foreman.Plan

/-- The first node of the queue whose resources can all be taken. -/
def firstFit (plan : Plan) : List Nat → Pass → Option Nat × Pass
  | [], pass => (none, pass)
  | position :: rest, pass =>
    let wanted := ((plan.node? position).map (·.resources)).getD []
    match pass.tryLockAll (wanted.map plan.resourceLock) with
    | (true, pass) => (some position, pass)
    | (false, pass) => plan.firstFit rest pass

/-- Takes a node off the queue and hands it to the holder of the lease. A node
that is not ready, though it is in the queue, raises a fault: by then it is off
the queue and holds its locks. -/
def dispatch (plan : Plan) (lease : Lease) (position : Nat) : Except Fault Nat × Plan :=
  let taken : Plan := { plan with queue := plan.queue.erase position }
  let holding : Plan := taken.modifyNode position fun node =>
    { node with held := .lease lease :: node.resources.map plan.resourceLock }
  match holding.node? position with
  | none => (.ok position, holding)
  | some node =>
    match node.moveTo .executing with
    | .ok node => (.ok position, holding.modifyNode position fun _ => node)
    | .error move => (.error (.logic move.message), holding)

/-- Selects a node for the lease. There is none while no permit is free or no
ready node can have its resources; then the lease is as it was before. -/
def select (plan : Plan) (lease : Lease) (pass : Pass) :
    Except Fault (Option Nat) × Plan × Pass :=
  if plan.queue.isEmpty then (.ok none, plan, pass)
  else
    let before := pass.locks.isLocked (.lease lease)
    match pass.tryLock (.lease lease) with
    | (false, pass) => (.ok none, plan, pass)
    | (true, pass) =>
      match plan.firstFit plan.queue pass with
      | (some position, pass) =>
        let (outcome, plan) := plan.dispatch lease position
        (outcome.map some, plan, pass)
      | (none, pass) => (.ok none, plan, if before then pass else pass.unlock (.lease lease))

end Foreman.Plan
