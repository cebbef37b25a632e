import Foreman.Locks
import Foreman.Plan.Skip

/-! Completion. A node that was executed gives its locks back and becomes
terminal. Success may make dependents ready; failure skips them, or everything
that nobody has selected. -/

namespace Foreman.Plan

/-- Counts one dependency of a waiting node as met. The last one makes it ready. -/
def meet (plan : Plan) (position : Nat) : Plan :=
  match plan.entries[position]? with
  | none => plan
  | some entry =>
    if entry.enumerated && entry.node.state = .notReady && entry.unmet ≠ 0 then
      let plan := plan.modify position fun entry => { entry with unmet := entry.unmet - 1 }
      if entry.unmet = 1 then plan.markReady position else plan
    else plan

/-- What follows from the end of an executing node. -/
def finish (plan : Plan) (position : Nat) (entry : Entry) : Plan :=
  if entry.node.failure.isSome then
    let plan := plan.markTerminal position .failed
    if plan.continueOnFailure then plan.skipDependents position else plan.skipUnscheduled.2
  else entry.dependents.foldl meet (plan.markTerminal position .succeeded)

/-- The locks of the node are given back in any state; the rest happens to an
executing node only. -/
def complete (plan : Plan) (position : Nat) (locks : Locks) : Plan × Locks :=
  match plan.entries[position]? with
  | none => (plan, locks)
  | some entry =>
    let plan := plan.modifyNode position fun node => { node with held := [] }
    let plan := if entry.node.state = .executing then plan.finish position entry else plan
    (plan, locks.unlockAll entry.node.held)

end Foreman.Plan
