import Foreman.Plan.Skip

/-! Stopping a plan and reporting what went wrong. -/

namespace Foreman.Plan

/-- Skips what nobody has selected. The first cancellation that skips a node is
recorded as a failure of the plan. -/
def cancel (plan : Plan) : Bool × Plan :=
  let (changed, plan) := plan.skipUnscheduled
  if changed && !plan.cancelRecorded then
    let failure : Failure :=
      { Failure.canceled Failure.cancellationText with
        internalMessage := "Cancellation requested while nodes were still unscheduled"
        details := [("plan", plan.name)] }
    (changed, { plan with cancelRecorded := true, failures := plan.failures ++ [failure] })
  else (changed, plan)

/-- Records a failure of the plan and skips what nobody has selected. The
failure names the plan unless it names one already. -/
def abort (plan : Plan) (failure : Failure) : Plan :=
  let plan := plan.skipUnscheduled.2
  { plan with failures := plan.failures ++ [failure.withDetail "plan" plan.name] }

/-- The failures of failed nodes, in the order of addition. -/
def nodeFailures (plan : Plan) : List Failure :=
  plan.entries.filterMap fun entry =>
    if entry.node.state = .failed then entry.node.failure else none

/-- Hands out the failures of the nodes and then those of the plan. Only the
first call gets any. -/
def collect (plan : Plan) : List Failure × Plan :=
  if plan.collected then ([], plan)
  else (plan.nodeFailures ++ plan.failures, { plan with collected := true, failures := [] })

end Foreman.Plan
