import Foreman.Plan.Basic

/-! Enumeration. The first enumeration closes the plan to new nodes and decides
for each node, in the order of addition, whether it is ready, has to wait, or
can never run. -/

namespace Foreman.Plan

/-- How many of the dependencies have not succeeded, counted with repetition up
to the first that can no longer succeed, and whether there is such a one. -/
def countUnmet (plan : Plan) : List Nat → Nat × Bool
  | [] => (0, false)
  | dep :: rest =>
    match plan.state? dep with
    | some .succeeded => plan.countUnmet rest
    | some .failed | some .skipped => (0, true)
    | _ =>
      let (unmet, blocked) := plan.countUnmet rest
      (unmet + 1, blocked)

def enumerate (plan : Plan) (position : Nat) : Plan :=
  match plan.node? position with
  | none => plan
  | some node =>
    let plan := plan.modify position fun entry => { entry with enumerated := true }
    if node.state ≠ .notReady then plan
    else
      let (unmet, blocked) := plan.countUnmet node.deps
      let plan := plan.modify position fun entry => { entry with unmet }
      if blocked then plan.markTerminal position .skipped
      else if unmet = 0 then plan.markReady position
      else plan

def populate (plan : Plan) : Plan :=
  let positions := List.range' plan.next (plan.size - plan.next)
  { positions.foldl enumerate plan with next := plan.size, started := true }

end Foreman.Plan
