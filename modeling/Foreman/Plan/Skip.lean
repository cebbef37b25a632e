import Foreman.Plan.Basic
import Foreman.Plan.Walk

/-! Skipping nodes. A failure skips what depends on it, and a stop skips all
that nobody has selected. -/

namespace Foreman

namespace Entry

def isUnscheduled (entry : Entry) : Bool := entry.node.state.isUnscheduled

/-- The entry once scheduling has stopped. -/
def stop (entry : Entry) : Entry :=
  { entry with
    enumerated := true
    node := if entry.isUnscheduled then entry.node.enter .skipped else entry.node }

end Entry

namespace Plan

/-- The nodes that depend on `root`, directly or through others, each once. -/
def descendants (plan : Plan) (root : Nat) : List Nat :=
  let next (position : Nat) := (plan.entries[position]?.map (·.dependents)).getD []
  (Walk.walk next plan.size [root] []).tail

def skip (plan : Plan) (position : Nat) : Plan :=
  match plan.state? position with
  | some .notReady => plan.markTerminal position .skipped
  | some .ready =>
    { plan.markTerminal position .skipped with queue := plan.queue.filter (· ≠ position) }
  | _ => plan

def skipDependents (plan : Plan) (root : Nat) : Plan := (plan.descendants root).foldl skip plan

/-- Skips every node that nobody has selected and ends the enumeration. The
answer tells whether any node was skipped. -/
def skipUnscheduled (plan : Plan) : Bool × Plan :=
  (plan.entries.any (·.isUnscheduled),
    { plan with
      entries := plan.entries.map Entry.stop
      queue := []
      next := plan.size
      remaining := plan.remaining - plan.entries.countP (·.isUnscheduled)
      started := true })

end Plan
end Foreman
