import Foreman.Plan.Add
import Foreman.Plan.Complete
import Foreman.Plan.Enumerate
import Foreman.Plan.Select
import Foreman.Plan.Stop

/-! Plans as an executor drives them. The calls on a plan may raise faults, and
hooks say at which calls they do; without hooks a plan raises none of its own
accord except when a queued node is not ready. -/

namespace Foreman

/-- How often the calls of a plan were made. -/
structure Tally where
  populated : Nat := 0
  canceled : Nat := 0
  collected : Nat := 0
  selected : Nat := 0
  completed : Nat := 0
  /-- How many selections gave a node. -/
  nodes : Nat := 0
  deriving DecidableEq, Inhabited

/-- How a plan departs from its own rules. Each hook sees the tally of the calls
before this one. A call that raises a fault does nothing else. -/
structure Hooks where
  populate : Tally → Option Fault := fun _ => none
  cancel : Tally → Option Fault := fun _ => none
  collect : Tally → Option Fault := fun _ => none
  select : Tally → Plan → Option Fault := fun _ _ => none
  /-- Whether a selection that raises a fault locks its lease before. -/
  locksFirst : Bool := false
  complete : Tally → Node → Option Fault := fun _ _ => none
  /-- The nodes that are completed as soon as they are selected. -/
  completesAtOnce : Node → Bool := fun _ => false
  /-- While this holds, the plan says that more nodes will be queued. -/
  withholds : Tally → Bool := fun _ => false

instance : Inhabited Hooks := ⟨{}⟩

structure Driven where
  plan : Plan
  hooks : Hooks := {}
  tally : Tally := {}
  deriving Inhabited

namespace Driven

def populate (driven : Driven) : Option Fault × Driven :=
  let counted := { driven with tally.populated := driven.tally.populated + 1 }
  match driven.hooks.populate driven.tally with
  | some fault => (some fault, counted)
  | none => (none, { counted with plan := driven.plan.populate })

def allQueued (driven : Driven) : Bool :=
  driven.plan.allQueued && !driven.hooks.withholds driven.tally

/-- The answer tells whether any node was skipped. -/
def cancel (driven : Driven) : Except Fault Bool × Driven :=
  let counted := { driven with tally.canceled := driven.tally.canceled + 1 }
  match driven.hooks.cancel driven.tally with
  | some fault => (.error fault, counted)
  | none =>
    let (changed, plan) := driven.plan.cancel
    (.ok changed, { counted with plan })

def collect (driven : Driven) : Except Fault (List Failure) × Driven :=
  let counted := { driven with tally.collected := driven.tally.collected + 1 }
  match driven.hooks.collect driven.tally with
  | some fault => (.error fault, counted)
  | none =>
    let (failures, plan) := driven.plan.collect
    (.ok failures, { counted with plan })

/-- Completes a node at once if the hooks ask for it. -/
def completeAtOnce (driven : Driven) (position : Nat) (pass : Pass) : Driven × Pass :=
  if (driven.plan.node? position).any driven.hooks.completesAtOnce then
    let (plan, locks) := driven.plan.complete position pass.locks
    ({ driven with plan }, { pass with locks })
  else (driven, pass)

def select (driven : Driven) (lease : Lease) (pass : Pass) :
    Except Fault (Option Nat) × Driven × Pass :=
  let counted := { driven with tally.selected := driven.tally.selected + 1 }
  match driven.hooks.select driven.tally driven.plan with
  | some fault =>
    (.error fault, counted,
      if driven.hooks.locksFirst then (pass.tryLock (.lease lease)).2 else pass)
  | none =>
    match driven.plan.select lease pass with
    | (.ok (some position), plan, pass) =>
      let chosen := { counted with plan, tally.nodes := driven.tally.nodes + 1 }
      let (driven, pass) := chosen.completeAtOnce position pass
      (.ok (some position), driven, pass)
    | (.ok none, plan, pass) => (.ok none, { counted with plan }, pass)
    | (.error fault, plan, pass) => (.error fault, { counted with plan }, pass)

def complete (driven : Driven) (position : Nat) (locks : Locks) :
    Option Fault × Driven × Locks :=
  let counted := { driven with tally.completed := driven.tally.completed + 1 }
  match (driven.plan.node? position).bind (driven.hooks.complete driven.tally) with
  | some fault => (some fault, counted, locks)
  | none =>
    let (plan, locks) := driven.plan.complete position locks
    (none, { counted with plan }, locks)

def abort (driven : Driven) (failure : Failure) : Driven :=
  { driven with plan := driven.plan.abort failure }

end Driven
end Foreman
