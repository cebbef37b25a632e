import Foreman.Node

/-! Plans. A plan owns a graph of nodes, which is acyclic because a node names
only nodes that were added before it. For each node the plan keeps the nodes
that wait for it and the number of dependencies that have not succeeded; for the
whole it keeps the queue of ready nodes and the number of open ones. -/

namespace Foreman

structure Entry where
  node : Node
  /-- The positions of the nodes that name this one, once for each mention. -/
  dependents : List Nat := []
  /-- How many mentions of dependencies have not succeeded. It is counted when
  the node is enumerated. -/
  unmet : Nat := 0
  enumerated : Bool := false
  deriving DecidableEq, Inhabited

structure Plan where
  name : String
  /-- Keeps the plan's resources apart from those of other plans. -/
  scope : Nat := 0
  /-- Whether nodes that do not depend on a failed node still run. -/
  continueOnFailure : Bool := true
  /-- In the order in which the nodes were added. -/
  entries : List Entry := []
  /-- The positions of the ready nodes, first come first. -/
  queue : List Nat := []
  /-- The first position that is not enumerated. -/
  next : Nat := 0
  /-- The number of nodes that are not terminal. -/
  remaining : Int := 0
  /-- Enumeration has begun, which closes the plan to new nodes. -/
  started : Bool := false
  cancelRecorded : Bool := false
  collected : Bool := false
  /-- Failures of the plan as a whole, oldest first. -/
  failures : List Failure := []
  deriving DecidableEq, Inhabited

namespace Plan

variable (plan : Plan)

def size : Nat := plan.entries.length

def node? (position : Nat) : Option Node := plan.entries[position]?.map (·.node)

def state? (position : Nat) : Option State := (plan.node? position).map (·.state)

def position? (id : String) : Option Nat := plan.entries.findIdx? (·.node.id = id)

/-- The lock of a resource. Nodes that name the same resource share it. The plan keeps no
table of its locks: scope and name stand for the entry, in a table private to the plan,
under which the one lock of the resource is kept. -/
def resourceLock (name : String) : Lock := .resource plan.scope name

def ids (positions : List Nat) : List String :=
  positions.filterMap fun position => (plan.node? position).map (·.id)

def readyCount : Nat := plan.queue.length

def allComplete : Bool := plan.remaining = 0

def hasRemaining : Bool := plan.remaining ≠ 0

def allQueued : Bool := plan.started && plan.next = plan.size

def modify (position : Nat) (f : Entry → Entry) : Plan :=
  { plan with entries := plan.entries.modify position f }

def modifyNode (position : Nat) (f : Node → Node) : Plan :=
  plan.modify position fun entry => { entry with node := f entry.node }

def markReady (position : Nat) : Plan :=
  { plan.modifyNode position (·.enter .ready) with queue := plan.queue ++ [position] }

def markTerminal (position : Nat) (state : State) : Plan :=
  { plan.modifyNode position (·.enter state) with remaining := plan.remaining - 1 }

/-- Records the failure of a node, unless it has one. -/
def failNode (position : Nat) (failure : Failure) : Plan :=
  plan.modifyNode position (·.fail failure)

end Plan
end Foreman
