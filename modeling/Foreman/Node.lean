import Foreman.Failure
import Foreman.Lock

/-! Nodes of a plan. A node moves forward only: it becomes ready, is executed by
one worker and succeeds or fails, or it is skipped before it was started. -/

namespace Foreman

inductive State where
  /-- Some dependency has not succeeded yet. -/
  | notReady
  /-- In the ready queue. -/
  | ready
  /-- Selected by a worker. -/
  | executing
  | succeeded
  | failed
  /-- Canceled, aborted, or a dependency did not succeed. -/
  | skipped
  deriving DecidableEq, Inhabited

namespace State

def name : State → String
  | .notReady => "NotReady"
  | .ready => "Ready"
  | .executing => "Executing"
  | .succeeded => "Succeeded"
  | .failed => "Failed"
  | .skipped => "Skipped"

def isTerminal : State → Bool
  | .succeeded | .failed | .skipped => true
  | _ => false

/-- Nobody has selected the node yet, and somebody still may. -/
def isUnscheduled : State → Bool
  | .notReady | .ready => true
  | _ => false

def canMoveTo : State → State → Bool
  | .notReady, .ready | .notReady, .skipped => true
  | .ready, .executing | .ready, .skipped => true
  | .executing, .succeeded | .executing, .failed => true
  | _, _ => false

end State

structure Node where
  id : String
  /-- The positions of the nodes that must succeed first. A dependency is listed
  as often as it was given. -/
  deps : List Nat := []
  /-- The names of the resources that the node needs for itself. -/
  resources : List String := []
  state : State := .notReady
  failure : Option Failure := none
  /-- The node was selected at some time. -/
  started : Bool := false
  /-- The node became terminal at some time. -/
  finished : Bool := false
  /-- The locks that the node holds: its lease, then its resources. -/
  held : List Lock := []
  deriving DecidableEq, Inhabited

structure IllegalMove where
  node : String
  source : State
  target : State
  deriving DecidableEq

def IllegalMove.message (move : IllegalMove) : String :=
  s!"Illegal state transition: {move.source.name} -> {move.target.name} (node_id={move.node})"

def IllegalMove.toFailure (move : IllegalMove) : Failure :=
  { category := .internal
    code := 4001
    userMessage := "Illegal node state transition"
    internalMessage := move.message
    details := [("node_id", move.node)] }

namespace Node

/-- Puts the node into a state and notes that it started or finished. -/
def enter (node : Node) (target : State) : Node :=
  { node with
    state := target
    started := node.started || target = .executing
    finished := node.finished || target.isTerminal }

def moveTo (node : Node) (target : State) : Except IllegalMove Node :=
  if node.state.canMoveTo target then .ok (node.enter target)
  else .error { node := node.id, source := node.state, target }

/-- The first failure of a node wins. It names the node unless it names one
already. -/
def fail (node : Node) (failure : Failure) : Node :=
  { node with failure := node.failure <|> some (failure.withDetail "node_id" node.id) }

end Node
end Foreman
