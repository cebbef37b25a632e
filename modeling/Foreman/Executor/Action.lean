import Foreman.Failure
import Foreman.Plan.Add
import Foreman.Plan.View

/-! What nodes do when they are executed. An action is a list of instructions;
one that comes to the end of its list returns without a failure. -/

namespace Foreman.Executor

inductive Instruction where
  /-- Records a failure on the node and goes on. -/
  | fail (failure : Failure)
  | cancel
  /-- Raises a fault if cancellation was requested. -/
  | check
  /-- Notes what the node looks like. -/
  | see
  | thread
  /-- Tries to add a node to the plan and notes what came of it. -/
  | add (id : String)
  /-- Waits until that many actions of the run have started. -/
  | barrier (count : Nat)
  /-- Waits until the actions of these nodes have ended. -/
  | await (ids : List String)
  | err (failure : Failure)
  | throw (fault : Fault)

/-- The instructions for each node, by id. -/
abbrev Action := String → List Instruction

inductive Note where
  | seen (view : NodeView)
  | thread (name : String)
  | added (outcome : Except Plan.Refusal Unit)

end Foreman.Executor
