import Foreman.Desk
import Foreman.Plan.Add
import Foreman.Plan.Complete
import Foreman.Plan.Enumerate
import Foreman.Plan.Select
import Foreman.Plan.Stop

/-! A plan with the desk that its locks are on, and the calls on both as data.
The last two calls change a node behind the plan's back; all others go through
the plan. -/

namespace Foreman.Plan

structure Session where
  plan : Plan
  desk : Desk := {}
  deriving DecidableEq, Inhabited

inductive Operation where
  | add (id : String) (deps resources : List String)
  | populate
  | select (lease : Lease) (book : Nat)
  | complete (position : Nat)
  | fail (position : Nat) (failure : Failure)
  | cancel
  | abort (failure : Failure)
  | collect
  | locks (command : Desk.Command)
  /-- Moves a node as far as its own rules go. -/
  | move (position : Nat) (target : State)
  /-- Puts a node into a state against all rules. -/
  | force (position : Nat) (target : State)

inductive Reply where
  | done
  | added (outcome : Except Refusal Unit)
  | selected (outcome : Except Fault (Option Nat))
  | changed (answer : Bool)
  | collected (failures : List Failure)
  | locks (reply : Desk.Reply)
  | moved (outcome : Except IllegalMove Unit)
  | missing

namespace Session

def perform (session : Session) : Operation → Reply × Session
  | .add id deps resources =>
    match session.plan.add id deps resources with
    | .ok plan => (.added (.ok ()), { session with plan })
    | .error refusal => (.added (.error refusal), session)
  | .populate => (.done, { session with plan := session.plan.populate })
  | .select lease book =>
    let ((outcome, plan), desk) := session.desk.through book fun pass =>
      let (outcome, plan, pass) := session.plan.select lease pass
      ((outcome, plan), pass)
    (.selected outcome, { plan, desk })
  | .complete position =>
    let (plan, locks) := session.plan.complete position session.desk.locks
    (.done, { plan, desk := { session.desk with locks } })
  | .fail position failure =>
    (.done, { session with plan := session.plan.failNode position failure })
  | .cancel =>
    let (changed, plan) := session.plan.cancel
    (.changed changed, { session with plan })
  | .abort failure => (.done, { session with plan := session.plan.abort failure })
  | .collect =>
    let (failures, plan) := session.plan.collect
    (.collected failures, { session with plan })
  | .locks command =>
    let (reply, desk) := session.desk.perform command
    (.locks reply, { session with desk })
  | .move position target =>
    match session.plan.node? position with
    | none => (.missing, session)
    | some node =>
      match node.moveTo target with
      | .error move => (.moved (.error move), session)
      | .ok node =>
        (.moved (.ok ()), { session with plan := session.plan.modifyNode position fun _ => node })
  | .force position target =>
    (.done, { session with
      plan := session.plan.modifyNode position fun node => { node with state := target } })

def run (session : Session) (operations : List Operation) : Session :=
  operations.foldl (fun session operation => (session.perform operation).2) session

end Session
end Foreman.Plan
