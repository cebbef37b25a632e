import Foreman.Plan.Basic

/-! Adding nodes. Dependencies are resolved to the nodes that they name when the
node is added, so an accepted node waits only for nodes before it. -/

namespace Foreman.Plan

inductive Refusal where
  | started (id : String)
  | emptyId
  | duplicate (id : String)
  | selfDependency (id : String)
  | unknownDependency (dep : String)
  deriving DecidableEq

def Refusal.message : Refusal → String
  | .started id => s!"Cannot add node '{id}' after execution has started"
  | .emptyId => "node_id must not be empty"
  | .duplicate id => s!"Duplicate node_id: {id}"
  | .selfDependency id => s!"Node cannot depend on itself: {id}"
  | .unknownDependency dep => s!"Dependency not found: {dep}"

def Refusal.toFailure (refusal : Refusal) : Failure := .internal refusal.message

/-- The positions of the named nodes, or the first name that is refused. -/
def resolve (plan : Plan) (id : String) : List String → Except Refusal (List Nat)
  | [] => .ok []
  | dep :: rest =>
    if dep = id then .error (.selfDependency id)
    else
      match plan.position? dep with
      | none => .error (.unknownDependency dep)
      | some position => (plan.resolve id rest).map (position :: ·)

/-- Enters a node behind all others and makes it known to the nodes that it
waits for, once for each mention. -/
def attach (plan : Plan) (id : String) (deps : List Nat) (resources : List String) : Plan :=
  let known := plan.entries.mapIdx fun position entry =>
    { entry with dependents := entry.dependents ++ List.replicate (deps.count position) plan.size }
  { plan with
    entries := known ++ [{ node := { id, deps, resources } }]
    remaining := plan.remaining + 1 }

def add (plan : Plan) (id : String) (deps resources : List String) : Except Refusal Plan :=
  if plan.started then .error (.started id)
  else if id = "" then .error .emptyId
  else if (plan.position? id).isSome then .error (.duplicate id)
  else (plan.resolve id deps).map fun positions => plan.attach id positions resources

end Foreman.Plan
