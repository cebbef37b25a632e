import Foreman.Locks
import Foreman.Plan.Basic

/-! What a reader sees of a node: its dependencies by id, and its locks by name
with the word whether each is locked now. -/

namespace Foreman

structure NodeView where
  node : Node
  deps : List String
  held : List (String × Bool)
  deriving DecidableEq, Inhabited

/-- A node by itself depends on nothing that could be named. -/
def Node.view (node : Node) (locks : Locks) : NodeView :=
  { node
    deps := []
    held := node.held.map fun lock => (locks.displayName lock, locks.isLocked lock) }

def Plan.view? (plan : Plan) (position : Nat) (locks : Locks) : Option NodeView :=
  (plan.node? position).map fun node => { node.view locks with deps := plan.ids node.deps }

end Foreman
