import Foreman.Lease.Tree

/-! The lock table: the state of every lock. Resource locks that nobody holds
need no entry, so a resource exists as soon as somebody names it. -/

namespace Foreman

structure Locks where
  trees : List LeaseTree := []
  /-- The resource locks that are held, by scope and name. -/
  resources : List (Nat × String) := []
  deriving DecidableEq, Inhabited

namespace Locks

def tree? (locks : Locks) (lease : Lease) : Option LeaseTree := locks.trees[lease.tree]?

def modifyTree (locks : Locks) (tree : Nat) (f : LeaseTree → LeaseTree) : Locks :=
  { locks with trees := locks.trees.modify tree f }

/-- A new tree, with its root as the lease to begin with. -/
def createTree (locks : Locks) (name : String) (budget : Int) : Except Fault (Lease × Locks) := do
  let tree ← LeaseTree.create name budget
  return ({ tree := locks.trees.length, place := 0 }, { locks with trees := locks.trees ++ [tree] })

def createChild (locks : Locks) (parent : Lease) : Lease × Locks :=
  let place := ((locks.tree? parent).map (·.leases.length)).getD 0
  ({ tree := parent.tree, place }, locks.modifyTree parent.tree LeaseTree.addChild)

/-- The gate that guards the budget of the lease. -/
def gate? (locks : Locks) (lease : Lease) : Option Nat := (locks.tree? lease).bind (·.gate)

/-- A tree keeps the first gate that it is bound to. Binding it again to that
gate succeeds, to any other fails. -/
def bind (locks : Locks) (lease : Lease) (gate : Nat) : Bool × Locks :=
  let bound := locks.modifyTree lease.tree (·.bind gate)
  (bound.gate? lease = some gate, bound)

def isLocked (locks : Locks) : Lock → Bool
  | .lease lease => (locks.tree? lease).any (·.isLocked lease.place)
  | .resource scope name => (scope, name) ∈ locks.resources

def ask (locks : Locks) : Lock → Grant Locks
  | .lease lease =>
    match locks.tree? lease with
    | none => .refused
    | some tree => (tree.ask lease.place).map fun after =>
      { locks with trees := locks.trees.set lease.tree after }
  | .resource scope name =>
    if (scope, name) ∈ locks.resources then .refused
    else .taken { locks with resources := (scope, name) :: locks.resources }

/-- Unlocking an unlocked lock changes nothing. -/
def unlock (locks : Locks) : Lock → Locks
  | .lease lease => locks.modifyTree lease.tree (·.unlock lease.place)
  | .resource scope name =>
    { locks with resources := locks.resources.filter (· ≠ (scope, name)) }

def unlockAll (locks : Locks) (held : List Lock) : Locks := held.foldl unlock locks

def displayName (locks : Locks) : Lock → String
  | .lease lease =>
    let name := ((locks.tree? lease).map (·.leaseName lease.place)).getD ""
    s!"worker lease '{name}'"
  | .resource _ name => s!"resource '{name}'"

end Locks
end Foreman
