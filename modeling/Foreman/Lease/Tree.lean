import Foreman.Fault
import Foreman.Lock

/-! Lease trees. All leases of a tree draw on one budget: no more of them are
locked at a time than the budget allows. The tree counts its locked leases and
remembers the highest count. It is bound to at most one gate, the one that
guards the count. -/

namespace Foreman

structure LeaseTree where
  name : String
  /-- How many leases may be locked at once. -/
  budget : Nat
  /-- Which leases are locked. The root comes first, then its descendants in the
  order of their creation. -/
  leases : List Bool := [false]
  locked : Nat := 0
  /-- The highest `locked` so far. -/
  peak : Nat := 0
  gate : Option Nat := none
  deriving DecidableEq, Inhabited

namespace LeaseTree

/-- A tree that allows no lease to be locked is refused. -/
def create (name : String) (budget : Int) : Except Fault LeaseTree :=
  if budget < 1 then
    .error (.invalidArgument s!"Worker lease budget must be at least 1, got {budget}")
  else .ok { name, budget := budget.toNat }

/-- Descendants are numbered from one in the order of their creation, whichever
lease they descend from. -/
def leaseName (tree : LeaseTree) (place : Nat) : String :=
  if place = 0 then tree.name else s!"{tree.name} lease {place}"

def addChild (tree : LeaseTree) : LeaseTree := { tree with leases := tree.leases ++ [false] }

def isLocked (tree : LeaseTree) (place : Nat) : Bool := tree.leases[place]? = some true

/-- Marks an unlocked lease as locked and counts it. -/
def lock (tree : LeaseTree) (place : Nat) : LeaseTree :=
  { tree with
    leases := tree.leases.set place true
    locked := tree.locked + 1
    peak := max tree.peak (tree.locked + 1) }

/-- An unlocked lease is granted while the budget has room. -/
def ask (tree : LeaseTree) (place : Nat) : Grant LeaseTree :=
  match tree.leases[place]? with
  | none => .refused
  | some true => .held
  | some false => if tree.locked < tree.budget then .taken (tree.lock place) else .refused

/-- Unlocking an unlocked lease changes nothing. -/
def unlock (tree : LeaseTree) (place : Nat) : LeaseTree :=
  if tree.isLocked place then
    { tree with leases := tree.leases.set place false, locked := tree.locked - 1 }
  else tree

/-- Binds the tree to a gate unless it is bound already. -/
def bind (tree : LeaseTree) (gate : Nat) : LeaseTree :=
  { tree with gate := tree.gate <|> some gate }

end LeaseTree
end Foreman
