import Foreman.Executor.Event
import Foreman.Failure
import Foreman.Locks

/-! Making executors. The gate that an executor uses guards the budget of its
lease, so the tree of the lease is bound to that gate, and executors of one tree
share one gate. -/

namespace Foreman

structure Executor where
  workers : Nat
  /-- The lease below which the workers get theirs. -/
  root : Lease
  gate : Nat
  /-- Whether the executor heeds the cancellation token. -/
  watches : Bool := false
  sink : Option Executor.Sink := none

namespace Executor

structure Config where
  /-- Zero leaves the number of workers to the machine. -/
  maxWorkers : Int := 0
  deriving DecidableEq, Inhabited

/-- The number of workers on a machine with that many processors, where zero
means that their number is not known. -/
def Config.workers (config : Config) (processors : Nat) : Nat :=
  if config.maxWorkers > 0 then config.maxWorkers.toNat
  else if processors > 0 then processors else 4

inductive Refusal where
  | negativeWorkers (count : Int)
  | noLease
  | noGate
  /-- The tree of the lease is bound to another gate. -/
  | otherGate (lease : String)
  deriving DecidableEq

def Refusal.toFailure : Refusal → Failure
  | .negativeWorkers count =>
    { category := .internal
      code := 4002
      userMessage := s!"Not a valid number of parallel executors: {count}"
      internalMessage := "PlanExecutorConfig.max_workers must be >= 0 (0 = auto)"
      details := [("max_workers", toString count)] }
  | .noLease => .internal "Plan executor requires a root worker lease"
  | .noGate => .internal "Plan executor requires a coordination gate"
  | .otherGate lease => .internal s!"Root {lease} is already guarded by another coordination gate"

/-- Makes an executor and binds the tree of its lease to the gate. -/
def create (config : Config) (processors : Nat) (root : Option Lease) (gate : Option Nat)
    (watches : Bool) (sink : Option Sink) (locks : Locks) : Except Refusal Executor × Locks :=
  if config.maxWorkers < 0 then (.error (.negativeWorkers config.maxWorkers), locks)
  else
    match root, gate with
    | none, _ => (.error .noLease, locks)
    | some _, none => (.error .noGate, locks)
    | some root, some gate =>
      match locks.bind root gate with
      | (false, locks) => (.error (.otherGate (locks.displayName (.lease root))), locks)
      | (true, locks) =>
        (.ok { workers := config.workers processors, root, gate, watches, sink }, locks)

end Executor
end Foreman
