import Foreman.Pass

/-! How a pass under the gate ends, and what the gate does about it. A pass that
does not finish leaves no lock behind that it acquired. A pass that signalled a
change moves the generation of the gate on, whichever way it ended. -/

namespace Foreman

inductive Ending (α : Type) where
  | finished (value : α)
  /-- The pass wants to run again after somebody else has changed something. -/
  | retry
  | thrown (fault : Fault)
  deriving DecidableEq

namespace Gate

variable {α : Type}

def settle (ending : Ending α) (pass : Pass) : Locks :=
  match ending with
  | .finished _ => pass.commit.locks
  | .retry | .thrown _ => pass.release.locks

def publish (pass : Pass) (generation : Nat) : Nat :=
  if pass.book.changed then generation + 1 else generation

end Gate
end Foreman
