import Foreman.Executor.Caller

/-! One step of one thread. A thread that waits for the others has no step: it
is parked at a gate whose generation has not moved on, its action waits, or its
call waits for workers that have not gone. -/

namespace Foreman.Executor

inductive Move where
  | caller (call : Nat)
  | worker (call worker : Nat)
  | request (request : Nat)
  /-- Somebody outside asks for cancellation, which can be at any time. -/
  | cancel
  deriving DecidableEq

/-- One step. Whoever is to make it may have `missed` a request for cancellation
that landed in the middle of its pass. -/
def World.step (missed : Bool) (world : World) : Move → Option World
  | .caller call => world.stepCaller missed call
  | .worker call worker => world.stepWorker missed call worker
  | .request request => world.stepRequest request
  | .cancel => some { world with requests := world.requests ++ [some .raise] }

end Foreman.Executor
