import Foreman.Executor.World

/-! Requests for cancellation. The flag is set in one step, the callbacks are
taken in another, and each of them wakes its call in a step of its own. -/

namespace Foreman.Executor.World

/-- The next part of a request, and what is left of it. -/
def advanceRequest (world : World) : Request → Option Request × World
  | .raise =>
    match world.token.raise with
    | (true, token) => (some .take, { world with token, landed := true }.happen .raised)
    | (false, _) => (none, world)
  | .take =>
    let (callbacks, token) := world.token.take
    (some (.wake callbacks.length), { world with token })
  | .wake 0 => (none, world)
  | .wake (left + 1) => (some (.wake left), world.signal)

def stepRequest (world : World) (index : Nat) : Option World :=
  match world.requests[index]? with
  | some (some request) =>
    let (left, after) := world.advanceRequest request
    some { after with requests := after.requests.set index left }
  | _ => none

end Foreman.Executor.World
