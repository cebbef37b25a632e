import Foreman.Gate.Script

/-! Letting the threads at a gate run until they rest: each has gone, or sleeps
with nothing left that would wake it. -/

namespace Foreman.Gate

variable {ρ : Type}

/-- The move that a thread makes of its own accord. -/
def Place.move? : Place → Option Move
  | .entering => some .enter
  | .inside => some .leave
  | .awake _ => some .look
  | .signalling => some .signal
  | .announcing => some .announce
  | .asleep _ | .gone _ => none

namespace Machine

/-- One move of a thread of its own accord, if it can make one now. -/
def advance (machine : Machine ρ) (index : Nat) : Option (Machine ρ) :=
  (machine.threads[index]?.bind (·.place.move?)).bind (machine.step index)

def advanceAny (machine : Machine ρ) : Option (Machine ρ) :=
  (List.range machine.threads.length).findSome? machine.advance

/-- Moves threads until none can move or `moves` moves were made. -/
def rest (machine : Machine ρ) : Nat → Machine ρ
  | 0 => machine
  | moves + 1 =>
    match machine.advanceAny with
    | none => machine
    | some after => after.rest moves

end Machine
end Foreman.Gate
