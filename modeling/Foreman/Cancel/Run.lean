import Foreman.Cancel.Callback

/-! Running callbacks. Every step of every thread takes work away from the
machine, so a thread that runs alone comes to its end. -/

namespace Foreman.Cancel

private theorem threadsWeight_set {threads : List Thread} {index : Nat} {before : Thread}
    (after : Thread) (held : threads[index]? = some before) :
    threadsWeight (threads.set index after) + before.weight =
      threadsWeight threads + after.weight := by
  induction threads generalizing index with
  | nil => simp at held
  | cons thread rest ih =>
    cases index with
    | zero =>
      simp only [List.getElem?_cons_zero, Option.some.injEq] at held
      simp only [List.set_cons_zero, threadsWeight, held]
      omega
    | succ index =>
      have := ih held
      simp only [List.set_cons_succ, threadsWeight]
      omega

theorem callbacksWeight_append (some others : List (Nat × Registration)) :
    callbacksWeight (some ++ others) = callbacksWeight some + callbacksWeight others := by
  induction some with
  | nil => simp [callbacksWeight]
  | cons entry rest ih =>
    simp only [List.cons_append, callbacksWeight, ih]
    omega

theorem callbacksWeight_filter_le (callbacks : List (Nat × Registration))
    (keep : Nat × Registration → Bool) :
    callbacksWeight (callbacks.filter keep) ≤ callbacksWeight callbacks := by
  induction callbacks with
  | nil => simp
  | cons entry rest ih =>
    cases kept : keep entry <;> simp only [List.filter_cons, kept, callbacksWeight,
      Bool.false_eq_true, if_false, if_true] <;> omega

theorem invoke_weight (registration : Registration) (token : Token Registration) (serials : Nat)
    (stack : List Frame) :
    (registration.invoke token serials stack).thread.weight +
        callbacksWeight (registration.invoke token serials stack).token.callbacks =
      callbackWeight registration.callback + stackWeight stack +
        callbacksWeight token.callbacks := by
  unfold Registration.invoke
  cases registration.callback with
  | none => simp only [Thread.weight, callbackWeight]; omega
  | some body =>
    simp only [Thread.weight, stackWeight, Frame.weight, callbackWeight]

theorem Command.advance_weight (command : Command) (token : Token Registration) (serials : Nat)
    (rest : List Command) (stack : List Frame) :
    (command.advance token serials rest stack).thread.weight +
        callbacksWeight (command.advance token serials rest stack).token.callbacks <
      command.weight + (1 + bodyWeight rest) + stackWeight stack +
        callbacksWeight token.callbacks := by
  cases command with
  | log text | state | throw fault =>
    simp only [Command.advance, Thread.weight, stackWeight, Frame.weight, Command.weight]
    omega
  | check =>
    simp only [Command.advance, Command.weight]
    split <;> simp only [Thread.weight, stackWeight, Frame.weight] <;> omega
  | request =>
    simp only [Command.advance, Token.raise, Command.weight]
    split <;> rename_i raised <;> split at raised <;> cases raised <;>
      simp only [Thread.weight, stackWeight, Frame.weight] <;> omega
  | remove id =>
    have fewer := callbacksWeight_filter_le token.callbacks (·.1 ≠ id)
    simp only [Command.advance, Token.remove, Command.weight, Thread.weight, stackWeight,
      Frame.weight]
    omega
  | on callback =>
    simp only [Command.advance, Token.enroll, Command.weight]
    split <;> rename_i enrolled <;> split at enrolled <;> cases enrolled
    · simp only [callbacksWeight_append, callbacksWeight, Thread.weight, stackWeight, Frame.weight]
      omega
    · simp only [Thread.weight, stackWeight, Frame.weight]
      omega

theorem Frame.advance_weight (frame : Frame) (token : Token Registration) (serials : Nat)
    (stack : List Frame) :
    (frame.advance token serials stack).thread.weight +
        callbacksWeight (frame.advance token serials stack).token.callbacks <
      frame.weight + stackWeight stack + callbacksWeight token.callbacks := by
  cases frame with
  | body rest =>
    cases rest with
    | nil => simp only [Frame.advance, Thread.weight, Frame.weight, bodyWeight]; omega
    | cons command rest =>
      have := command.advance_weight token serials rest stack
      simp only [Frame.advance, Frame.weight, bodyWeight]
      omega
  | take =>
    simp only [Frame.advance, Token.take, Thread.weight, stackWeight, Frame.weight, callbacksWeight]
    omega
  | deliver rest =>
    cases rest with
    | nil =>
      simp only [Frame.advance, Thread.weight, Frame.weight, callbacksWeight]
      omega
    | cons entry rest =>
      have := invoke_weight entry.2 token serials (.deliver rest :: stack)
      simp only [stackWeight, Frame.weight] at this
      simp only [Frame.advance, Frame.weight, callbacksWeight] at this ⊢
      omega
  | inline registration =>
    have := invoke_weight registration token serials stack
    simp only [Frame.advance, Frame.weight]
    omega
  | answer id => simp only [Frame.advance, Thread.weight, Frame.weight]; omega

namespace Machine

theorem step_weight {machine after : Machine} {index : Nat}
    (stepped : machine.step index = some after) : after.weight < machine.weight := by
  unfold step at stepped
  split at stepped
  · rename_i frame stack fault held
    cases stepped
    have less := frame.advance_weight machine.token machine.serials stack
    have total := threadsWeight_set (frame.advance machine.token machine.serials stack).thread held
    simp only [Thread.weight, stackWeight] at less total
    simp only [weight]
    omega
  · cases stepped

/-- Runs a thread to its end while the others rest. -/
def finish (machine : Machine) (index : Nat) : Machine :=
  match _ : machine.step index with
  | none => machine
  | some after => after.finish index
termination_by machine.weight
decreasing_by exact step_weight ‹_›

end Machine

structure Report where
  fault : Option Fault
  /-- What happened during the call, oldest first. -/
  events : List Event

/-- Makes a call from a thread of its own and waits for its end. -/
def Machine.call (machine : Machine) (command : Command) : Report × Machine :=
  let index := machine.threads.length
  let after := (machine.spawn [command]).finish index
  ({ fault := after.threads[index]?.bind (·.fault)
     events := after.history.drop machine.history.length }, after)

end Foreman.Cancel
