import Foreman.Proofs.TokenTurns

/-! Callbacks that raise no fault. Such a callback never ends the thread that runs it,
so a call of the token that waits for callbacks goes on once they are done. -/

namespace Foreman.Cancel

mutual
/-- A command of a callback that raises no fault, and neither do the callbacks that it
registers. -/
def Command.mild : Command → Bool
  | .check | .throw _ => false
  | .on callback => callbackMild callback
  | _ => true

def callbackMild : Option (List Command) → Bool
  | none => true
  | some body => bodyMild body

def bodyMild : List Command → Bool
  | [] => true
  | command :: rest => command.mild && bodyMild rest
end

def Command.tame : Command → Bool
  | .on callback => callbackMild callback
  | _ => true

/-- The callbacks that threads are asked to register raise no fault. -/
def Tame (acts : List Act) : Prop :=
  ∀ commands, .spawn commands ∈ acts → ∀ command ∈ commands, command.tame = true

def AllMild (callbacks : List (Nat × Registration)) : Prop :=
  ∀ entry ∈ callbacks, callbackMild entry.2.callback = true

/-- What the frame runs raises no fault. Only registration that found the flag set has
its answer left to give. -/
def Frame.Mild : Frame → Prop
  | .body rest => bodyMild rest = true
  | .take => True
  | .deliver rest => AllMild rest
  | .inline registration => callbackMild registration.callback = true
  | .answer id => id = 0

/-- Calls that raise no fault, on top of what the thread itself was asked to do, which
may raise one. -/
inductive Settled : List Frame → Prop
  | done : Settled []
  | own {rest : List Command} (tame : ∀ command ∈ rest, command.tame = true) : Settled [.body rest]
  | call {frame below : Frame} {stack : List Frame} (mild : frame.Mild)
      (settled : Settled (below :: stack)) : Settled (frame :: below :: stack)

variable {token : Token Registration} {serials index : Nat} {frame : Frame}
  {top base stack : List Frame} {command : Command} {commands rest : List Command}
  {advance : Advance} {machine before after : Machine} {act : Act} {acts earlier later : List Act}

theorem Tame.cons (tame : Tame (act :: acts)) : Tame [act] ∧ Tame acts :=
  ⟨fun commands member => tame commands (List.mem_singleton.mp member ▸ List.mem_cons_self),
    fun commands member => tame commands (List.mem_cons_of_mem _ member)⟩

theorem Tame.left (tame : Tame (earlier ++ later)) : Tame earlier :=
  fun commands member => tame commands (List.mem_append_left _ member)

theorem Tame.right (tame : Tame (earlier ++ later)) : Tame later :=
  fun commands member => tame commands (List.mem_append_right _ member)

theorem Command.mild_tame (mild : command.mild = true) : command.tame = true := by
  cases command with
  | on callback =>
    rw [Command.mild] at mild
    exact mild
  | log | state | request | remove | check | throw => rfl

namespace Settled

theorem push (mild : frame.Mild) (settled : Settled stack) (calling : stack ≠ []) :
    Settled (frame :: stack) := by
  cases stack with
  | nil => exact absurd rfl calling
  | cons below stack => exact .call mild settled

theorem drop (settled : Settled (frame :: stack)) : Settled stack := by
  cases settled with
  | own => exact .done
  | call _ settled => exact settled

theorem next (settled : Settled (.body (command :: rest) :: stack)) :
    command.tame = true ∧ Settled (.body rest :: stack) := by
  cases settled with
  | own tame =>
    exact ⟨tame _ List.mem_cons_self, .own fun other member => tame other (List.mem_cons_of_mem _ member)⟩
  | call mild settled =>
    rw [Frame.Mild, bodyMild, Bool.and_eq_true] at mild
    exact ⟨Command.mild_tame mild.1, .call mild.2 settled⟩

theorem harsh {fault : Fault} (settled : Settled (.body (command :: rest) :: stack))
    (harsh : command = .check ∨ command = .throw fault) : stack = [] := by
  cases settled with
  | own => rfl
  | call mild _ =>
    rw [Frame.Mild, bodyMild, Bool.and_eq_true] at mild
    rcases harsh with rfl | rfl <;> simp [Command.mild] at mild

theorem hands {registration : Registration} {left : List Frame} (settled : Settled (frame :: stack))
    (hands : frame.Hands registration left) : callbackMild registration.callback = true ∧
      Settled (left ++ stack) ∧ left ++ stack ≠ [] := by
  cases hands with
  | deliver id rest =>
    cases settled with
    | call mild settled =>
      have others : AllMild rest := fun entry member => mild entry (List.mem_cons_of_mem _ member)
      exact ⟨mild _ List.mem_cons_self, .call others settled, by simp⟩
  | inline =>
    cases settled with
    | call mild settled => exact ⟨mild, settled, by simp⟩

end Settled

namespace Deed

/-- While a thread is in a call, its step works on what is above the rest of the stack. -/
theorem above (deed : Deed token serials stack frame advance) (settled : Settled (frame :: stack))
    (calling : stack ≠ []) : ∃ top, advance.thread.stack = top ++ stack := by
  cases deed with
  | close | answer => exact ⟨[], rfl⟩
  | note | remove | enroll | take => exact ⟨[_], rfl⟩
  | raise => exact ⟨[_, _], rfl⟩
  | late => exact ⟨[_, _, _], rfl⟩
  | fall command rest fault harsh => exact absurd (settled.harsh harsh) calling
  | @invoke _ left registration body => exact ⟨.body body :: left, rfl⟩
  | @pass _ left => exact ⟨left, rfl⟩

theorem settles (deed : Deed token serials stack frame advance) (settled : Settled (frame :: stack))
    (mild : AllMild token.callbacks) :
    Settled advance.thread.stack ∧ AllMild advance.token.callbacks := by
  cases deed with
  | close | answer => exact ⟨settled.drop, mild⟩
  | note => exact ⟨settled.next.2, mild⟩
  | fall => exact ⟨.done, mild⟩
  | raise => exact ⟨.call trivial settled.next.2, mild⟩
  | remove id =>
    exact ⟨settled.next.2, fun entry member => mild entry (List.mem_filter.mp member).1⟩
  | enroll callback =>
    obtain ⟨tame, settled⟩ := settled.next
    refine ⟨settled, fun entry member => ?_⟩
    rcases List.mem_append.mp member with kept | new
    · exact mild entry kept
    · rw [List.mem_singleton.mp new]
      exact tame
  | late callback =>
    obtain ⟨tame, settled⟩ := settled.next
    exact ⟨.call tame (.call rfl settled), mild⟩
  | take =>
    refine ⟨.push mild settled.drop ?_, fun entry member => nomatch member⟩
    cases settled with
    | call => simp
  | invoke registration body hands code =>
    obtain ⟨tame, settled, calling⟩ := settled.hands hands
    rw [code, callbackMild] at tame
    exact ⟨.push tame settled calling, mild⟩
  | pass registration hands => exact ⟨(settled.hands hands).2.1, mild⟩

end Deed

namespace Machine

structure Mild (machine : Machine) : Prop where
  callbacks : AllMild machine.token.callbacks
  settled : ∀ (index : Nat) (stack : List Frame), machine.stack? index = some stack → Settled stack

theorem Mild.step (mild : before.Mild) (stepped : before.step index = some after) : after.Mild := by
  obtain ⟨frame, stack, advance, there, deed, rfl⟩ := step_deed stepped
  obtain ⟨settled, callbacks⟩ := deed.settles (mild.settled _ _ there) mild.callbacks
  refine ⟨callbacks, fun other stack' found => ?_⟩
  rw [follow_stack? there] at found
  split at found
  · cases found
    exact settled
  · exact mild.settled other stack' found

theorem Mild.happen (mild : before.Mild) (tame : Tame [act]) (acted : before.act act = some after) :
    after.Mild := by
  cases act with
  | step index => exact mild.step acted
  | spawn commands =>
    cases acted
    refine ⟨mild.callbacks, fun index stack found => ?_⟩
    rcases spawn_stack? found with earlier | rfl
    · exact mild.settled index stack earlier
    · exact .own (tame commands List.mem_cons_self)

theorem Mild.play (mild : before.Mild) (tame : Tame acts) (played : before.play acts = some after) :
    after.Mild := by
  induction acts generalizing before with
  | nil =>
    cases played
    exact mild
  | cons act rest ih =>
    obtain ⟨next, acted, goes⟩ := Option.bind_eq_some_iff.mp played
    exact ih (mild.happen tame.cons.1 acted) tame.cons.2 goes

/-- A thread that is in a call and is out of it later went on where the call had been
made. -/
theorem Mild.returns (mild : before.Mild) (tame : Tame later) (top : List Frame)
    (there : before.stack? index = some (top ++ base)) (calling : base ≠ [])
    (played : before.play later = some after)
    (out : ∀ stack, after.stack? index = some stack → stack.length < base.length) :
    ∃ middle last between, later = middle ++ .step index :: last ∧
      before.play middle = some between ∧ between.stack? index = some base := by
  induction later generalizing before top with
  | nil =>
    cases played
    have shorter := out _ there
    rw [List.length_append] at shorter
    omega
  | cons act rest ih =>
    obtain ⟨next, acted, goes⟩ := Option.bind_eq_some_iff.mp played
    have later (top' : List Frame) (stays : next.stack? index = some (top' ++ base)) :
        ∃ middle last between, act :: rest = middle ++ .step index :: last ∧
          before.play middle = some between ∧ between.stack? index = some base := by
      obtain ⟨middle, last, between, rfl, reaches, back⟩ :=
        ih (mild.happen tame.cons.1 acted) tame.cons.2 top' stays goes
      refine ⟨act :: middle, last, between, rfl, ?_, back⟩
      rw [Machine.play, acted, Option.bind_some, reaches]
    cases act with
    | spawn commands =>
      cases acted
      exact later top (stack?_spawn there)
    | step other =>
      obtain ⟨frame, stack, advance, found, deed, rfl⟩ := step_deed acted
      by_cases own : index = other
      · subst own
        cases top with
        | nil => exact ⟨[], rest, before, rfl, rfl, there⟩
        | cons first top =>
          rw [List.cons_append] at there
          cases Option.some.inj (found.symm.trans there)
          have below : top ++ base ≠ [] := by simp [calling]
          obtain ⟨top', piled⟩ := deed.above (mild.settled _ _ there) below
          refine later (top' ++ top) ?_
          rw [follow_stack? there, if_pos rfl, piled, List.append_assoc]
      · refine later top ?_
        rw [follow_stack? found, if_neg own, there]

end Machine
end Foreman.Cancel
