import Foreman.Proofs.TokenStages

/-! Delivery of callbacks. Once cancellation was requested and no call is under way any
more, every callback that was not removed in time was invoked once: by the thread that
set the flag if the token had kept it, and otherwise by the thread that registered it. -/

namespace Foreman.Cancel

variable {token : Token Registration} {serials serial index id winner : Nat} {frame : Frame}
  {stack : List Frame} {advance : Advance} {machine before after : Machine}
  {acts earlier later : List Act} {rest body : List Command}

/-- A fault ends the thread, but then it has nothing to invoke. -/
theorem Deed.fault_due (deed : Deed token serials stack frame advance)
    (settled : Settled (frame :: stack)) (fault : advance.thread.fault ≠ none) :
    stackDue (frame :: stack) = [] := by
  cases deed with
  | fall command rest fault harsh =>
    rw [settled.harsh harsh]
    rfl
  | close | answer | note | raise | remove | enroll | late | take | invoke | pass =>
    exact absurd rfl fault

theorem count_callbacksDue_filter {callbacks : List (Nat × Registration)}
    (others : ∀ registration, (id, registration) ∈ callbacks → registration.serial ≠ serial) :
    (callbacksDue (callbacks.filter (·.1 ≠ id))).count serial =
      (callbacksDue callbacks).count serial := by
  rw [callbacksDue, callbacksDue, List.count_filterMap, List.count_filterMap, List.countP_filter]
  refine List.countP_congr fun entry member => ?_
  rw [Bool.and_eq_true, decide_eq_true_iff, beq_iff_eq]
  refine ⟨And.left, fun due => ⟨due, ?_⟩⟩
  rintro rfl
  obtain ⟨_, _, same⟩ := Option.map_eq_some_iff.mp due
  exact others entry.2 member same

theorem Deed.keeps_load (deed : Deed token serials stack frame advance)
    (settled : Settled (frame :: stack)) (serial : Nat) :
    (callbacksDue token.callbacks).count serial + (stackDue (frame :: stack)).count serial ≤
        (callbacksDue advance.token.callbacks).count serial +
          (stackDue advance.thread.stack).count serial + advance.events.count (.invoked serial) ∨
      ∃ id registration, (id, registration) ∈ token.callbacks ∧ registration.serial = serial ∧
        .removed id ∈ advance.events := by
  cases deed.moves with
  | still kept _ stays =>
    rw [kept, stays]
    omega
  | enroll callback kept _ stays =>
    rw [kept, stays, callbacksDue, callbacksDue, List.filterMap_append, List.count_append]
    omega
  | late callback kept stays =>
    rw [kept, stays, List.count_append]
    omega
  | take kept _ stays =>
    rw [kept, stays, List.count_append]
    omega
  | invoke number kept gives _ events =>
    rw [kept, gives, events, invoked_count, List.count_cons]
    omega
  | remove id kept _ stays _ events =>
    by_cases lost : ∃ registration, (id, registration) ∈ token.callbacks ∧ registration.serial = serial
    · obtain ⟨registration, member, same⟩ := lost
      exact Or.inr ⟨id, registration, member, same, events ▸ List.mem_cons_self⟩
    · have others : ∀ registration, (id, registration) ∈ token.callbacks →
          registration.serial ≠ serial := fun registration member same =>
        lost ⟨registration, member, same⟩
      rw [kept, stays, count_callbacksDue_filter others]
      omega
  | fall kept fault =>
    rw [kept, deed.fault_due settled fault, List.count_nil]
    omega

namespace Machine

/-- No call is under way: every thread has ended, or stands between two of the commands
that it was asked to do itself. -/
def Resting (machine : Machine) : Prop :=
  ∀ index stack, machine.stack? index = some stack → stack.length ≤ 1

/-- What is to be invoked stays so until it was, unless it is removed in time. -/
theorem Reached.stays (reached : Reached acts machine) (tame : Tame acts)
    (unlost : machine.load serial = 1 ∨ RemovedInTime machine.history serial)
    (stepped : machine.step index = some after) :
    after.load serial = 1 ∨ RemovedInTime after.history serial := by
  obtain ⟨frame, stack, advance, there, deed, rfl⟩ := step_deed stepped
  rcases unlost with due | removed
  · have settled := (reached.mild tame).settled _ _ there
    have change := follow_load there advance serial
    have once := (reached.step index stepped).accounted.once serial
    rcases deed.keeps_load settled serial with kept | ⟨id, registration, member, rfl, removed⟩
    · refine Or.inl ?_
      split at once <;> omega
    · refine Or.inr ⟨machine.history, id, [], ?_, reached.accounted.enrolled id _ member, fun taken => ?_⟩
      · rw [follow, (deed.moves.removed removed).1]
      · rw [((reached.staged tame).taken taken).2] at member
        cases member
  · exact Or.inr (removed.grow _)

theorem Reached.remains (reached : Reached earlier before) (tame : Tame (earlier ++ later))
    (unlost : before.load serial = 1 ∨ RemovedInTime before.history serial)
    (played : before.play later = some after) :
    after.load serial = 1 ∨ RemovedInTime after.history serial := by
  induction later generalizing earlier before with
  | nil =>
    cases played
    exact unlost
  | cons act rest ih =>
    obtain ⟨next, acted, goes⟩ := Option.bind_eq_some_iff.mp played
    rw [List.append_cons] at tame
    cases act with
    | spawn commands =>
      cases acted
      rw [← spawn_load _ commands] at unlost
      exact ih (reached.spawn commands) tame unlost goes
    | step index => exact ih (reached.step index acted) tame (reached.stays tame.left.left unlost acted) goes

/-- Where no call is under way, no thread has a callback to invoke or to take. -/
theorem Mild.resting (mild : machine.Mild) (resting : machine.Resting)
    (there : machine.stack? index = some stack) (member : frame ∈ stack) :
    ∃ rest, frame = .body rest := by
  have short := resting index stack there
  cases mild.settled index stack there with
  | done => cases member
  | @own rest => exact ⟨rest, List.mem_singleton.mp member⟩
  | call => simp at short

/-- When no call is under way after the cancellation, what is to be invoked was. -/
theorem Reached.settled_load (reached : Reached acts machine) (tame : Tame acts)
    (canceled : machine.token.canceled = true) (resting : machine.Resting) (serial : Nat) :
    machine.load serial = machine.history.count (.invoked serial) := by
  have mild := reached.mild tame
  have taken : .taken ∈ machine.history := by
    rcases (reached.staged tame).heard canceled with taken | ⟨index, stack, there, waits⟩
    · exact taken
    · obtain ⟨rest, impossible⟩ := mild.resting resting there waits
      cases impossible
  have underway : machine.underway = [] := by
    refine List.flatMap_eq_nil_iff.mpr fun thread member => List.flatMap_eq_nil_iff.mpr fun frame on => ?_
    obtain ⟨index, present⟩ := List.getElem?_of_mem member
    have there : machine.stack? index = some thread.stack := by rw [stack?, present, Option.map_some]
    obtain ⟨rest, rfl⟩ := mild.resting resting there on
    rfl
  have kept : machine.kept = [] := by
    rw [kept, ((reached.staged tame).taken taken).2]
    rfl
  simp [load, underway, kept]

/-- After `earlier` the thread's next step is to register this callback, under the next
serial. It then goes on with the rest of the commands and of the stack. -/
structure Registers (acts earlier : List Act) (index : Nat) (before : Machine) (callback : Callback)
    (rest : List Command) (stack : List Frame) : Prop where
  split : ∃ later, acts = earlier ++ .step index :: later
  played : Machine.play {} earlier = some before
  there : before.stack? index = some (.body (.on callback :: rest) :: stack)

/-- The thread that registers the callback after `earlier` invokes it, answers zero after
that and goes on. -/
def InvokesItself (acts earlier : List Act) (index serial : Nat) (below : List Frame) : Prop :=
  ∃ middle last between,
    acts = earlier ++ .step index :: middle ++ .step index :: last ∧
    play {} (earlier ++ .step index :: middle) = some between ∧
    between.stack? index = some (.answer 0 :: below) ∧
    index ∈ doers (earlier ++ .step index :: middle) (.invoked serial)

theorem Reached.enrolls (reached : Reached earlier before)
    (there : before.stack? index = some (.body (.on (some body) :: rest) :: stack))
    (free : before.token.canceled = false) (stepped : before.step index = some after) :
    after.load before.serials = 1 ∧
      .enrolled before.serials before.token.nextId ∈ after.history := by
  rw [step_follow there] at stepped
  cases stepped
  have change := follow_load there
    (Frame.advance (.body (.on (some body) :: rest)) before.token before.serials stack) before.serials
  have fresh := reached.accounted.fresh (Nat.le_refl before.serials)
  simp only [Frame.advance, Command.advance, Token.enroll, free, Bool.false_eq_true, if_false]
    at change ⊢
  constructor
  · simp [callbacksDue, List.filterMap_append, Registration.due, stackDue, Frame.due] at change
    omega
  · exact follow_history.mpr (Or.inr List.mem_cons_self)

/-- A callback that is registered when the flag is set is to be invoked next. -/
theorem step_late
    (there : before.stack? index = some (.body (.on (some body) :: rest) :: stack))
    (canceled : before.token.canceled = true) (stepped : before.step index = some after) :
    after.stack? index = some
      (.inline { serial := before.serials, callback := some body } :: .answer 0 :: .body rest :: stack) := by
  rw [step_follow there] at stepped
  cases stepped
  rw [follow_stack? there, if_pos rfl]
  simp [Frame.advance, Command.advance, Token.enroll, canceled]

theorem Reached.invokes_inline {registration : Registration} (reached : Reached earlier before)
    (there : before.stack? index = some (.inline registration :: stack))
    (code : registration.callback = some body) (stepped : before.step index = some after) :
    after.stack? index = some (.body body :: stack) ∧
      index ∈ doers (earlier ++ [.step index]) (.invoked registration.serial) := by
  have turn := step_follow there
  cases turn.symm.trans stepped
  rw [follow_stack? there, if_pos rfl, reached.mem_doers_step turn]
  simp [Frame.advance, Registration.invoke, code]

theorem InvokesItself.doer {below : List Frame} (itself : InvokesItself acts earlier index serial below) :
    index ∈ doers acts (.invoked serial) := by
  obtain ⟨middle, last, between, rfl, played, _, did⟩ := itself
  exact (play_reached played).doers_mono did _

theorem Delivers.raiser (delivers : Delivers acts index serial) (tame : Tame acts) :
    index ∈ doers acts .raised := by
  obtain ⟨earlier, later, before, id, registration, rest, stack, rfl, played, _, there⟩ := delivers
  have reached := play_reached played
  exact reached.doers_mono
    ((reached.staged tame.left).raisers index _ _ there List.mem_cons_self trivial) _

section

variable (registers : Registers acts earlier index before (some body) rest stack)
  (tame : Tame acts) (played : Machine.play {} acts = some machine) (resting : machine.Resting)
include registers tame played resting

/-- The call that finds the flag set goes on when it has invoked the callback. -/
theorem Registers.itself (late : before.token.canceled = true) :
    InvokesItself acts earlier index before.serials (.body rest :: stack) := by
  obtain ⟨⟨later, rfl⟩, first, there⟩ := registers
  have out {base : List Frame} (long : 1 < base.length) (left : List Frame)
      (found : machine.stack? index = some left) : left.length < base.length :=
    Nat.lt_of_le_of_lt (resting index left found) long
  obtain ⟨next, stepped, goes⟩ := play_splits played first
  have asked := (play_reached first).step index stepped
  have waits := step_late there late stepped
  rw [List.append_cons] at tame
  obtain ⟨quiet, others, calling, rfl, reaches, calls⟩ :=
    (asked.mild tame.left).returns tame.right [] waits (by simp) goes (out (by simp))
  have invoking := asked.extend reaches
  obtain ⟨running, invoked, goes⟩ := play_splits goes reaches
  obtain ⟨runs, did⟩ := invoking.invokes_inline calls rfl invoked
  have begun := invoking.step index invoked
  have tame : Tame (earlier ++ [.step index] ++ quiet ++ [.step index] ++ others) := by
    simpa using tame
  obtain ⟨middle, last, between, rfl, reaches, back⟩ :=
    (begun.mild tame.left).returns tame.right [.body body] runs (by simp) goes (out (by simp))
  have returned := begun.extend reaches
  refine ⟨quiet ++ .step index :: middle, last, between, by simp, ?_, back, ?_⟩
  · simpa using returned.play
  · simpa using begun.doers_mono did middle

/-- A callback that the token kept, and that was not removed in time, was delivered. -/
theorem Registers.delivered (free : before.token.canceled = false)
    (canceled : machine.token.canceled = true)
    (unremoved : ¬ RemovedInTime machine.history before.serials) :
    ∃ invoker, doers acts (.invoked before.serials) = [invoker] ∧
      Delivers acts invoker before.serials := by
  have reached := play_reached played
  have begun := play_reached registers.played
  have invoked (due : machine.load before.serials = 1) :
      (doers acts (.invoked before.serials)).length = 1 := by
    rw [reached.doers_length, ← reached.settled_load tame canceled resting, due]
  obtain ⟨⟨later, rfl⟩, first, there⟩ := registers
  obtain ⟨next, stepped, goes⟩ := play_splits played first
  obtain ⟨due, enrolled⟩ := begun.enrolls there free stepped
  have kept := (begun.step index stepped).remains (List.append_cons .. ▸ tame) (Or.inl due) goes
  obtain ⟨invoker, single⟩ := List.length_eq_one_iff.mp (invoked (kept.resolve_right unremoved))
  refine ⟨invoker, single, ?_⟩
  exact (reached.staged tame).delivered invoker _ _ (play_history goes enrolled)
    (single ▸ List.mem_singleton_self invoker)

end

/-- Whatever threads do with one token, in whatever order they take their steps, if
callbacks raise no fault: no callback is invoked twice, and none that was removed before
the callbacks were taken. When cancellation was requested and no call is under way, one
thread has set the flag, and every callback that was not removed in time was invoked: by
that thread, from what it took, or by the call that registered it, which then answered
zero. The ids given are different from each other and from zero. -/
theorem callbacks_invoked_once (tame : Tame acts) (played : play {} acts = some machine) :
    (∀ serial, machine.history.count (.invoked serial) ≤ 1) ∧
    (∀ serial, RemovedInTime machine.history serial → .invoked serial ∉ machine.history) ∧
    (machine.token.canceled = true → machine.Resting → ∃ winner, doers acts .raised = [winner] ∧
      ∀ earlier index before body rest stack,
        Registers acts earlier index before (some body) rest stack →
        if before.token.canceled then
          doers acts (.invoked before.serials) = [index] ∧
            InvokesItself acts earlier index before.serials (.body rest :: stack)
        else
          ¬ RemovedInTime machine.history before.serials →
            doers acts (.invoked before.serials) = [winner] ∧
              Delivers acts winner before.serials) ∧
    (idsGiven machine.history).Nodup ∧ 0 ∉ idsGiven machine.history ∧
    (answersGiven machine.history).filter (· ≠ 0) = idsGiven machine.history := by
  have reached := play_reached played
  have accounted := reached.accounted
  have once (serial : Nat) : machine.history.count (.invoked serial) ≤ 1 := by
    have once := accounted.once serial
    rw [load] at once
    split at once <;> omega
  refine ⟨once, fun serial removed => ?_, fun canceled resting => ?_, ?_⟩
  · have gone := accounted.removed serial removed
    rw [load] at gone
    exact List.count_eq_zero.mp (by omega)
  · have raised : (doers acts .raised).length = 1 := by
      rw [reached.doers_length, (reached.staged tame).raised, if_pos canceled]
    obtain ⟨winner, only⟩ := List.length_eq_one_iff.mp raised
    refine ⟨winner, only, fun earlier index before body rest stack registers => ?_⟩
    split
    next late =>
      have itself := registers.itself tame played resting late
      exact ⟨reached.doer itself.doer (once _), itself⟩
    next free =>
      intro unremoved
      rw [Bool.not_eq_true] at free
      obtain ⟨invoker, single, delivers⟩ :=
        registers.delivered tame played resting free canceled unremoved
      have raiser := delivers.raiser tame
      rw [only, List.mem_singleton] at raiser
      rw [← raiser]
      exact ⟨single, delivers⟩
  · obtain ⟨many, given, _⟩ := accounted.ids
    rw [(reached.staged tame).answers, given]
    refine ⟨List.nodup_range', fun zero => ?_, rfl⟩
    exact absurd (List.mem_range'_1.mp zero).1 (by simp)

private def evening : List Act :=
  [ .spawn [.on (some [.log "dim the lights"]), .on (some [.log "ring the bell"]), .remove 2],
    .spawn [.request], .spawn [.request],
    .spawn [.on (some [.on (some [.log "lock the door"])])] ] ++
  [0, 0, 1, 0, 3, 2, 3, 1, 3, 1, 3, 1, 3, 1, 3, 1, 3, 1, 3, 3].map .step

private def night : Machine := (play {} evening).getD {}

theorem evening_ends : play {} evening = some night ∧ Tame evening ∧
    night.token.canceled = true ∧ night.Resting ∧ .invoked 1 ∉ night.history ∧
    doers evening (.invoked 0) = [1] ∧ doers evening (.invoked 2) = [3] ∧
    doers evening (.invoked 3) = [3] ∧ 0 ∉ idsGiven night.history := by
  have played : play {} evening = some night := rfl
  have tame : Tame evening := by
    intro commands member
    simp only [evening, List.map_cons, List.map_nil, List.cons_append, List.nil_append,
      List.mem_cons, Act.spawn.injEq, reduceCtorEq, or_false, List.not_mem_nil] at member
    rcases member with rfl | rfl | rfl | rfl <;> decide
  have resting : night.Resting := by
    intro index stack found
    obtain ⟨thread, present, rfl⟩ := Option.map_eq_some_iff.mp found
    have short : ∀ thread ∈ night.threads, thread.stack.length ≤ 1 := by decide
    exact short thread (List.mem_of_getElem? present)
  obtain ⟨_, removed, complete, _, ids, _⟩ := callbacks_invoked_once tame played
  obtain ⟨winner, only, delivers⟩ := complete rfl resting
  have one : doers evening .raised = [1] := rfl
  cases one.symm.trans only
  have early : .invoked 0 ∈ night.history := by decide
  have dims := delivers (evening.take 4) 0 _ _ _ _ ⟨⟨_, rfl⟩, rfl, rfl⟩
  have calls := delivers (evening.take 8) 3 _ _ _ _ ⟨⟨_, rfl⟩, rfl, rfl⟩
  have locks := delivers (evening.take 12) 3 _ _ _ _ ⟨⟨_, rfl⟩, rfl, rfl⟩
  exact ⟨played, tame, rfl, resting, removed 1 ⟨night.history.take 5, 2, _, rfl, by decide, by decide⟩,
    (dims fun gone => removed 0 gone early).1, calls.1, locks.1, ids⟩

end Machine
end Foreman.Cancel
