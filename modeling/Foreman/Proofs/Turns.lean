import Foreman.Proofs.CallerDeeds

/-! Steps of the whole world. A step is a deed in the corner of one call, or it
comes from outside and touches no call at all. -/

namespace Foreman.Executor

variable {index worker : Nat} {before polled later : Corner} {events : List Happening}

structure Corner.Kept (before later : Corner) : Prop where
  executor : later.call.executor = before.call.executor
  place : later.call.plan = before.call.plan
  action : later.call.action = before.call.action
  hooks : later.hooks = before.hooks
  keeps : before.plan.Keeps later.plan
  valid : later.plan.Valid
  steady : Pass.Steady before.locks later.locks
  generation : before.generation ≤ later.generation
  canceled : before.canceled = true → later.canceled = true

theorem Corner.Polls.kept (polls : before.Polls polled) (valid : before.plan.Valid) :
    before.Kept polled := by
  have plans := polls.valid valid
  have keeps := polls.drifts.keeps
  cases polls with
  | unseen => exact ⟨rfl, rfl, rfl, rfl, keeps, plans, .refl _, Nat.le_refl _, id⟩
  | seen canceled =>
    refine ⟨rfl, rfl, rfl, rfl, keeps, plans, .refl _, ?_, id⟩
    simp only
    split
    · exact Nat.le_succ _
    · exact Nat.le_refl _

theorem WorkerDeed.kept {phase : Phase} (deed : WorkerDeed index worker before phase events later)
    (valid : before.plan.Valid) : before.Kept later := by
  have unchanged : before.Kept before :=
    ⟨rfl, rfl, rfl, rfl, .refl _, valid, .refl _, Nat.le_refl _, id⟩
  cases deed with
  | settle => exact { unchanged with steady := .createChild _ _ }
  | start | drop | retire | stumble => exact { unchanged with }
  | halt polls => exact { polls.kept valid with }
  | breakdown polls =>
    have kept := polls.kept valid
    exact { kept with
      executor := rfl
      place := rfl
      action := rfl
      hooks := rfl
      keeps := kept.keeps.trans (Plan.abort_drifts _ _).keeps
      valid := kept.valid.abort _
      steady := .refl _
      generation := Nat.le_succ _
      canceled := id }
  | select polls unfailed table selects =>
    have kept := polls.kept valid
    exact { kept with
      keeps := kept.keeps.trans
        (Plan.Replaces.hand kept.valid.coherent _ selects.found selects.ready).keeps
      valid := kept.valid.hand selects.found selects.ready
      steady := table ▸ selects.steady }
  | park polls unfailed remaining starved alike steady =>
    exact { polls.kept valid with steady := steady }
  | refuse | instruct | finish =>
    exact { unchanged with
      keeps := Plan.failAll_keeps _ _ _
      valid := valid.failAll _ _ }
  | request later kept => exact { unchanged with generation := later, canceled := kept }
  | complete =>
    exact { unchanged with
      keeps := Plan.complete_keeps valid _ _
      valid := valid.complete _ _
      steady := Plan.complete_steady _ _ _
      generation := Nat.le_succ _ }
  | fail =>
    exact { unchanged with
      keeps := (Plan.disown_keeps _ _).trans (Plan.abort_drifts _ _).keeps
      valid := (valid.disown _).abort _
      steady := (Pass.Steady.unlockAll _ _).trans (.unlock (before.locks.unlockAll _) (.lease _))
      generation := Nat.le_succ _ }

theorem CallerDeed.kept {stage : Stage} (deed : CallerDeed before stage later)
    (valid : before.plan.Valid) : before.Kept later := by
  have unchanged : before.Kept before :=
    ⟨rfl, rfl, rfl, rfl, .refl _, valid, .refl _, Nat.le_refl _, id⟩
  cases deed with
  | register _ later => exact { unchanged with generation := later }
  | launch | giveUp | report | wait | depart => exact { unchanged with }
  | queue polls =>
    have kept := polls.kept valid
    obtain ⟨plans, drifts, _⟩ := kept.valid.populate
    exact { unchanged with
      keeps := kept.keeps.trans drifts.keeps
      valid := plans
      generation := Nat.le_succ _ }
  | collapse polls =>
    have kept := polls.kept valid
    exact { unchanged with
      keeps := kept.keeps.trans (Plan.abort_drifts _ _).keeps
      valid := kept.valid.abort _
      generation := Nat.le_succ _ }
  | collect =>
    exact { unchanged with
      keeps := (Plan.collect_drifts _).keeps
      valid := valid.collect }
  | abort =>
    exact { unchanged with
      keeps := (Plan.abort_drifts _ _).keeps
      valid := valid.abort _
      generation := Nat.le_succ _ }

/-- Only the launch of a call changes its workers, and those that it gets are new. -/
theorem CallerDeed.crew {stage : Stage} (deed : CallerDeed before stage later) :
    later.call.workers = before.call.workers ∨
      stage = .launching ∧ ∀ phase ∈ later.call.workers, phase = .hired := by
  cases deed with
  | launch => exact Or.inr ⟨rfl, fun phase member => (List.mem_replicate.mp member).2⟩
  | register | giveUp | queue | collapse | report | wait | collect | abort | depart =>
    exact Or.inl rfl

theorem CallerDeed.locks {stage : Stage} (deed : CallerDeed before stage later) :
    later.locks = before.locks := by
  cases deed <;> rfl

theorem CallerDeed.calm {stage : Stage} (deed : CallerDeed before stage later)
    (valid : before.plan.Valid) : before.plan.Calm later.plan := by
  cases deed with
  | register | launch | giveUp | report | wait | depart => exact .refl _
  | queue polls =>
    have populated := (polls.valid valid).populate.2.1
    exact (polls.drifts.trans populated).calm
  | collapse polls => exact (polls.drifts.trans (Plan.abort_drifts _ _)).calm
  | collect => exact (Plan.collect_drifts _).calm
  | abort => exact (Plan.abort_drifts _ _).calm

namespace World

variable {world after : World} {missed : Bool} {move : Move}

/-- What a step is, by whose step it is. -/
inductive Turn (world : World) : Move → World → Prop where
  | worker {index worker : Nat} {call : Call} {driven : Driven} {phase : Phase}
      {events : List Happening} {later : Corner} {after : World}
      (found : world.calls[index]? = some call) (planned : world.plans[call.plan]? = some driven)
      (there : call.workers[worker]? = some phase)
      (deed : WorkerDeed index worker (world.cornerOf call driven) phase events later)
      (shown : Shows world index call.plan after later events) :
      Turn world (.worker index worker) after
  | caller {index : Nat} {call : Call} {driven : Driven} {later : Corner} {after : World}
      (found : world.calls[index]? = some call) (planned : world.plans[call.plan]? = some driven)
      (deed : CallerDeed (world.cornerOf call driven) call.stage later)
      (shown : Shows world index call.plan after later []) :
      Turn world (.caller index) after
  | outside {move : Move} {events : List Happening} {after : World}
      (foreign : ∀ index worker, move ≠ .caller index ∧ move ≠ .worker index worker)
      (outside : world.Outside events after) :
      Turn world move after

/-- Plans are in order, and the nodes that workers own are being executed. -/
structure Orderly (world : World) : Prop where
  valid : ∀ (place : Nat) (driven : Driven), world.plans[place]? = some driven → driven.plan.Valid
  throwing : ∀ (place : Nat) (driven : Driven), world.plans[place]? = some driven →
    driven.hooks.Throwing
  busy : ∀ (index worker node : Nat) (call : Call) (driven : Driven) (phase : Phase),
    world.calls[index]? = some call → world.plans[call.plan]? = some driven →
    call.workers[worker]? = some phase → phase.node? = some node →
    driven.plan.state? node = some .executing

theorem step_turn (orderly : world.Orderly) (stepped : world.step missed move = some after) :
    world.Turn move after := by
  cases move with
  | caller index =>
    simp only [step, stepCaller] at stepped
    split at stepped
    · cases stepped
    next call found =>
      split at stepped
      · cases stepped
      next driven planned =>
        obtain ⟨later, deed, shown⟩ := advanceCaller_leads found planned
          (orderly.valid _ _ planned) (orderly.throwing _ _ planned) stepped
        exact .caller found planned deed shown
  | worker index worker =>
    simp only [step, stepWorker] at stepped
    split at stepped
    · cases stepped
    next call found =>
      split at stepped
      next driven phase planned there =>
        obtain ⟨events, later, deed, shown⟩ := advanceWorker_works found planned
          (orderly.valid _ _ planned) (orderly.throwing _ _ planned)
          (fun node owned => orderly.busy index worker node call driven phase found planned there owned)
          stepped
        exact .worker found planned there deed shown
      · cases stepped
  | request request =>
    simp only [step, stepRequest] at stepped
    split at stepped
    next pending _ =>
      cases stepped
      obtain ⟨events, outside, _⟩ := advanceRequest_outside world pending
      exact .outside (by simp) { outside with }
    · cases stepped
  | cancel =>
    cases stepped
    exact .outside (by simp)
      ⟨rfl, rfl, rfl, Nat.le_refl _, id, (List.append_nil _).symm, by simp⟩

/-- A step of a worker is a deed of the phase that the worker is in. -/
theorem Orderly.works {index worker : Nat} {call : Call} {driven : Driven} {phase : Phase}
    (orderly : world.Orderly) (stepped : world.step missed (.worker index worker) = some after)
    (found : world.calls[index]? = some call) (planned : world.plans[call.plan]? = some driven)
    (there : call.workers[worker]? = some phase) :
    world.Works index worker call driven phase after := by
  generalize same : Move.worker index worker = move at stepped
  cases step_turn orderly stepped with
  | worker found' planned' there' deed shown =>
    cases same
    cases Option.some.inj (found.symm.trans found')
    cases Option.some.inj (planned.symm.trans planned')
    cases Option.some.inj (there.symm.trans there')
    exact ⟨_, _, deed, shown⟩
  | caller => cases same
  | outside foreign => exact absurd same.symm (foreign index worker).2

/-! What lasts through all steps. -/

/-- The calls, plans and locks of the later world are those of the earlier one. -/
structure Follows (before after : World) : Prop where
  calls : ∀ (index : Nat) (call : Call), before.calls[index]? = some call →
    ∃ later, after.calls[index]? = some later ∧ later.executor = call.executor ∧
      later.plan = call.plan ∧ later.action = call.action
  origins : ∀ (index : Nat) (later : Call), after.calls[index]? = some later →
    ∃ call, before.calls[index]? = some call ∧ later.executor = call.executor ∧
      later.plan = call.plan ∧ later.action = call.action
  plans : ∀ (place : Nat) (driven : Driven), before.plans[place]? = some driven →
    ∃ later, after.plans[place]? = some later ∧ later.hooks = driven.hooks ∧
      driven.plan.Keeps later.plan
  grows : before.locks.Grows after.locks
  canceled : before.token.canceled = true → after.token.canceled = true
  generation : before.generation ≤ after.generation

theorem Follows.refl (world : World) : world.Follows world :=
  ⟨fun _ call found => ⟨call, found, rfl, rfl, rfl⟩, fun _ call found => ⟨call, found, rfl, rfl, rfl⟩,
    fun _ driven found => ⟨driven, found, rfl, .refl _⟩, .refl _, id, Nat.le_refl _⟩

theorem Follows.trans {first middle last : World} (left : first.Follows middle)
    (right : middle.Follows last) : first.Follows last := by
  refine ⟨?_, ?_, ?_, left.grows.trans right.grows, fun canceled => right.canceled (left.canceled canceled),
    Nat.le_trans left.generation right.generation⟩
  · intro index call found
    obtain ⟨between, found, executor, plan, action⟩ := left.calls index call found
    obtain ⟨later, found, executor', plan', action'⟩ := right.calls index between found
    exact ⟨later, found, executor'.trans executor, plan'.trans plan, action'.trans action⟩
  · intro index later found
    obtain ⟨between, found, executor, plan, action⟩ := right.origins index later found
    obtain ⟨call, found, executor', plan', action'⟩ := left.origins index between found
    exact ⟨call, found, executor.trans executor', plan.trans plan', action.trans action'⟩
  · intro place driven found
    obtain ⟨between, found, hooks, keeps⟩ := left.plans place driven found
    obtain ⟨later, found, hooks', keeps'⟩ := right.plans place between found
    exact ⟨later, found, hooks'.trans hooks, keeps.trans keeps'⟩

theorem Shows.follows {index : Nat} {call : Call} {driven : Driven}
    (found : world.calls[index]? = some call) (planned : world.plans[call.plan]? = some driven)
    (shown : Shows world index call.plan after later events)
    (kept : (world.cornerOf call driven).Kept later) : world.Follows after := by
  obtain ⟨driven', plan, hooks, plans⟩ := shown.plan? planned
  refine ⟨?_, ?_, ?_, shown.locks ▸ kept.steady.grows, ?_, shown.generation ▸ kept.generation⟩
  · intro other value present
    rw [shown.call? found]
    split
    next same =>
      subst same
      cases Option.some.inj (present.symm.trans found)
      exact ⟨_, rfl, kept.executor, kept.place, kept.action⟩
    · exact ⟨value, present, rfl, rfl, rfl⟩
  · intro other value present
    rw [shown.call? found] at present
    split at present
    next same =>
      cases present
      exact ⟨call, same ▸ found, kept.executor, kept.place, kept.action⟩
    · exact ⟨value, present, rfl, rfl, rfl⟩
  · intro place value present
    rw [plans]
    split
    next same =>
      subst same
      cases Option.some.inj (present.symm.trans planned)
      exact ⟨driven', rfl, hooks.trans kept.hooks, plan ▸ kept.keeps⟩
    · exact ⟨value, present, rfl, .refl _⟩
  · intro canceled
    rw [shown.canceled]
    exact kept.canceled canceled

theorem Turn.follows {move : Move} (turn : world.Turn move after)
    (valid : ∀ (place : Nat) (driven : Driven), world.plans[place]? = some driven →
      driven.plan.Valid) : world.Follows after := by
  cases turn with
  | worker found planned there deed shown =>
    exact shown.follows found planned (deed.kept (valid _ _ planned))
  | caller found planned deed shown =>
    exact shown.follows found planned (deed.kept (valid _ _ planned))
  | outside foreign outside =>
    refine ⟨?_, ?_, ?_, outside.locks ▸ .refl _, outside.canceled, outside.generation⟩
    · exact fun index call found => ⟨call, outside.calls ▸ found, rfl, rfl, rfl⟩
    · exact fun index call found => ⟨call, outside.calls ▸ found, rfl, rfl, rfl⟩
    · exact fun place driven found => ⟨driven, outside.plans ▸ found, rfl, .refl _⟩

end World
end Foreman.Executor
