import Foreman.Proofs.Breakage

/-! The passes that look whether cancellation was requested. A pass that sees a request
stops its plan and selects nothing. One that sees none although the flag is set was
under way when the flag was set, and there is only one pass at a time. -/

namespace Foreman

namespace Plan

variable {plan : Plan} {position : Nat} {entry : Entry}

def polled (plan : Plan) (sees : Bool) : Plan := if sees then plan.cancel.2 else plan

theorem Valid.polled (valid : plan.Valid) (sees : Bool) : (plan.polled sees).Valid := by
  cases sees with
  | false => exact valid
  | true => exact valid.cancel

theorem cancel_skips (found : plan.entries[position]? = some entry)
    (free : entry.node.state.isUnscheduled = true) : plan.cancel.2.state? position = some .skipped := by
  have entries : plan.cancel.2.entries = plan.entries.map Entry.stop := by
    simp only [cancel]
    split <;> rfl
  have stopped : plan.cancel.2.entries[position]? = some entry.stop := by
    rw [entries, List.getElem?_map, found, Option.map_some]
  rw [state?_eq stopped, Entry.stop]
  simp [Entry.isUnscheduled, free, Node.enter]

end Plan

namespace Executor

variable {index worker : Nat} {before later : Corner} {phase : Phase} {events : List Happening}
  {broken : String → Prop} {lease : Lease} {scene : Scene}

/-! What the passes make of the plan. -/

theorem Scene.poll_plan (throwing : scene.driven.hooks.Throwing) (sees : Bool) :
    ∃ later, scene.poll sees = (none, later) ∧
      later.driven.plan = scene.driven.plan.polled sees ∧ later.driven.hooks = scene.driven.hooks ∧
      later.pass.book.acquired = scene.pass.book.acquired := by
  cases sees with
  | false => exact ⟨scene, rfl, rfl, rfl, rfl⟩
  | true =>
    simp only [Scene.poll, Driven.cancel, throwing.cancel, if_true]
    refine ⟨_, rfl, rfl, rfl, ?_⟩
    split <;> rfl

theorem Scene.choose_plan (breaks : scene.driven.hooks.Breaks broken)
    (valid : scene.driven.plan.Valid) (fresh : scene.pass.book.acquired = []) (sink : Option Sink)
    (sees : Bool) (lease : Lease) :
    ∃ ending later, Scene.choose sink sees lease scene = (ending, later) ∧
      ((∀ node, ending ≠ .finished (some node)) ∧
          later.driven.plan = scene.driven.plan.polled sees ∨
        ∃ node entry, ending = .finished (some node) ∧
          (scene.driven.plan.polled sees).entries[node]? = some entry ∧ entry.node.state = .ready ∧
          later.driven.plan = (scene.driven.plan.polled sees).hand lease node entry) := by
  obtain ⟨polled, polling, plan, hooks, acquired⟩ := scene.poll_plan breaks.toThrowing sees
  rw [← plan]
  have coherent : polled.driven.plan.Valid := by
    rw [plan]
    exact valid.polled sees
  simp only [Scene.choose, polling]
  split
  · exact ⟨_, _, rfl, Or.inl ⟨by simp, rfl⟩⟩
  · rcases select_cases (hooks ▸ breaks.toThrowing) coherent lease (acquired.trans fresh) with
      ⟨fault, tally, hooked, _⟩ | ⟨tally, later, _, _, selected⟩ |
        ⟨tally, node, entry, later, selects, selected⟩
    · rw [hooks, breaks.select] at hooked
      cases hooked
    · rw [selected]
      exact ⟨_, _, rfl, Or.inl ⟨by simp, rfl⟩⟩
    · rw [selected]
      exact ⟨_, _, rfl, Or.inr ⟨node, entry, rfl, selects.found, selects.ready, rfl⟩⟩

theorem Scene.queue_plan (breaks : scene.driven.hooks.Breaks broken) (sink : Option Sink) (sees : Bool) :
    ∃ ending later, Scene.queue sink sees scene = (ending, later) ∧
      later.driven.plan = (scene.driven.plan.polled sees).populate := by
  obtain ⟨polled, polling, plan, hooks, _⟩ := scene.poll_plan breaks.toThrowing sees
  have silent : polled.driven.hooks.populate polled.driven.tally = none := by
    rw [hooks]
    exact breaks.populate _
  simp only [Scene.queue, polling, Driven.populate, silent]
  exact ⟨_, _, rfl, by rw [← plan]⟩

namespace World

variable {world after : World} {missed : Bool} {move : Move} {call : Call} {driven : Driven}

theorem choose_plan (world : World) (breaks : driven.hooks.Breaks broken)
    (valid : driven.plan.Valid) (missed : Bool) (index worker : Nat) (lease : Lease) :
    ∃ last : Driven,
      (world.choose missed index worker call driven lease).plans = world.plans.set call.plan last ∧
      (world.choose missed index worker call driven lease).landed = false ∧
      ((world.choose missed index worker call driven lease).history = world.history ∧
          last.plan = driven.plan.polled (world.sees call missed) ∨
        ∃ node entry,
          (world.choose missed index worker call driven lease).history =
            world.history ++ [.selected index node] ∧
          (driven.plan.polled (world.sees call missed)).entries[node]? = some entry ∧
          entry.node.state = .ready ∧
          last.plan = (driven.plan.polled (world.sees call missed)).hand lease node entry) := by
  obtain ⟨ending, later, chosen, outcome⟩ := (world.sceneOf call driven).choose_plan breaks valid rfl
    call.executor.sink (world.sees call missed) lease
  rw [World.choose, pass_eq chosen]
  refine ⟨later.driven, ?_⟩
  rcases outcome with ⟨unfinished, plan⟩ | ⟨node, entry, rfl, found, ready, plan⟩
  · cases ending with
    | retry | thrown => exact ⟨rfl, rfl, Or.inl ⟨rfl, plan⟩⟩
    | finished picked =>
      cases picked with
      | none => exact ⟨rfl, rfl, Or.inl ⟨rfl, plan⟩⟩
      | some node => exact absurd rfl (unfinished node)
  · exact ⟨rfl, rfl, Or.inr ⟨node, entry, rfl, found, ready, plan⟩⟩

theorem queue_plan (world : World) (breaks : driven.hooks.Breaks broken) (missed : Bool) (index : Nat) :
    ∃ last : Driven, (world.queue missed index call driven).plans = world.plans.set call.plan last ∧
      (world.queue missed index call driven).history = world.history ∧
      last.plan = (driven.plan.polled (world.sees call missed)).populate := by
  obtain ⟨ending, later, queued, plan⟩ := (world.sceneOf call driven).queue_plan breaks
    call.executor.sink (world.sees call missed)
  rw [World.queue, pass_eq queued]
  refine ⟨later.driven, ?_⟩
  cases ending with
  | retry | thrown | finished => exact ⟨rfl, rfl, plan⟩

theorem step_choosing {parked : Option Nat} (found : world.calls[index]? = some call)
    (planned : world.plans[call.plan]? = some driven)
    (there : call.workers[worker]? = some (.choosing lease parked))
    (stepped : world.step missed (.worker index worker) = some after) :
    after = world.choose missed index worker call driven lease := by
  simp only [step, stepWorker, found, planned, there, advanceWorker] at stepped
  split at stepped
  · cases stepped
  · exact (Option.some.inj stepped).symm

theorem step_queueing {parked : Option Nat} (found : world.calls[index]? = some call)
    (planned : world.plans[call.plan]? = some driven) (there : call.stage = .queueing parked)
    (stepped : world.step missed (.caller index) = some after) :
    after = world.queue missed index call driven := by
  simp only [step, stepCaller, found, planned, advanceCaller, there] at stepped
  split at stepped
  · cases stepped
  · exact (Option.some.inj stepped).symm

/-! Passes that see a request. -/

/-- The step is a pass of the call that sees a request for cancellation: its thread
queues the nodes, or one of its workers selects. -/
inductive Heeds (world : World) (index : Nat) (missed : Bool) : Move → Prop where
  | queuer {call : Call} {parked : Option Nat} (found : world.calls[index]? = some call)
      (there : call.stage = .queueing parked) (sees : world.sees call missed = true) :
      Heeds world index missed (.caller index)
  | worker {call : Call} {worker : Nat} {lease : Lease} {parked : Option Nat}
      (found : world.calls[index]? = some call)
      (there : call.workers[worker]? = some (.choosing lease parked))
      (sees : world.sees call missed = true) : Heeds world index missed (.worker index worker)

end World

/-- Besides passes of workers that select, no step of a worker notes a cancellation. -/
theorem WorkerDeed.notes (deed : WorkerDeed index worker before phase events later) :
    (∃ lease parked, phase = .choosing lease parked) ∨
      later.plan.cancelRecorded = before.plan.cancelRecorded := by
  cases deed with
  | halt | breakdown | select | park => exact Or.inl ⟨_, _, rfl⟩
  | settle | start | request | drop | retire | stumble => exact Or.inr rfl
  | refuse | instruct | finish =>
    have touched (position : Nat) (failures : List Failure) :
        (before.plan.failAll position failures).cancelRecorded = before.plan.cancelRecorded :=
      congrArg Prod.fst (Plan.failAll_touches before.plan position failures).books
    exact Or.inr (touched _ _)
  | complete => exact Or.inr (congrArg Prod.fst (Plan.books_complete before.plan _ _))
  | @fail lease node => cases node <;> exact Or.inr rfl

theorem CallerDeed.notes {stage : Stage} (deed : CallerDeed before stage later) :
    (∃ parked, stage = .queueing parked) ∨
      later.plan.cancelRecorded = before.plan.cancelRecorded := by
  cases deed with
  | queue | collapse => exact Or.inl ⟨_, rfl⟩
  | register | launch | giveUp | report | wait | abort | depart => exact Or.inr rfl
  | collect =>
    refine Or.inr ?_
    simp only [Corner.withStage, Plan.collect]
    split <;> rfl

namespace World

variable {world after : World} {missed : Bool} {move : Move} {call next : Call}
  {known last : Driven} {place : Nat}

theorem Sight.present (sight : Sight index place world move after call next known last events) :
    world.plans[call.plan]? = some known := by
  rw [sight.plan]
  exact sight.planned

theorem Sight.written (sight : Sight index place world move after call next known last events)
    {driven : Driven} (plans : after.plans = world.plans.set call.plan driven) : last = driven := by
  have there := sight.planned_after
  rw [plans, ← sight.plan, List.getElem?_set_self (List.getElem?_eq_some_iff.mp sight.present).1] at there
  exact (Option.some.inj there).symm

theorem Sight.chooses {parked : Option Nat}
    (sight : Sight index place world (.worker index worker) after call next known last events)
    (stepped : world.step missed (.worker index worker) = some after)
    (breaks : known.hooks.Breaks broken)
    (there : call.workers[worker]? = some (.choosing lease parked)) :
    after.history = world.history ∧ last.plan = known.plan.polled (world.sees call missed) ∨
      ∃ node entry, after.history = world.history ++ [.selected index node] ∧
        (known.plan.polled (world.sees call missed)).entries[node]? = some entry ∧
        entry.node.state = .ready ∧
        last.plan = (known.plan.polled (world.sees call missed)).hand lease node entry := by
  obtain ⟨driven, plans, _, outcome⟩ :=
    world.choose_plan breaks sight.lawful.valid missed index worker lease
  rw [← step_choosing sight.found sight.present there stepped] at plans outcome
  rw [sight.written plans]
  exact outcome

theorem Sight.queues {parked : Option Nat}
    (sight : Sight index place world (.caller index) after call next known last events)
    (stepped : world.step missed (.caller index) = some after) (breaks : known.hooks.Breaks broken)
    (there : call.stage = .queueing parked) : after.history = world.history ∧
      last.plan = (known.plan.polled (world.sees call missed)).populate := by
  obtain ⟨driven, plans, outcome⟩ := world.queue_plan breaks missed index
  rw [← step_queueing sight.found sight.present there stepped] at plans outcome
  rw [sight.written plans]
  exact outcome

/-- Only a pass that sees a request notes a cancellation. -/
theorem Sight.notes (sight : Sight index place world move after call next known last events)
    (stepped : world.step missed move = some after) (breaks : known.hooks.Breaks broken) :
    world.Heeds index missed move ∨ last.plan.cancelRecorded = known.plan.cancelRecorded := by
  have turns := sight.turns
  generalize corner : after.cornerOf next last = later at turns
  have same (still : later.plan.cancelRecorded = known.plan.cancelRecorded) :
      last.plan.cancelRecorded = known.plan.cancelRecorded := by
    rw [← corner] at still
    exact still
  cases turns with
  | elsewhere shares => exact Or.inr (same (congrArg (·.cancelRecorded) shares.plan))
  | @worker worker phase _ _ there deed =>
    rcases deed.notes with ⟨lease, parked, rfl⟩ | still
    · cases sees : world.sees call missed with
      | true => exact Or.inl (.worker sight.found there sees)
      | false =>
        have outcome := sight.chooses stepped breaks there
        rw [sees] at outcome
        rcases outcome with ⟨_, plan⟩ | ⟨_, _, _, _, _, plan⟩
        · exact Or.inr (congrArg (·.cancelRecorded) plan)
        · exact Or.inr (congrArg (·.cancelRecorded) plan)
    · exact Or.inr (same still)
  | caller deed =>
    rcases deed.notes with ⟨parked, there⟩ | still
    · cases sees : world.sees call missed with
      | true => exact Or.inl (.queuer sight.found there sees)
      | false =>
        have plan := (sight.queues stepped breaks there).2
        rw [sees] at plan
        rw [plan]
        exact Or.inr (congrArg Prod.fst (Plan.books_populate known.plan))
    · exact Or.inr (same still)

/-- A pass that sees a request stops the plan and selects nothing. -/
theorem Sight.heeds (sight : Sight index place world move after call next known last events)
    (heeds : world.Heeds index missed move) (stepped : world.step missed move = some after)
    (breaks : known.hooks.Breaks broken) : known.plan.cancel.2.Drifts last.plan ∧
      last.plan.books = known.plan.cancel.2.books ∧ after.history = world.history := by
  have valid := sight.lawful.valid
  cases heeds with
  | queuer found there sees =>
    cases Option.some.inj (sight.found.symm.trans found)
    obtain ⟨history, plan⟩ := sight.queues stepped breaks there
    rw [sees] at plan
    rw [plan]
    exact ⟨valid.cancel.populate.2.1, Plan.books_populate known.plan.cancel.2, history⟩
  | worker found there sees =>
    cases Option.some.inj (sight.found.symm.trans found)
    have outcome := sight.chooses stepped breaks there
    rw [sees] at outcome
    rcases outcome with ⟨history, plan⟩ | ⟨node, entry, _, present, ready, _⟩
    · rw [plan]
      exact ⟨.refl _, rfl, history⟩
    · have stopped := Plan.cancel_stopped _ node entry present
      simp [ready, State.isUnscheduled] at stopped

/-! Passes that see none. -/

end World

def Happening.isSelection : Happening → Bool
  | .selected .. => true
  | .raised | .started .. | .ended .. => false

theorem WorkerDeed.selects (deed : WorkerDeed index worker before phase events later) :
    (∃ lease parked, phase = .choosing lease parked) ∨ events.countP Happening.isSelection = 0 := by
  cases deed with
  | halt | breakdown | select | park => exact Or.inl ⟨_, _, rfl⟩
  | settle | start | refuse | instruct | finish | complete | drop | retire | stumble | fail =>
    exact Or.inr rfl
  | request _ _ _ foreign =>
    refine Or.inr (List.countP_eq_zero.mpr fun happening member => ?_)
    rw [foreign happening member]
    exact Bool.false_ne_true

namespace World

variable {world after : World} {missed : Bool} {move : Move} {call : Call} {driven : Driven}

def selections (world : World) : Nat := world.history.countP Happening.isSelection

/-- The world has forgotten that the flag was set after the last pass, or it is as it was. -/
def Lands (before after : World) : Prop := after.landed = false ∨ after.landed = before.landed

private theorem record_landed {event : Event} {fault : Option Fault}
    (recorded : world.record call event = (fault, after)) : after.landed = world.landed :=
  (congrArg (·.2.landed) recorded).symm

private theorem recordOnNode_landed {node : Nat} {event : Event} {logged : Bool}
    (recorded : world.recordOnNode call node event = (logged, after)) :
    after.landed = world.landed := by
  simp only [recordOnNode] at recorded
  split at recorded
  all_goals
    next told =>
      cases recorded
      have landed := record_landed told
      exact landed

private theorem pass_landed {α : Type} {work : Scene → Ending α × Scene} {ending : Ending α}
    (passed : world.pass index call driven work = (ending, after)) : after.landed = false :=
  (congrArg (·.2.landed) passed).symm

private theorem advanceCaller_lands (advanced : world.advanceCaller missed index call driven = some after) :
    world.Lands after := by
  simp only [advanceCaller] at advanced
  cases stage : call.stage with
  | arriving =>
    rw [stage] at advanced
    cases advanced
    refine Or.inr ?_
    simp only [register]
    split
    · split <;> rfl
    · rfl
  | launching =>
    rw [stage] at advanced
    cases advanced
    refine Or.inr ?_
    simp only [launch]
    split
    all_goals
      next recorded =>
        have landed := record_landed recorded
        exact landed
  | queueing parked =>
    simp only [stage] at advanced
    split at advanced
    · cases advanced
    · cases advanced
      refine Or.inl ?_
      simp only [queue]
      split
      all_goals
        next passed =>
          have landed := pass_landed passed
          exact landed
  | reporting =>
    rw [stage] at advanced
    cases advanced
    exact Or.inr rfl
  | awaiting parked =>
    simp only [stage] at advanced
    split at advanced
    · cases advanced
    · cases advanced
      refine Or.inl ?_
      simp only [await]
      split
      all_goals
        next passed =>
          have landed := pass_landed passed
          exact landed
  | aborting fault =>
    rw [stage] at advanced
    cases advanced
    refine Or.inl ?_
    simp only [abort]
    split
    all_goals
      next passed =>
        have landed := pass_landed passed
        exact landed
  | joining fault =>
    simp only [stage] at advanced
    obtain ⟨stopped, _, rfl⟩ := Option.map_eq_some_iff.mp advanced
    exact Or.inr rfl
  | gone fault =>
    rw [stage] at advanced
    cases advanced

private theorem advanceRequest_landed (canceled : world.token.canceled = true) (request : Request) :
    (world.advanceRequest request).2.landed = world.landed := by
  cases request with
  | raise => simp [advanceRequest, Token.raise, canceled]
  | take => rfl
  | wake left => cases left <;> rfl

private theorem settleAction_landed (world : World) (call : Call) (node : Nat) (id thread : String)
    (result : Result) : (world.settleAction call node id thread result).landed = world.landed := by
  cases result with
  | raised fault => rfl
  | returned failure =>
    simp only [settleAction]
    cases recorded : (failure.elim world (world.failNode call.plan node)).recordOnNode call node
        (.nodeCompleted id thread 0) with
    | mk logged after =>
      have landed := recordOnNode_landed recorded
      cases failure <;> exact landed

private theorem start_landed (world : World) (index worker : Nat) (call : Call) (lease : Lease)
    (position : Nat) (node : Node) :
    (world.start index worker call lease position node).landed = world.landed := by
  simp only [start]
  split
  · rfl
  · split
    next recorded =>
      have landed := recordOnNode_landed recorded
      exact landed
    next recorded =>
      have landed := recordOnNode_landed recorded
      split <;> exact landed

private theorem follow_landed {plan : Plan} {position : Nat} {id : String} {instruction : Instruction}
    {request : Option Request}
    (followed : world.follow index worker call plan position id instruction = .goOn after request) :
    after.landed = world.landed := by
  cases instruction with
  | err | throw => cases followed
  | fail | cancel | thread =>
    cases followed
    rfl
  | see =>
    cases followed
    cases plan.view? position world.locks <;> rfl
  | check | barrier | await =>
    simp only [follow] at followed
    split at followed
    · cases followed <;> rfl
    · cases followed <;> rfl
  | add =>
    simp only [follow] at followed
    split at followed <;> cases followed <;> rfl

private theorem act_landed (canceled : world.token.canceled = true) {plan : Plan} {position : Nat}
    {id : String} {rest : List Instruction} {request : Option Request}
    (acted : world.act index worker call plan lease position id rest request = some after) :
    after.landed = world.landed := by
  have ends (result : Result) :
      (world.endAction index worker call lease position id result).landed = world.landed :=
    settleAction_landed (world.happen (.ended index position)) call position id
      (call.pool.threadName worker) result
  cases request with
  | some request =>
    cases acted
    exact advanceRequest_landed canceled request
  | none =>
    cases rest with
    | nil =>
      cases acted
      exact ends _
    | cons instruction rest =>
      simp only [act] at acted
      split at acted
      next followed =>
        cases acted
        have landed := follow_landed followed
        exact landed
      next followed =>
        cases acted
        exact ends _
      · cases acted

private theorem advanceWorker_lands (canceled : world.token.canceled = true)
    (advanced : world.advanceWorker missed index worker call driven phase = some after) :
    world.Lands after := by
  cases phase with
  | gone => cases advanced
  | hired =>
    cases advanced
    exact Or.inr rfl
  | choosing lease parked =>
    simp only [advanceWorker] at advanced
    split at advanced
    · cases advanced
    · cases advanced
      refine Or.inl ?_
      simp only [choose]
      split
      all_goals
        next passed =>
          have landed := pass_landed passed
          exact landed
  | chosen lease position =>
    obtain ⟨node, _, rfl⟩ := Option.map_eq_some_iff.mp advanced
    exact Or.inr (start_landed _ _ _ _ _ _ _)
  | acting lease position rest request =>
    obtain ⟨node, _, acted⟩ := Option.bind_eq_some_iff.mp advanced
    exact Or.inr (act_landed canceled acted)
  | completing lease node =>
    cases advanced
    refine Or.inl ?_
    simp only [complete]
    split
    all_goals
      next passed =>
        have landed := pass_landed passed
        exact landed
  | retiring lease =>
    cases advanced
    refine Or.inr ?_
    simp only [retire]
    split
    all_goals
      next recorded =>
        have landed := record_landed recorded
        exact landed
  | failing lease node fault =>
    cases advanced
    refine Or.inl ?_
    simp only [fail]
    split
    all_goals
      next passed =>
        have landed := pass_landed passed
        exact landed

theorem step_lands (canceled : world.token.canceled = true)
    (stepped : world.step missed move = some after) : world.Lands after := by
  cases move with
  | cancel =>
    cases stepped
    exact Or.inr rfl
  | request request =>
    simp only [step, stepRequest] at stepped
    split at stepped
    · cases stepped
      exact Or.inr (advanceRequest_landed canceled _)
    · cases stepped
  | caller index =>
    simp only [step, stepCaller] at stepped
    split at stepped
    · cases stepped
    · split at stepped
      · cases stepped
      · exact advanceCaller_lands stepped
  | worker index worker =>
    simp only [step, stepWorker] at stepped
    split at stepped
    · cases stepped
    · split at stepped
      · exact advanceWorker_lands canceled stepped
      · cases stepped

/-- While the flag is set a step selects nothing, unless it missed that the flag was
set, which was after the last pass. -/
theorem step_selections (owned : world.Owned)
    (tame : ∀ (index : Nat) (call : Call) (driven : Driven), world.calls[index]? = some call →
      world.plans[call.plan]? = some driven →
        call.executor.watches = true ∧ driven.hooks.Breaks broken)
    (canceled : world.token.canceled = true) (stepped : world.step missed move = some after) :
    after.selections = world.selections ∧ world.Lands after ∨
      after.selections = world.selections + 1 ∧ missed = true ∧ world.landed = true ∧
        after.landed = false := by
  have lands := step_lands canceled stepped
  have silent {events : List Happening} (history : after.history = world.history ++ events)
      (none : events.countP Happening.isSelection = 0) : after.selections = world.selections := by
    rw [selections, history, List.countP_append, none]
    rfl
  cases step_turn owned.orderly stepped with
  | caller _ _ _ shown => exact Or.inl ⟨silent shown.history rfl, lands⟩
  | outside _ outside =>
    refine Or.inl ⟨silent outside.history (List.countP_eq_zero.mpr fun happening member => ?_), lands⟩
    rw [outside.foreign happening member]
    exact Bool.false_ne_true
  | @worker index worker call driven phase _ _ _ found planned there deed shown =>
    rcases deed.selects with ⟨lease, parked, rfl⟩ | none
    · obtain ⟨watches, breaks⟩ := tame index call driven found planned
      obtain rfl := step_choosing found planned there stepped
      obtain ⟨last, _, landed, outcome⟩ :=
        world.choose_plan breaks (owned.valid _ _ planned) missed index worker lease
      rcases outcome with ⟨history, _⟩ | ⟨node, entry, history, present, ready, _⟩
      · exact Or.inl ⟨congrArg (·.countP Happening.isSelection) history, lands⟩
      · cases sees : world.sees call missed with
        | true =>
          rw [sees] at present
          have stopped := Plan.cancel_stopped _ node entry present
          simp [ready, State.isUnscheduled] at stopped
        | false =>
          have late : missed = true ∧ world.landed = true := by
            simpa [World.sees, watches, canceled] using sees
          refine Or.inr ⟨?_, late.1, late.2, landed⟩
          rw [selections, history, List.countP_append]
          rfl
    · exact Or.inl ⟨silent shown.history none, lands⟩

end World
end Executor
end Foreman
