import Foreman.Proofs.WorkerDeeds

/-! What one step of the thread that makes a call can be, and what a step of any
thread does to the world. -/

namespace Foreman.Executor

/-- One step of the thread that makes a call, at some stage, with what it leaves. -/
inductive CallerDeed (before : Corner) : Stage → Corner → Prop where
  | register (wakeup : Option Nat) {generation : Nat} (later : before.generation ≤ generation) :
      CallerDeed before .arriving
        ({ before with call.wakeup := wakeup, generation }.withStage .launching)
  | launch :
      CallerDeed before .launching
        ({ before with
            call.workers := List.replicate before.call.executor.workers .hired
            call.pool := .launch s!"Execution worker for '{before.plan.name}'"
              before.call.executor.workers }.withStage (.queueing none))
  /-- The log raised a fault before any worker was started. -/
  | giveUp {fault : Fault} (raises : Sink.Raises before.call.executor.sink) :
      CallerDeed before .launching (before.withStage (.aborting fault))
  | queue {parked : Option Nat} {polled : Corner} (polls : before.Polls polled) :
      CallerDeed before (.queueing parked)
        ({ before with
            plan := polled.plan.populate
            generation := before.generation + 1 }.withStage .reporting)
  /-- The plan raised a fault instead of enumerating. -/
  | collapse {parked : Option Nat} {polled : Corner} {failure : Failure} {stage : Stage}
      (polls : before.Polls polled)
      (hooked : ∃ tally fault, before.hooks.populate tally = some fault)
      (next : stage = .reporting ∨
        Sink.Raises before.call.executor.sink ∧ ∃ fault, stage = .aborting fault) :
      CallerDeed before (.queueing parked)
        ({ before with
            plan := polled.plan.abort failure
            generation := before.generation + 1 }.withStage stage)
  | report : CallerDeed before .reporting (before.withStage (.awaiting none))
  | wait {parked : Option Nat} (unfailed : before.call.workerFailed = false)
      (remaining : before.plan.remaining ≠ 0) :
      CallerDeed before (.awaiting parked) (before.withStage (.awaiting (some before.generation)))
  | collect {parked : Option Nat}
      (done : before.call.workerFailed = true ∨ before.plan.remaining = 0) :
      CallerDeed before (.awaiting parked)
        ({ before with
            plan := before.plan.collect.2
            call.failures := before.call.failures ++ before.plan.collect.1 }.withStage
          (.joining none))
  | abort {fault escaped : Fault} {failure : Failure} :
      CallerDeed before (.aborting fault)
        ({ before with
            plan := before.plan.abort failure
            generation := before.generation + 1 }.withStage (.joining (some escaped)))
  | depart {fault : Option Fault} (joinable : before.call.pool.isJoinable = true) :
      CallerDeed before (.joining fault)
        (before.withStage (.gone (fault <|> before.call.pool.failure)))

namespace World

variable {world : World} {index : Nat} {call : Call} {driven : Driven}

def Leads (world : World) (index : Nat) (call : Call) (driven : Driven) (stage : Stage)
    (after : World) : Prop :=
  ∃ later, CallerDeed (world.cornerOf call driven) stage later ∧
    Shows world index call.plan after later []

theorem register_leads (found : world.calls[index]? = some call)
    (planned : world.plans[call.plan]? = some driven) :
    world.Leads index call driven .arriving (world.register index call) := by
  have shown := Shows.refl found planned
  cases watches : call.executor.watches with
  | false =>
    simp only [register, watches, Bool.false_eq_true, if_false]
    exact ⟨_, .register call.wakeup (Nat.le_refl _), shown.setCall _⟩
  | true =>
    cases enrolled : world.token.enroll index with
    | mk id token =>
      have kept : token.canceled = world.token.canceled := by
        simp only [Token.enroll] at enrolled
        split at enrolled <;> cases enrolled <;> rfl
      simp only [register, watches, enrolled, if_true]
      cases id with
      | none => exact ⟨_, .register call.wakeup (Nat.le_succ _), shown.signal.setCall _⟩
      | some id => exact ⟨_, .register (some id) (Nat.le_refl _), (shown.withToken token kept).setCall _⟩

theorem launch_leads (found : world.calls[index]? = some call)
    (planned : world.plans[call.plan]? = some driven) :
    world.Leads index call driven .launching (world.launch index call driven.plan) := by
  have shown := Shows.refl found planned
  simp only [launch]
  cases recorded : world.record call (.workersStart call.executor.workers) with
  | mk fault after =>
    have told := shown.record recorded
    cases fault with
    | some fault => exact ⟨_, .giveUp (raises_of_record recorded), told.setStage _⟩
    | none => exact ⟨_, .launch, told.setCall _⟩

section

variable {missed : Bool} {parked : Option Nat} {scene : Scene} {polled : Corner}
  (polling : (world.sceneOf call driven).poll (world.sees call missed) = (none, scene))
  (state : scene.Polled (world.cornerOf call driven) polled)

include polling state

private theorem queue_collapses {fault : Fault}
    (hooked : scene.driven.hooks.populate scene.driven.tally = some fault) :
    world.Leads index call driven (.queueing parked) (world.queue missed index call driven) := by
  obtain ⟨log, ending, aborted, ended⟩ := Scene.abortWith_cases call.executor.sink fault ()
    { scene with
      driven := { scene.driven with tally.populated := scene.driven.tally.populated + 1 } }
  have queued : Scene.queue call.executor.sink (world.sees call missed)
      (world.sceneOf call driven) = (ending, Scene.aborted
        { scene with
          driven := { scene.driven with tally.populated := scene.driven.tally.populated + 1 } }
        fault log) := by
    simp only [Scene.queue, polling, Driven.populate, hooked]
    exact aborted
  have shown := afterPass_shows world index call driven ending (Scene.aborted
    { scene with
      driven := { scene.driven with tally.populated := scene.driven.tally.populated + 1 } }
    fault log)
  rw [state.settled_aborted
    { scene with
      driven := { scene.driven with tally.populated := scene.driven.tally.populated + 1 } }
    ending fault log rfl rfl rfl rfl rfl] at shown
  have hooked : ∃ tally fault, (world.cornerOf call driven).hooks.populate tally = some fault := by
    rw [← state.hooks]
    exact ⟨_, fault, hooked⟩
  rw [World.queue, pass_eq queued]
  rcases ended with rfl | ⟨raises, raised, rfl⟩
  · exact ⟨_, .collapse state.polls hooked (Or.inl rfl), shown.setStage _⟩
  · exact ⟨_, .collapse state.polls hooked (Or.inr ⟨raises, raised, rfl⟩), shown.setStage _⟩

private theorem queue_populates (valid : driven.plan.Valid) (throwing : driven.hooks.Throwing)
    (hooked : scene.driven.hooks.populate scene.driven.tally = none) :
    world.Leads index call driven (.queueing parked) (world.queue missed index call driven) := by
  have coherent : scene.driven.plan.Valid := by
    rw [state.plan]
    exact state.polls.valid valid
  have size := coherent.populate.2.1.keeps.size
  have held : scene.driven.hooks.withholds
      { scene.driven.tally with populated := scene.driven.tally.populated + 1 } = false := by
    rw [state.hooks]
    exact throwing.withholds _
  have queued : Scene.queue call.executor.sink (world.sees call missed)
      (world.sceneOf call driven) = (.finished (), { scene with
        driven := { scene.driven with
          plan := scene.driven.plan.populate
          tally.populated := scene.driven.tally.populated + 1 }
        pass := scene.pass.notify }) := by
    have all : scene.driven.plan.populate.allQueued = true := by
      rw [Plan.allQueued, size]
      simp [Plan.populate]
    simp only [Scene.queue, polling, Driven.populate, hooked, Driven.allQueued, all, held,
      Bool.not_false, Bool.and_true, if_true]
  have shown := afterPass_shows world index call driven (.finished ()) { scene with
    driven := { scene.driven with
      plan := scene.driven.plan.populate
      tally.populated := scene.driven.tally.populated + 1 }
    pass := scene.pass.notify }
  rw [World.queue, pass_eq queued]
  refine ⟨_, .queue state.polls, ?_⟩
  have settled : Scene.settled { scene with
      driven := { scene.driven with
        plan := scene.driven.plan.populate
        tally.populated := scene.driven.tally.populated + 1 }
      pass := scene.pass.notify } (.finished ()) (world.cornerOf call driven) =
        { world.cornerOf call driven with
          plan := polled.plan.populate
          generation := world.generation + 1 } := by
    simp only [Scene.settled, Gate.settle, Pass.commit, Pass.notify, Gate.publish, state.plan,
      state.hooks, state.table, state.failures, state.workerFailed, if_true]
    rfl
  rw [settled] at shown
  exact shown.setStage _

end

theorem queue_leads (missed : Bool) {parked : Option Nat} (valid : driven.plan.Valid)
    (throwing : driven.hooks.Throwing) :
    world.Leads index call driven (.queueing parked) (world.queue missed index call driven) := by
  obtain ⟨scene, polled, polling, state⟩ := Scene.poll_polled throwing
    (world.sceneOf_opens call driven) (canceled_of_sees call missed)
  cases hooked : scene.driven.hooks.populate scene.driven.tally with
  | some fault => exact queue_collapses polling state hooked
  | none => exact queue_populates polling state valid throwing hooked

/-- The end of the plan is awaited in a pass that does not poll. -/
theorem await_leads (throwing : driven.hooks.Throwing) {parked : Option Nat} :
    world.Leads index call driven (.awaiting parked) (world.await index call driven) := by
  by_cases done : (call.workerFailed || driven.plan.allComplete) = true
  · have awaited : Scene.await (world.sceneOf call driven) =
        (.finished (), { world.sceneOf call driven with
          driven := { driven with
            plan := driven.plan.collect.2
            tally.collected := driven.tally.collected + 1 }
          failures := call.failures ++ driven.plan.collect.1 }) := by
      simp only [Scene.await, sceneOf, done, if_true, Driven.collect, throwing.collect]
    have shown := afterPass_shows world index call driven (.finished ())
      { world.sceneOf call driven with
        driven := { driven with
          plan := driven.plan.collect.2
          tally.collected := driven.tally.collected + 1 }
        failures := call.failures ++ driven.plan.collect.1 }
    rw [World.await, pass_eq awaited]
    refine ⟨_, .collect ?_, shown.setStage _⟩
    simp only [Bool.or_eq_true, Plan.allComplete, decide_eq_true_eq] at done
    exact done
  · have awaited : Scene.await (world.sceneOf call driven) = (.retry, world.sceneOf call driven) := by
      simp only [Scene.await, sceneOf, done, Bool.false_eq_true, if_false]
    have shown := afterPass_shows world index call driven (.retry : Ending Unit)
      (world.sceneOf call driven)
    rw [World.await, pass_eq awaited]
    simp only [Plan.allComplete, Bool.or_eq_true, decide_eq_true_eq, not_or, Bool.not_eq_true] at done
    exact ⟨_, .wait done.1 done.2, shown.setStage _⟩

theorem abort_leads (world : World) (index : Nat) (call : Call) (driven : Driven) (fault : Fault) :
    world.Leads index call driven (.aborting fault) (world.abort index call driven fault) := by
  obtain ⟨log, ending, aborted, ended⟩ := Scene.abortWith_cases call.executor.sink fault ()
    (world.sceneOf call driven)
  have shown := afterPass_shows world index call driven ending
    ((world.sceneOf call driven).aborted fault log)
  rw [Scene.settled_aborted ending fault log rfl] at shown
  rw [World.abort, pass_eq aborted]
  rcases ended with rfl | ⟨_, raised, rfl⟩
  · exact ⟨_, .abort, shown.setStage _⟩
  · exact ⟨_, .abort, shown.setStage _⟩

/-- Every step of the thread that makes a call is a deed, provided that its plan is
in order. -/
theorem advanceCaller_leads (found : world.calls[index]? = some call)
    (planned : world.plans[call.plan]? = some driven) (valid : driven.plan.Valid)
    (throwing : driven.hooks.Throwing) {missed : Bool} {after : World}
    (advanced : world.advanceCaller missed index call driven = some after) :
    world.Leads index call driven call.stage after := by
  have shown := Shows.refl found planned
  simp only [advanceCaller] at advanced
  cases stage : call.stage with
  | arriving =>
    rw [stage] at advanced
    cases advanced
    exact register_leads found planned
  | launching =>
    rw [stage] at advanced
    cases advanced
    exact launch_leads found planned
  | queueing parked =>
    simp only [stage] at advanced
    split at advanced
    · cases advanced
    · cases advanced
      exact queue_leads missed valid throwing
  | reporting =>
    rw [stage] at advanced
    cases advanced
    exact ⟨_, .report, (shown.addStat call _).setStage _⟩
  | awaiting parked =>
    simp only [stage] at advanced
    split at advanced
    · cases advanced
    · cases advanced
      exact await_leads throwing
  | aborting fault =>
    rw [stage] at advanced
    cases advanced
    exact abort_leads world index call driven fault
  | joining fault =>
    simp only [stage, Pool.stop] at advanced
    split at advanced
    next joinable =>
      cases advanced
      refine ⟨_, .depart joinable, ?_⟩
      simp only [depart]
      cases call.wakeup with
      | none => exact shown.setStage _
      | some id => exact (shown.withToken (world.token.remove id) rfl).setStage _
    · cases advanced
  | gone fault =>
    rw [stage] at advanced
    cases advanced

end World
end Foreman.Executor
