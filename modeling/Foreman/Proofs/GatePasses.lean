import Foreman.Proofs.Corner

/-! What the passes under the gate have in common. Each begins on a scene that is
the corner of its call, most of them poll for cancellation first, and some end by
aborting the run. -/

namespace Foreman.Executor

variable {before polled : Corner} {scene : Scene} {sink : Option Sink} {world : World} {index : Nat}
  {call : Call} {driven : Driven}

namespace Corner

/-- The pass saw a request for cancellation and stopped the plan, or saw none. -/
inductive Polls (before : Corner) : Corner → Prop where
  | unseen : Polls before before
  | seen (canceled : before.canceled = true) :
      Polls before { before with
        plan := before.plan.cancel.2
        generation := if before.plan.cancel.1 then before.generation + 1 else before.generation }

theorem Polls.same (polls : before.Polls polled) :
    polled = { before with plan := polled.plan, generation := polled.generation } := by
  cases polls <;> rfl

theorem Polls.valid (polls : before.Polls polled) (valid : before.plan.Valid) : polled.plan.Valid := by
  cases polls with
  | unseen => exact valid
  | seen canceled => exact valid.cancel

theorem Polls.drifts (polls : before.Polls polled) : before.plan.Drifts polled.plan := by
  cases polls with
  | unseen => exact .refl _
  | seen canceled => exact Plan.cancel_drifts _

end Corner

namespace Scene

def settled {α : Type} (scene : Scene) (ending : Ending α) (before : Corner) : Corner :=
  { before with
    call := { before.call with failures := scene.failures, workerFailed := scene.workerFailed }
    plan := scene.driven.plan
    hooks := scene.driven.hooks
    locks := Gate.settle ending scene.pass
    generation := Gate.publish scene.pass before.generation }

structure Opens (scene : Scene) (before : Corner) : Prop where
  plan : scene.driven.plan = before.plan
  hooks : scene.driven.hooks = before.hooks
  pass : scene.pass = { locks := before.locks }
  failures : scene.failures = before.call.failures
  workerFailed : scene.workerFailed = before.call.workerFailed

/-- The scene once the pass has polled. -/
structure Polled (scene : Scene) (before polled : Corner) : Prop where
  polls : before.Polls polled
  plan : scene.driven.plan = polled.plan
  hooks : scene.driven.hooks = before.hooks
  table : scene.pass.locks = before.locks
  fresh : scene.pass.book.acquired = []
  generation : Gate.publish scene.pass before.generation = polled.generation
  failures : scene.failures = before.call.failures
  workerFailed : scene.workerFailed = before.call.workerFailed

theorem poll_polled (throwing : before.hooks.Throwing) (opens : scene.Opens before) {sees : Bool}
    (heeded : sees = true → before.canceled = true) :
    ∃ later polled, scene.poll sees = (none, later) ∧ later.Polled before polled := by
  obtain ⟨⟨plan, hooks, tally⟩, pass, log, failures, workerFailed⟩ := scene
  obtain ⟨rfl, rfl, rfl, rfl, rfl⟩ := opens
  unfold poll
  split
  next seen =>
    simp only [Driven.cancel, throwing.cancel]
    refine ⟨_, _, rfl, ⟨.seen (heeded seen), rfl, rfl, ?_, ?_, ?_, rfl, rfl⟩⟩
    all_goals
      split <;> simp_all [Pass.notify, Gate.publish]
  · exact ⟨_, before, rfl, ⟨.unseen, rfl, rfl, rfl, rfl, rfl, rfl, rfl⟩⟩

theorem Polled.settled {α : Type} {value : α} (state : scene.Polled before polled) :
    scene.settled (.finished value) before = polled := by
  rw [state.polls.same]
  simp only [Scene.settled, Gate.settle, Pass.commit, state.plan, state.hooks, state.table,
    state.generation, state.failures, state.workerFailed]

/-- The corner after a pass that went on from there with other locks, and perhaps
with another plan. -/
theorem Polled.settled_pass {α : Type} (state : scene.Polled before polled) (later : Scene)
    (ending : Ending α) (hooks : later.driven.hooks = scene.driven.hooks)
    (changed : later.pass.book.changed = scene.pass.book.changed)
    (failures : later.failures = scene.failures) (workerFailed : later.workerFailed = scene.workerFailed) :
    later.settled ending before =
      { polled with plan := later.driven.plan, locks := Gate.settle ending later.pass } := by
  have generation : Gate.publish later.pass before.generation = polled.generation := by
    rw [← state.generation, Gate.publish, Gate.publish, changed]
  rw [state.polls.same]
  simp only [Scene.settled, hooks, generation, failures, workerFailed, state.hooks, state.failures,
    state.workerFailed]

def aborted (scene : Scene) (fault : Fault) (log : List Line) : Scene :=
  { scene with
    driven := scene.driven.abort (Failure.ofFault .plan (some fault))
    pass := scene.pass.release.notify
    log }

theorem abortWith_cases {α : Type} (sink : Option Sink) (fault : Fault) (value : α) (scene : Scene) :
    ∃ log ending, scene.abortWith sink fault value = (ending, scene.aborted fault log) ∧
      (ending = .finished value ∨ Sink.Raises sink ∧ ∃ raised, ending = .thrown raised) := by
  simp only [abortWith, abortRun]
  cases recorded : Sink.record sink (scene.driven.abort (Failure.ofFault .plan (some fault))).plan.name
      (.planAborted (Failure.ofFault .plan (some fault)).internalMessage) scene.log with
  | mk raised log =>
    cases raised with
    | none => exact ⟨log, _, rfl, Or.inl rfl⟩
    | some raised =>
      refine ⟨log, _, rfl, Or.inr ⟨?_, raised, rfl⟩⟩
      cases sink with
      | none => cases recorded
      | some present => exact ⟨present, rfl, _, _, raised, (Prod.mk.inj recorded).1⟩

/-- The corner after an aborting pass that had acquired no locks. -/
theorem settled_aborted {α : Type} (ending : Ending α) (fault : Fault) (log : List Line)
    (fresh : scene.pass.book.acquired = []) :
    (scene.aborted fault log).settled ending before =
      { before with
        call := { before.call with failures := scene.failures, workerFailed := scene.workerFailed }
        plan := scene.driven.plan.abort (Failure.ofFault .plan (some fault))
        hooks := scene.driven.hooks
        locks := scene.pass.locks
        generation := before.generation + 1 } := by
  cases ending <;>
    simp [settled, aborted, Gate.settle, Gate.publish, Pass.release, Pass.notify, Pass.commit, fresh,
      Locks.unlockAll, Driven.abort]

theorem Polled.settled_aborted {α : Type} (state : scene.Polled before polled) (later : Scene)
    (ending : Ending α) (fault : Fault) (log : List Line)
    (plan : later.driven.plan = scene.driven.plan) (hooks : later.driven.hooks = scene.driven.hooks)
    (pass : later.pass = scene.pass) (failures : later.failures = scene.failures)
    (workerFailed : later.workerFailed = scene.workerFailed) :
    (later.aborted fault log).settled ending before =
      { before with
        plan := polled.plan.abort (Failure.ofFault .plan (some fault))
        generation := before.generation + 1 } := by
  rw [Scene.settled_aborted ending fault log (by rw [pass, state.fresh]), plan, hooks, pass, failures,
    workerFailed, state.plan, state.hooks, state.table, state.failures, state.workerFailed]

end Scene

/-- A selection raises the fault of a hook, finds no node, or hands one over. -/
theorem select_cases {driven : Driven} {pass : Pass} (throwing : driven.hooks.Throwing)
    (valid : driven.plan.Valid) (lease : Lease) (fresh : pass.book.acquired = []) :
    (∃ fault tally, driven.hooks.select driven.tally driven.plan = some fault ∧
      driven.select lease pass = (.error fault, { driven with tally }, pass)) ∨
    (∃ tally later, driven.plan.Starved lease pass.locks ∧ Plan.Idles pass later ∧
      driven.select lease pass = (.ok none, { driven with tally }, later)) ∨
    ∃ tally node entry later, driven.plan.Selects lease pass node entry later ∧
      driven.select lease pass =
        (.ok (some node), { driven with plan := driven.plan.hand lease node entry, tally }, later) := by
  unfold Driven.select
  cases hooked : driven.hooks.select driven.tally driven.plan with
  | some fault =>
    simp only [throwing.locksFirst, Bool.false_eq_true, if_false]
    exact Or.inl ⟨fault, _, rfl, rfl⟩
  | none =>
    have selection := Plan.select_selection valid.coherent lease fresh
    generalize driven.plan.select lease pass = result at selection
    cases selection with
    | none later starved idles => exact Or.inr (Or.inl ⟨_, later, starved, idles, rfl⟩)
    | some node entry later selects =>
      simp only [Driven.completeAtOnce, throwing.completesAtOnce, Option.any_eq_true,
        Bool.false_eq_true, and_false, exists_false, if_false]
      exact Or.inr (Or.inr ⟨_, node, entry, later, selects, rfl⟩)

namespace World

def sceneOf (world : World) (call : Call) (driven : Driven) : Scene :=
  { driven
    pass := { locks := world.locks }
    log := world.log
    failures := call.failures
    workerFailed := call.workerFailed }

theorem sceneOf_opens (world : World) (call : Call) (driven : Driven) :
    (world.sceneOf call driven).Opens (world.cornerOf call driven) :=
  ⟨rfl, rfl, rfl, rfl, rfl⟩

theorem pass_eq {α : Type} {work : Scene → Ending α × Scene} {ending : Ending α} {later : Scene}
    (worked : work (world.sceneOf call driven) = (ending, later)) :
    world.pass index call driven work = (ending, world.afterPass index call ending later) := by
  rw [sceneOf] at worked
  simp only [pass, worked]

theorem afterPass_shows {α : Type} (world : World) (index : Nat) (call : Call) (driven : Driven)
    (ending : Ending α) (later : Scene) :
    Shows world index call.plan (world.afterPass index call ending later)
      (later.settled ending (world.cornerOf call driven)) [] :=
  ⟨rfl, ⟨later.driven, rfl, rfl, rfl⟩, rfl, rfl, rfl, (List.append_nil _).symm⟩

theorem canceled_of_sees (call : Call) (missed : Bool) (sees : world.sees call missed = true) :
    (world.cornerOf call driven).canceled = true := by
  simp only [World.sees, Bool.and_eq_true] at sees
  exact sees.1.2

end World
end Foreman.Executor
