import Foreman.Proofs.GatePasses
import Foreman.Proofs.Occurrences

/-! What one step of a worker can be. Each step that a worker of a call makes is
one of a few deeds, and a deed says all that it does to the corner of the call. -/

namespace Foreman.Executor

def Instruction.failure? : Instruction → Option Failure
  | .fail failure | .err failure => some failure
  | .throw fault => some (.ofFault .execution (some fault))
  | .cancel | .check | .see | .thread | .add _ | .barrier _ | .await _ => none

/-- One step of a worker in some phase, with what happens and what it leaves. -/
inductive WorkerDeed (index worker : Nat) (before : Corner) :
    Phase → List Happening → Corner → Prop where
  | settle :
      WorkerDeed index worker before .hired []
        { before.withPhase worker
            (.choosing (before.locks.createChild before.call.executor.root).1 none) with
          locks := (before.locks.createChild before.call.executor.root).2 }
  /-- There is nothing left to select. -/
  | halt {lease : Lease} {parked : Option Nat} {polled : Corner} (polls : before.Polls polled)
      (reason : before.call.workerFailed = true ∨ polled.plan.remaining = 0) :
      WorkerDeed index worker before (.choosing lease parked) []
        (polled.withPhase worker (.retiring lease))
  /-- The plan raised a fault instead of selecting. -/
  | breakdown {lease : Lease} {parked : Option Nat} {polled : Corner} {failure : Failure}
      {phase : Phase} (polls : before.Polls polled)
      (hooked : ∃ tally plan fault, before.hooks.select tally plan = some fault)
      (next : phase = .retiring lease ∨
        Sink.Raises before.call.executor.sink ∧ ∃ fault, phase = .failing lease none fault) :
      WorkerDeed index worker before (.choosing lease parked) []
        ({ before with
            plan := polled.plan.abort failure
            generation := before.generation + 1 }.withPhase worker phase)
  | select {lease : Lease} {parked : Option Nat} {polled : Corner} {node : Nat} {entry : Entry}
      {pass later : Pass} (polls : before.Polls polled)
      (unfailed : before.call.workerFailed = false) (table : pass.locks = before.locks)
      (selects : polled.plan.Selects lease pass node entry later) :
      WorkerDeed index worker before (.choosing lease parked) [.selected index node]
        ({ polled with
            plan := polled.plan.hand lease node entry
            locks := later.locks }.withPhase worker (.chosen lease node))
  | park {lease : Lease} {parked : Option Nat} {polled : Corner} {locks : Locks}
      (polls : before.Polls polled) (unfailed : before.call.workerFailed = false)
      (remaining : polled.plan.remaining ≠ 0) (starved : polled.plan.Starved lease before.locks)
      (alike : before.locks.Alike locks) (steady : Pass.Steady before.locks locks) :
      WorkerDeed index worker before (.choosing lease parked) []
        ({ polled with locks }.withPhase worker (.choosing lease (some polled.generation)))
  | start {lease : Lease} {node : Nat} {entry : Entry} {action : Action}
      (found : before.plan.entries[node]? = some entry) (given : before.call.action = some action) :
      WorkerDeed index worker before (.chosen lease node) [.started index node]
        (before.withPhase worker (.acting lease node (action entry.node.id) none))
  /-- The action cannot start. -/
  | refuse {lease : Lease} {node : Nat} {failure : Failure}
      (reason : Sink.Raises before.call.executor.sink ∨
        before.call.action = none ∧ failure = .ofFault .execution (some .emptyCall)) :
      WorkerDeed index worker before (.chosen lease node) []
        ((before.withFailures node [failure]).withPhase worker (.completing lease node))
  /-- A request for cancellation goes on. -/
  | request {lease : Lease} {node generation : Nat} {rest : List Instruction} {request : Request}
      {left : Option Request} {canceled : Bool} {events : List Happening}
      (later : before.generation ≤ generation) (kept : before.canceled = true → canceled = true)
      (raised : request = .raise → canceled = true)
      (foreign : ∀ happening ∈ events, happening = .raised) :
      WorkerDeed index worker before (.acting lease node rest (some request)) events
        ({ before with generation, canceled }.withPhase worker (.acting lease node rest left))
  | instruct {lease : Lease} {node : Nat} {instruction : Instruction} {rest : List Instruction}
      {request : Option Request} {notes : List (String × Note)}
      (asked : ∀ asked, request = some asked → asked = .raise) :
      WorkerDeed index worker before (.acting lease node (instruction :: rest) none) []
        (({ before with call.notes := notes }.withFailures node
            instruction.failure?.toList).withPhase worker (.acting lease node rest request))
  /-- The action ends. Its last instruction tells with which failure, unless the
  log or a request for cancellation had a part in it. -/
  | finish {lease : Lease} {node : Nat} {rest : List Instruction} {failures : List Failure}
      (told : before.canceled = true ∨ Sink.Raises before.call.executor.sink ∨
        failures = (rest.head?.bind Instruction.failure?).toList ∧ (rest = [] ∨ failures ≠ [])) :
      WorkerDeed index worker before (.acting lease node rest none) [.ended index node]
        ((before.withFailures node failures).withPhase worker (.completing lease node))
  | complete {lease : Lease} {node : Nat}
      (unhooked : ∀ entry, before.plan.entries[node]? = some entry →
        ∃ tally, before.hooks.complete tally entry.node = none) :
      WorkerDeed index worker before (.completing lease node) []
        ({ before with
            plan := (before.plan.complete node before.locks).1
            locks := (before.plan.complete node before.locks).2
            generation := before.generation + 1 }.withPhase worker (.choosing lease none))
  /-- The plan raised a fault instead of completing. -/
  | drop {lease : Lease} {node : Nat} {fault : Fault} {entry : Entry}
      (found : before.plan.entries[node]? = some entry)
      (hooked : ∃ tally, before.hooks.complete tally entry.node = some fault) :
      WorkerDeed index worker before (.completing lease node) []
        (before.withPhase worker (.failing lease (some node) fault))
  | retire {lease : Lease} :
      WorkerDeed index worker before (.retiring lease) []
        { before.withPhase worker (.gone none) with
          call.pool := before.call.pool.finish worker none }
  | stumble {lease : Lease} {fault : Fault} (raises : Sink.Raises before.call.executor.sink) :
      WorkerDeed index worker before (.retiring lease) []
        (before.withPhase worker (.failing lease none fault))
  | fail {lease : Lease} {node : Option Nat} {fault escaped : Fault}
      (lasts : escaped = fault ∨ Sink.Raises before.call.executor.sink) :
      WorkerDeed index worker before (.failing lease node fault) []
        { ({ before with
              plan := (before.plan.disown node).abort (.ofFault .plan (some fault))
              locks := (before.locks.unlockAll (before.plan.heldBy node)).unlock (.lease lease)
              generation := before.generation + 1 }.withPhase worker (.gone (some escaped))) with
          call.pool := before.call.pool.finish worker (some escaped)
          call.workerFailed := true }

namespace World

variable {world : World} {index worker : Nat} {call : Call} {driven : Driven} {lease : Lease}
  {node : Nat}

def Works (world : World) (index worker : Nat) (call : Call) (driven : Driven) (phase : Phase)
    (after : World) : Prop :=
  ∃ events later, WorkerDeed index worker (world.cornerOf call driven) phase events later ∧
    Shows world index call.plan after later events

section

variable {missed : Bool} {parked : Option Nat} {scene : Scene} {polled : Corner}
  {tally : Tally} {later : Pass} {entry : Entry}
  (polling : (world.sceneOf call driven).poll (world.sees call missed) = (none, scene))
  (state : scene.Polled (world.cornerOf call driven) polled)
  (busy : ¬ (scene.workerFailed || !scene.driven.plan.hasRemaining) = true)

include polling state busy

private theorem choose_breaks {fault : Fault}
    (hooked : scene.driven.hooks.select scene.driven.tally scene.driven.plan = some fault)
    (selected : scene.driven.select lease scene.pass =
      (.error fault, { scene.driven with tally }, scene.pass)) :
    world.Works index worker call driven (.choosing lease parked)
      (world.choose missed index worker call driven lease) := by
  obtain ⟨log, ending, aborted, ended⟩ := Scene.abortWith_cases call.executor.sink fault
    (none : Option Nat) { scene with driven := { scene.driven with tally } }
  have chosen : Scene.choose call.executor.sink (world.sees call missed) lease
      (world.sceneOf call driven) =
        (ending, Scene.aborted { scene with driven := { scene.driven with tally } } fault log) := by
    simp only [Scene.choose, polling, busy, Bool.false_eq_true, if_false, selected]
    exact aborted
  have shown := afterPass_shows world index call driven ending
    (Scene.aborted { scene with driven := { scene.driven with tally } } fault log)
  rw [state.settled_aborted { scene with driven := { scene.driven with tally } } ending fault log
    rfl rfl rfl rfl rfl] at shown
  have hooked : ∃ tally plan fault, (world.cornerOf call driven).hooks.select tally plan =
      some fault := by
    rw [← state.hooks]
    exact ⟨_, _, fault, hooked⟩
  rw [World.choose, pass_eq chosen]
  rcases ended with rfl | ⟨raises, raised, rfl⟩
  · exact ⟨_, _, .breakdown state.polls hooked (Or.inl rfl), shown.setPhase worker _⟩
  · exact ⟨_, _, .breakdown state.polls hooked (Or.inr ⟨raises, raised, rfl⟩),
      shown.setPhase worker _⟩

private theorem choose_parks (unfailed : call.workerFailed = false)
    (remaining : polled.plan.remaining ≠ 0)
    (starved : scene.driven.plan.Starved lease scene.pass.locks) (idles : Plan.Idles scene.pass later)
    (selected : scene.driven.select lease scene.pass =
      (.ok none, { scene.driven with tally }, later)) :
    world.Works index worker call driven (.choosing lease parked)
      (world.choose missed index worker call driven lease) := by
  have chosen : Scene.choose call.executor.sink (world.sees call missed) lease
      (world.sceneOf call driven) =
        (.retry, { scene with driven := { scene.driven with tally }, pass := later }) := by
    simp only [Scene.choose, polling, busy, Bool.false_eq_true, if_false, selected]
  have shown := afterPass_shows world index call driven (.retry : Ending (Option Nat))
    { scene with driven := { scene.driven with tally }, pass := later }
  rw [state.settled_pass { scene with driven := { scene.driven with tally }, pass := later } _
    rfl idles.changed rfl rfl, state.plan] at shown
  have generation := shown.generation
  rw [state.plan, state.table] at starved
  rw [World.choose, pass_eq chosen]
  simp only [generation]
  exact ⟨_, _, .park state.polls unfailed remaining starved (state.table ▸ idles.alike)
    (state.table ▸ idles.steady), shown.setPhase worker _⟩

private theorem choose_selects (unfailed : call.workerFailed = false)
    (selects : scene.driven.plan.Selects lease scene.pass node entry later)
    (selected : scene.driven.select lease scene.pass = (.ok (some node),
      { scene.driven with plan := scene.driven.plan.hand lease node entry, tally }, later)) :
    world.Works index worker call driven (.choosing lease parked)
      (world.choose missed index worker call driven lease) := by
  have chosen : Scene.choose call.executor.sink (world.sees call missed) lease
      (world.sceneOf call driven) = (.finished (some node),
        { scene with
          driven := { scene.driven with plan := scene.driven.plan.hand lease node entry, tally }
          pass := later }) := by
    simp only [Scene.choose, polling, busy, Bool.false_eq_true, if_false, selected]
  have shown := afterPass_shows world index call driven (.finished (some node))
    { scene with
      driven := { scene.driven with plan := scene.driven.plan.hand lease node entry, tally }
      pass := later }
  rw [state.settled_pass
    { scene with
      driven := { scene.driven with plan := scene.driven.plan.hand lease node entry, tally }
      pass := later } _ rfl selects.changed rfl rfl, state.plan] at shown
  rw [state.plan] at selects
  rw [World.choose, pass_eq chosen, state.plan]
  exact ⟨_, _, .select state.polls unfailed state.table selects, (shown.happen _).setPhase worker _⟩

end

theorem choose_works (missed : Bool) {parked : Option Nat} (valid : driven.plan.Valid)
    (throwing : driven.hooks.Throwing) :
    world.Works index worker call driven (.choosing lease parked)
      (world.choose missed index worker call driven lease) := by
  obtain ⟨scene, polled, polling, state⟩ := Scene.poll_polled throwing
    (world.sceneOf_opens call driven) (canceled_of_sees call missed)
  by_cases done : (scene.workerFailed || !scene.driven.plan.hasRemaining) = true
  · have chosen : Scene.choose call.executor.sink (world.sees call missed) lease
        (world.sceneOf call driven) = (.finished none, scene) := by
      simp only [Scene.choose, polling, done, if_true]
    rw [World.choose, pass_eq chosen]
    refine ⟨_, _, .halt state.polls ?_, ?_⟩
    · rw [state.workerFailed, state.plan] at done
      simpa [Plan.hasRemaining] using done
    · rw [← state.settled]
      exact (afterPass_shows world index call driven _ scene).setPhase worker _
  · have busy := done
    rw [state.workerFailed, state.plan] at busy
    simp only [Plan.hasRemaining, Bool.or_eq_true, Bool.not_eq_true', decide_eq_false_iff_not,
      not_or, Bool.not_eq_true, Decidable.not_not] at busy
    obtain ⟨unfailed, remaining⟩ := busy
    have coherent : scene.driven.plan.Valid := by
      rw [state.plan]
      exact state.polls.valid valid
    have rules : scene.driven.hooks.Throwing := by
      rw [state.hooks]
      exact throwing
    rcases select_cases rules coherent lease state.fresh with
      ⟨fault, tally, hooked, selected⟩ | ⟨tally, later, starved, idles, selected⟩ |
        ⟨tally, node, entry, later, selects, selected⟩
    · exact choose_breaks polling state done hooked selected
    · exact choose_parks polling state done unfailed remaining starved idles selected
    · exact choose_selects polling state done unfailed selects selected

theorem settleIn_works (found : world.calls[index]? = some call)
    (planned : world.plans[call.plan]? = some driven) :
    world.Works index worker call driven .hired (world.settleIn index worker call) := by
  have shown := Shows.refl found planned
  refine ⟨_, _, .settle, ?_⟩
  exact (shown.withLocks (world.locks.createChild call.executor.root).2).setPhase worker _

theorem start_works (found : world.calls[index]? = some call)
    (planned : world.plans[call.plan]? = some driven) {entry : Entry}
    (present : driven.plan.entries[node]? = some entry)
    (executing : entry.node.state = .executing) :
    world.Works index worker call driven (.chosen lease node)
      (world.start index worker call lease node entry.node) := by
  have running : entry.node.state.isTerminal = false := by simp [executing, State.isTerminal]
  have shown := (start_strides found planned worker lease node running).shown
  simp only [beginning, tells] at shown
  cases answer : (world.record call
      (.nodeStarted entry.node.id (call.pool.threadName worker))).1 with
  | some fault =>
    have raises : Sink.Raises call.executor.sink :=
      raises_of_record (Prod.ext answer rfl : world.record call _ = (some fault, _))
    rw [answer] at shown
    exact ⟨_, _, .refuse (Or.inl raises), shown⟩
  | none =>
    rw [answer] at shown
    cases given : call.action with
    | none =>
      rw [given] at shown
      exact ⟨_, _, .refuse (Or.inr ⟨given, rfl⟩), shown⟩
    | some action =>
      rw [given] at shown
      exact ⟨_, _, .start present given, shown⟩

/-! Acting. -/

private theorem instructed_failures {plan : Plan} {id : String} {instruction : Instruction}
    {after : World} {request : Option Request}
    (followed : world.follow index worker call plan node id instruction = .goOn after request) :
    Occurrence.failures (world.instructed index worker call plan node id instruction) =
      instruction.failure?.toList := by
  unfold instructed
  rw [followed]
  cases instruction <;> first | rfl | cases followed

private theorem endAction_works (found : world.calls[index]? = some call)
    (planned : world.plans[call.plan]? = some driven) {rest : List Instruction} (id : String)
    (result : Result)
    (told : world.token.canceled = true ∨
      result.failure?.toList = (rest.head?.bind Instruction.failure?).toList ∧
        (rest = [] ∨ result.failure?.toList ≠ [])) :
    world.Works index worker call driven (.acting lease node rest none)
      (world.endAction index worker call lease node id result) := by
  have shown := (endAction_strides found planned worker lease node id result).shown
  refine ⟨_, _, .finish ?_, shown⟩
  rcases told with canceled | told
  · exact Or.inl canceled
  · rcases world.ending_failures call id (call.pool.threadName worker) result with raises | same
    · exact Or.inr (Or.inl raises)
    · rw [same]
      exact Or.inr (Or.inr told)

private theorem follow_ends {id : String} {instruction : Instruction} {result : Result} {plan : Plan}
    (followed : world.follow index worker call plan node id instruction = .ends result) :
    world.token.canceled = true ∨
      result.failure?.toList = instruction.failure?.toList ∧ result.failure?.toList ≠ [] := by
  cases instruction with
  | fail failure | cancel | see | thread => cases followed
  | err failure | throw fault =>
    cases followed
    exact Or.inr ⟨rfl, by simp [Result.failure?]⟩
  | check =>
    simp only [follow] at followed
    split at followed
    next canceled => exact Or.inl canceled
    · cases followed
  | add added =>
    simp only [follow] at followed
    split at followed <;> cases followed
  | barrier count | await ids =>
    simp only [follow] at followed
    split at followed <;> cases followed

theorem act_works (found : world.calls[index]? = some call)
    (planned : world.plans[call.plan]? = some driven) (started : driven.plan.started = true)
    {id : String} {rest : List Instruction} {request : Option Request} {after : World}
    (acted : world.act index worker call driven.plan lease node id rest request = some after) :
    world.Works index worker call driven (.acting lease node rest request) after := by
  cases request with
  | some request =>
    cases acted
    obtain ⟨events, outside, raised⟩ := advanceRequest_outside world request
    have shown := (Shows.refl found planned).outside outside
    exact ⟨_, _, .request outside.generation outside.canceled raised outside.foreign,
      shown.setPhase worker _⟩
  | none =>
    cases rest with
    | nil =>
      cases acted
      exact endAction_works found planned id (.returned none) (Or.inr ⟨rfl, Or.inl rfl⟩)
    | cons instruction rest =>
      simp only [act] at acted
      split at acted
      next followed =>
        cases acted
        obtain ⟨notes, stride, asked⟩ := follow_strides found planned lease rest started followed
        have shown := stride.shown
        rw [instructed_failures followed] at shown
        exact ⟨_, _, .instruct asked, shown⟩
      next followed =>
        cases acted
        apply endAction_works found planned
        exact (follow_ends followed).imp_right fun told => ⟨told.1, Or.inr told.2⟩
      · cases acted

/-! Completing and leaving. -/

theorem complete_works (world : World) (index worker : Nat) (call : Call) (driven : Driven)
    (lease : Lease) (node : Nat) :
    world.Works index worker call driven (.completing lease node)
      (world.complete index worker call driven lease node) := by
  cases hooked : (driven.plan.node? node).bind (driven.hooks.complete driven.tally) with
  | some fault =>
    have completed : Scene.complete node (world.sceneOf call driven) =
        (.thrown fault, { world.sceneOf call driven with
          driven := { driven with tally.completed := driven.tally.completed + 1 } }) := by
      simp only [Scene.complete, sceneOf, Driven.complete, hooked]
    obtain ⟨present, known, raised⟩ := Option.bind_eq_some_iff.mp hooked
    obtain ⟨entry, found, rfl⟩ := Plan.entry_of_node? known
    have shown := afterPass_shows world index call driven (.thrown fault : Ending Unit)
      { world.sceneOf call driven with
        driven := { driven with tally.completed := driven.tally.completed + 1 } }
    rw [World.complete, pass_eq completed]
    exact ⟨_, _, .drop found ⟨_, raised⟩, shown.setPhase worker _⟩
  | none =>
    have completed : Scene.complete node (world.sceneOf call driven) =
        (.finished (), { world.sceneOf call driven with
          driven := { driven with
            plan := (driven.plan.complete node world.locks).1
            tally.completed := driven.tally.completed + 1 }
          pass := Pass.notify { locks := (driven.plan.complete node world.locks).2 } }) := by
      simp only [Scene.complete, sceneOf, Driven.complete, hooked]
    have shown := afterPass_shows world index call driven (.finished ())
      { world.sceneOf call driven with
        driven := { driven with
          plan := (driven.plan.complete node world.locks).1
          tally.completed := driven.tally.completed + 1 }
        pass := Pass.notify { locks := (driven.plan.complete node world.locks).2 } }
    rw [World.complete, pass_eq completed]
    refine ⟨_, _, .complete fun entry found => ?_, shown.setPhase worker _⟩
    have known : driven.plan.node? node = some entry.node := Plan.node?_eq found
    rw [known] at hooked
    exact ⟨_, hooked⟩

theorem fail_works (world : World) (index worker : Nat) (call : Call) (driven : Driven)
    (lease : Lease) (node : Option Nat) (fault : Fault) :
    world.Works index worker call driven (.failing lease node fault)
      (world.fail index worker call driven lease node fault) := by
  have dropped : ∃ scene : Scene, scene.driven.plan = driven.plan.disown node ∧
      scene.driven.hooks = driven.hooks ∧
      scene.pass = { locks := (world.locks.unlockAll (driven.plan.heldBy node)).unlock (.lease lease) } ∧
      scene.failures = call.failures ∧ scene.workerFailed = true ∧
      Scene.failRun call.executor.sink lease node fault (world.sceneOf call driven) =
        scene.abortWith call.executor.sink fault () := by
    cases node with
    | none => exact ⟨_, rfl, rfl, rfl, rfl, rfl, rfl⟩
    | some node => exact ⟨_, rfl, rfl, rfl, rfl, rfl, rfl⟩
  obtain ⟨scene, plan, hooks, pass, failures, workerFailed, failed⟩ := dropped
  obtain ⟨log, ending, aborted, ended⟩ := scene.abortWith_cases call.executor.sink fault ()
  have shown := afterPass_shows world index call driven ending (scene.aborted fault log)
  rw [Scene.settled_aborted ending fault log (by rw [pass]), plan, hooks, pass, failures,
    workerFailed] at shown
  rw [World.fail, pass_eq (failed.trans aborted)]
  rcases ended with rfl | ⟨raises, raised, rfl⟩
  · exact ⟨_, _, .fail (Or.inl rfl), shown.leave worker _⟩
  · exact ⟨_, _, .fail (Or.inr raises), shown.leave worker _⟩

theorem retire_works (found : world.calls[index]? = some call)
    (planned : world.plans[call.plan]? = some driven) :
    world.Works index worker call driven (.retiring lease) (world.retire index worker call lease) := by
  have shown := Shows.refl found planned
  simp only [World.retire]
  cases recorded : world.record call (.workerFinished (call.pool.threadName worker) 0 0) with
  | mk fault after =>
    have told := shown.record recorded
    cases fault with
    | some fault => exact ⟨_, _, .stumble (raises_of_record recorded), told.setPhase worker _⟩
    | none => exact ⟨_, _, .retire, (told.addStat call _).leave worker none⟩

/-- Every step of a worker is a deed, provided that its plan is in order and that the
node that it owns is being executed. -/
theorem advanceWorker_works (found : world.calls[index]? = some call)
    (planned : world.plans[call.plan]? = some driven) (valid : driven.plan.Valid)
    (throwing : driven.hooks.Throwing) {missed : Bool} {phase : Phase} {after : World}
    (busy : ∀ node, phase.node? = some node → driven.plan.state? node = some .executing)
    (advanced : world.advanceWorker missed index worker call driven phase = some after) :
    world.Works index worker call driven phase after := by
  cases phase with
  | hired =>
    cases advanced
    exact settleIn_works found planned
  | choosing lease parked =>
    simp only [advanceWorker] at advanced
    split at advanced
    · cases advanced
    · cases advanced
      exact choose_works missed valid throwing
  | chosen lease node =>
    obtain ⟨entry, present, executing⟩ := Plan.entry_of_state? (busy node rfl)
    simp only [advanceWorker, Plan.node?_eq present, Option.map_some, Option.some.injEq] at advanced
    subst advanced
    exact start_works found planned present executing
  | acting lease node rest request =>
    obtain ⟨entry, present, executing⟩ := Plan.entry_of_state? (busy node rfl)
    have begun := valid.begun present (by simp [executing])
    simp only [advanceWorker, Plan.node?_eq present, Option.bind_some] at advanced
    exact act_works found planned begun.started advanced
  | completing lease node =>
    cases advanced
    exact complete_works world index worker call driven lease node
  | retiring lease =>
    cases advanced
    exact retire_works found planned
  | failing lease node fault =>
    cases advanced
    exact fail_works world index worker call driven lease node fault
  | gone fault => cases advanced

end World
end Foreman.Executor
