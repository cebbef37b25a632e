import Foreman.Proofs.OwnershipTurns

/-! What executors count. Every thread of a call leaves one entry in the statistics when
its work is done: the one that makes the call when all is queued, and each worker when
it retires. -/

namespace Foreman.Executor

variable {index worker : Nat} {before later : Corner} {events : List Happening} {phase : Phase}
  {name : String}

/-! What becomes of one call. -/

/-- Whether the thread that makes the call has left its entry. This cannot be told if a
fault has escaped from it. -/
def Stage.reported? : Stage → Option Bool
  | .arriving | .launching | .queueing _ | .reporting => some false
  | .awaiting _ | .joining none | .gone none => some true
  | .aborting _ | .joining (some _) | .gone (some _) => none

def Stage.isManned : Stage → Bool
  | .queueing _ | .reporting | .awaiting _ | .joining none | .gone none => true
  | .arriving | .launching | .aborting _ | .joining (some _) | .gone (some _) => false

/-- The call has the workers that it wants, and it returns only if all of them do. -/
structure Call.Proper (call : Call) (name : String) : Prop where
  crew : call.stage.isManned = true → call.workers.length = call.executor.workers
  title : call.workers ≠ [] → call.pool.name = s!"Execution worker for '{name}'"
  raised : call.pool.failure = none → ∀ phase ∈ call.workers, ∀ fault, phase ≠ .gone (some fault)
  returned : call.stage = .gone none → ∀ phase ∈ call.workers, phase = .gone none

theorem Call.Unmade.proper {call : Call} (unmade : call.Unmade) (name : String) :
    call.Proper name := by
  refine ⟨?_, fun hired => absurd unmade.workers hired, ?_, ?_⟩
  · simp [unmade.stage, Stage.isManned]
  · simp [unmade.workers]
  · simp [unmade.workers]

theorem WorkerDeed.proper (deed : WorkerDeed index worker before phase events later)
    (there : before.call.workers[worker]? = some phase) (valid : before.plan.Valid)
    (staffed : before.call.Staffed) (proper : before.call.Proper name) :
    later.call.Proper name := by
  obtain ⟨present, next, moves⟩ := deed.moves
  have executor := (deed.kept valid).executor
  have member := List.mem_of_getElem? there
  refine ⟨?_, ?_, ?_, ?_⟩
  · rw [moves.stage, moves.workers, List.length_set, executor]
    exact proper.crew
  · intro _
    have title := proper.title (List.ne_nil_of_mem member)
    rcases moves.pool with ⟨fault, _, pool⟩ | ⟨_, pool⟩
    · rw [pool, finish_name, title]
    · rw [pool, title]
  · have calm : later.call.pool.failure = none →
        before.call.pool.failure = none ∧ ∀ fault, next ≠ .gone (some fault) := by
      intro unraised
      rcases moves.pool with ⟨outcome, rfl, pool⟩ | ⟨still, pool⟩
      · have job : before.call.pool.jobs[worker]? = some .running := by
          rw [staffed.jobs, List.getElem?_map, there, Option.map_some, Phase.job_running present]
        simp only [pool, Pool.finish, job, if_true] at unraised
        cases raised : before.call.pool.failure <;> cases outcome <;> simp [raised] at unraised ⊢
      · exact ⟨pool ▸ unraised, fun fault same => still ⟨some fault, same⟩⟩
    intro unraised other inside
    obtain ⟨earlier, own⟩ := calm unraised
    rw [moves.workers] at inside
    rcases List.mem_or_eq_of_mem_set inside with inside | rfl
    · exact proper.raised earlier other inside
    · exact own
  · rw [moves.stage]
    intro gone
    exact absurd ⟨none, proper.returned gone phase member⟩ present

theorem CallerDeed.proper {stage : Stage} (deed : CallerDeed before stage later)
    (there : before.call.stage = stage) (named : before.plan.name = name)
    (staffed : before.call.Staffed) (proper : before.call.Proper name) :
    later.call.Proper name := by
  have crew := proper.crew
  rw [there] at crew
  cases deed with
  | register | giveUp | abort =>
    refine ⟨?_, proper.title, proper.raised, ?_⟩ <;> simp [Corner.withStage, Stage.isManned]
  | launch =>
    refine ⟨fun _ => List.length_replicate .., fun _ => named ▸ rfl, ?_, ?_⟩
    · intro _ phase inside fault gone
      cases (List.mem_replicate.mp inside).2.symm.trans gone
    · simp [Corner.withStage]
  | queue | report | wait | collect =>
    refine ⟨fun _ => crew rfl, proper.title, proper.raised, ?_⟩
    simp [Corner.withStage]
  | collapse polls hooked next =>
    refine ⟨fun _ => crew rfl, proper.title, proper.raised, ?_⟩
    rcases next with rfl | ⟨_, fault, rfl⟩ <;> simp [Corner.withStage]
  | @depart fault joinable =>
    refine ⟨?_, proper.title, proper.raised, ?_⟩
    · cases fault with
      | some fault => simp [Corner.withStage, Stage.isManned]
      | none => exact fun _ => crew rfl
    · intro fine phase member
      have unraised : fault = none ∧ before.call.pool.failure = none := by
        have same := Stage.gone.inj fine
        cases fault with
        | some fault => cases same
        | none => exact ⟨rfl, same⟩
      obtain ⟨outcome, rfl⟩ := staffed.joinable.mp joinable phase member
      cases outcome with
      | none => rfl
      | some fault => exact absurd rfl (proper.raised unraised.2 _ member fault)

private theorem set_present {workers : List Phase} {next : Phase} (present : next ≠ .gone none) :
    (workers.set worker next)[worker]? ≠ some (.gone none) := by
  rw [List.getElem?_set, if_pos rfl]
  split
  · exact fun same => present (Option.some.inj same)
  · simp

theorem WorkerDeed.present (deed : WorkerDeed index worker before phase events later)
    (busy : ∀ lease, phase ≠ .retiring lease) :
    later.call.workers[worker]? ≠ some (.gone none) := by
  cases deed with
  | settle | halt | select | park | start | refuse | request | instruct | finish | complete | drop
  | fail => exact set_present (by simp)
  | breakdown polls hooked next => rcases next with rfl | ⟨_, fault, rfl⟩ <;> exact set_present (by simp)
  | retire | stumble => exact absurd rfl (busy _)

/-! What one step adds to the statistics. -/

namespace World

variable {world after start : World} {missed : Bool} {move : Move} {call : Call} {driven : Driven}
  {threads : List Move}

theorem record_stats {event : Event} {fault : Option Fault}
    (recorded : world.record call event = (fault, after)) : after.stats = world.stats := by
  cases recorded
  rfl

theorem pass_stats {α : Type} {work : Scene → Ending α × Scene} {ending : Ending α}
    (passed : world.pass index call driven work = (ending, after)) : after.stats = world.stats := by
  cases passed
  rfl

theorem advanceRequest_stats (world : World) (request : Request) :
    (world.advanceRequest request).2.stats = world.stats := by
  unfold advanceRequest
  split
  · split <;> rfl
  · rfl
  · rfl
  · rfl

/-- The thread that makes a call leaves its entry when all is queued. -/
theorem advanceCaller_stats (advanced : world.advanceCaller missed index call driven = some after) :
    call.stage = .reporting ∧ after.stats = world.stats ++
        [{ owner := call.owner, label := queuerLabel call driven.plan }] ∨
      call.stage ≠ .reporting ∧ after.stats = world.stats := by
  simp only [advanceCaller] at advanced
  cases stage : call.stage with
  | arriving =>
    rw [stage] at advanced
    cases advanced
    refine Or.inr ⟨by simp, ?_⟩
    simp only [register]
    split
    · split <;> rfl
    · rfl
  | launching =>
    rw [stage] at advanced
    cases advanced
    refine Or.inr ⟨by simp, ?_⟩
    simp only [launch]
    split <;> next recorded => exact (record_stats recorded :)
  | queueing parked =>
    simp only [stage] at advanced
    split at advanced
    · cases advanced
    · cases advanced
      refine Or.inr ⟨by simp, ?_⟩
      simp only [queue]
      split <;> next passed => exact (pass_stats passed :)
  | reporting =>
    rw [stage] at advanced
    cases advanced
    exact Or.inl ⟨rfl, rfl⟩
  | awaiting parked =>
    simp only [stage] at advanced
    split at advanced
    · cases advanced
    · cases advanced
      refine Or.inr ⟨by simp, ?_⟩
      simp only [await]
      split <;> next passed => exact (pass_stats passed :)
  | aborting fault =>
    rw [stage] at advanced
    cases advanced
    refine Or.inr ⟨by simp, ?_⟩
    simp only [abort]
    split <;> next passed => exact (pass_stats passed :)
  | joining fault =>
    simp only [stage] at advanced
    obtain ⟨stopped, _, rfl⟩ := Option.map_eq_some_iff.mp advanced
    exact Or.inr ⟨by simp, rfl⟩
  | gone fault =>
    rw [stage] at advanced
    cases advanced

theorem recordOnNode_stats {event : Event} {told : Bool} {node : Nat}
    (recorded : world.recordOnNode call node event = (told, after)) : after.stats = world.stats := by
  simp only [recordOnNode] at recorded
  split at recorded <;> next written =>
    cases recorded
    exact (record_stats written :)

theorem start_stats (world : World) (index worker : Nat) (call : Call) (lease : Lease)
    (position : Nat) (node : Node) :
    (world.start index worker call lease position node).stats = world.stats := by
  simp only [World.start]
  split
  · rfl
  · split
    next recorded => exact (recordOnNode_stats recorded :)
    next recorded => split <;> exact (recordOnNode_stats recorded :)

theorem endAction_stats (world : World) (index worker : Nat) (call : Call) (lease : Lease)
    (position : Nat) (id : String) (result : Result) :
    (world.endAction index worker call lease position id result).stats = world.stats := by
  have told (told : World) : (told.recordOnNode call position
      (.nodeCompleted id (call.pool.threadName worker) 0)).2.stats = told.stats :=
    recordOnNode_stats rfl
  cases result with
  | raised fault => rfl
  | returned failure =>
    cases failure with
    | none => exact told _
    | some failure => exact told _

theorem follow_stats {plan : Plan} {position : Nat} {id : String} {instruction : Instruction}
    {request : Option Request}
    (went : world.follow index worker call plan position id instruction = .goOn after request) :
    after.stats = world.stats := by
  cases instruction with
  | err failure => cases went
  | throw fault => cases went
  | fail failure | cancel | thread =>
    cases went
    rfl
  | check =>
    simp only [follow] at went
    split at went
    · cases went
    · cases went
      rfl
  | see =>
    cases went
    cases plan.view? position world.locks <;> rfl
  | add added =>
    simp only [follow] at went
    split at went <;> cases went <;> rfl
  | barrier count =>
    simp only [follow] at went
    split at went
    · cases went
      rfl
    · cases went
  | await ids =>
    simp only [follow] at went
    split at went
    · cases went
      rfl
    · cases went

theorem act_stats {plan : Plan} {lease : Lease} {position : Nat} {id : String}
    {rest : List Instruction} {request : Option Request}
    (acted : world.act index worker call plan lease position id rest request = some after) :
    after.stats = world.stats := by
  simp only [act] at acted
  split at acted
  next request =>
    cases acted
    exact advanceRequest_stats world request
  · cases acted
    exact endAction_stats ..
  next instruction rest =>
    split at acted
    next went =>
      cases acted
      exact (follow_stats went :)
    · cases acted
      exact endAction_stats ..
    · cases acted

theorem advanceWorker_stats_busy (busy : ∀ lease, phase ≠ .retiring lease)
    (advanced : world.advanceWorker missed index worker call driven phase = some after) :
    after.stats = world.stats := by
  cases phase with
  | hired =>
    cases advanced
    rfl
  | choosing lease parked =>
    simp only [advanceWorker] at advanced
    split at advanced
    · cases advanced
    · cases advanced
      simp only [choose]
      split <;> next passed => exact (pass_stats passed :)
  | chosen lease node =>
    obtain ⟨entry, _, rfl⟩ := Option.map_eq_some_iff.mp advanced
    exact start_stats ..
  | acting lease node rest request =>
    obtain ⟨entry, _, acted⟩ := Option.bind_eq_some_iff.mp advanced
    exact act_stats acted
  | completing lease node =>
    cases advanced
    simp only [complete]
    split <;> next passed => exact (pass_stats passed :)
  | retiring lease => exact absurd rfl (busy lease)
  | failing lease node fault =>
    cases advanced
    simp only [fail]
    split <;> next passed => exact (pass_stats passed :)
  | gone fault => cases advanced

/-- A worker leaves its entry when it ends without a fault. -/
theorem advanceWorker_stats (works : world.Works index worker call driven phase after)
    (found : world.calls[index]? = some call) (planned : world.plans[call.plan]? = some driven)
    (there : call.workers[worker]? = some phase)
    (advanced : world.advanceWorker missed index worker call driven phase = some after) :
    after.phase? index worker = some (.gone none) ∧ after.stats = world.stats ++
        [{ owner := call.owner, label := call.pool.threadName worker }] ∨
      after.phase? index worker ≠ some (.gone none) ∧ after.stats = world.stats := by
  cases phase with
  | retiring lease =>
    cases advanced
    have inside := (List.getElem?_eq_some_iff.mp there).1
    have here := Shows.refl found planned
    simp only [retire]
    split
    next fault told recorded =>
      have shown := (here.record recorded).setPhase worker (.failing lease none fault)
      refine Or.inr ⟨?_, (record_stats recorded :)⟩
      rw [phase?, shown.call? found, if_pos rfl]
      exact set_present (by simp)
    next told recorded =>
      have shown := ((here.record recorded).addStat call (call.pool.threadName worker)).leave worker
        none
      refine Or.inl ⟨?_, ?_⟩
      · rw [phase?, shown.call? found, if_pos rfl]
        exact List.getElem?_set_self inside
      · exact congrArg (· ++ _) (record_stats recorded)
  | hired | choosing | chosen | acting | completing | failing | gone =>
    obtain ⟨events, later, deed, shown⟩ := works
    refine Or.inr ⟨?_, advanceWorker_stats_busy (by simp) advanced⟩
    rw [phase?, shown.call? found, if_pos rfl]
    exact deed.present (by simp)

end World
end Foreman.Executor
