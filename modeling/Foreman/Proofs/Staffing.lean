import Foreman.Proofs.Turns

/-! The workers of a call and the pool that runs them. A call has no workers until
it is launched and keeps the same number of them from then on, and it ends only
after all of them have. -/

namespace Foreman.Executor

variable {index worker : Nat} {before later : Corner} {events : List Happening} {phase : Phase}

def Phase.job : Phase → Job
  | .gone fault => .ended fault
  | _ => .running

def Phase.IsGone (phase : Phase) : Prop := ∃ fault, phase = .gone fault

theorem Phase.job_running (present : ¬ phase.IsGone) : phase.job = .running := by
  cases phase with
  | gone fault => exact absurd ⟨fault, rfl⟩ present
  | hired | choosing | chosen | acting | completing | retiring | failing => rfl

theorem finish_name (pool : Pool) (job : Nat) (fault : Option Fault) :
    (pool.finish job fault).name = pool.name := by
  unfold Pool.finish
  split <;> rfl

/-- The part of a call that a worker changes by coming to a phase. -/
structure Corner.Moves (before : Corner) (worker : Nat) (phase : Phase) (later : Corner) : Prop where
  workers : later.call.workers = before.call.workers.set worker phase
  stage : later.call.stage = before.call.stage
  failures : later.call.failures = before.call.failures
  pool : (∃ fault, phase = .gone fault ∧
      later.call.pool = before.call.pool.finish worker fault) ∨
    ¬ phase.IsGone ∧ later.call.pool = before.call.pool
  failed : before.call.workerFailed = true → later.call.workerFailed = true

theorem WorkerDeed.moves (deed : WorkerDeed index worker before phase events later) :
    ¬ phase.IsGone ∧ ∃ next, before.Moves worker next later := by
  have stays {next : Phase} (present : ¬ next.IsGone) :
      (∃ fault, next = .gone fault ∧ before.call.pool = before.call.pool.finish worker fault) ∨
        ¬ next.IsGone ∧ before.call.pool = before.call.pool := Or.inr ⟨present, rfl⟩
  have here (phase : Phase) (lease : phase.lease? ≠ none) : ¬ phase.IsGone := by
    intro gone
    obtain ⟨fault, rfl⟩ := gone
    exact lease rfl
  cases deed with
  | settle =>
    refine ⟨?_, _, rfl, rfl, rfl, stays (here _ (by simp [Phase.lease?])), id⟩
    intro gone
    obtain ⟨fault, same⟩ := gone
    cases same
  | halt polls | select polls | park polls =>
    refine ⟨here _ (by simp [Phase.lease?]), ?_⟩
    cases polls with
    | unseen | seen =>
      exact ⟨_, rfl, rfl, rfl, stays (here _ (by simp [Phase.lease?])), id⟩
  | breakdown polls hooked next =>
    refine ⟨here _ (by simp [Phase.lease?]), _, rfl, rfl, rfl, stays (here _ ?_), id⟩
    rcases next with rfl | ⟨_, fault, rfl⟩ <;> simp [Phase.lease?]
  | start | refuse | request | instruct | finish | complete | drop | stumble =>
    exact ⟨here _ (by simp [Phase.lease?]), _, rfl, rfl, rfl,
      stays (here _ (by simp [Phase.lease?])), id⟩
  | retire =>
    exact ⟨here _ (by simp [Phase.lease?]), _, rfl, rfl, rfl, Or.inl ⟨none, rfl, rfl⟩, id⟩
  | fail =>
    exact ⟨here _ (by simp [Phase.lease?]), _, rfl, rfl, rfl, Or.inl ⟨_, rfl, rfl⟩, fun _ => rfl⟩

structure Call.Staffed (call : Call) : Prop where
  early : call.stage = .arriving ∨ call.stage = .launching → call.workers = []
  crew : call.workers = [] ∨ call.workers.length = call.executor.workers
  jobs : call.pool.jobs = call.workers.map Phase.job
  emptied : ∀ fault, call.stage = .gone fault → ∀ phase ∈ call.workers, phase.IsGone

theorem Call.Unmade.staffed {call : Call} (unmade : call.Unmade) : call.Staffed := by
  refine ⟨fun _ => unmade.workers, Or.inl unmade.workers, ?_, ?_⟩
  · rw [unmade.jobs, unmade.workers]
    rfl
  · intro fault gone
    simp [unmade.stage] at gone

theorem Call.Staffed.joinable {call : Call} (staffed : call.Staffed) :
    call.pool.isJoinable = true ↔ ∀ phase ∈ call.workers, phase.IsGone := by
  rw [Pool.isJoinable, staffed.jobs, List.all_map, List.all_eq_true]
  constructor
  · intro ended phase member
    have done := ended phase member
    cases phase with
    | gone fault => exact ⟨fault, rfl⟩
    | hired | choosing | chosen | acting | completing | retiring | failing => cases done
  · intro gone phase member
    obtain ⟨fault, rfl⟩ := gone phase member
    rfl

theorem WorkerDeed.staffed (deed : WorkerDeed index worker before phase events later)
    (there : before.call.workers[worker]? = some phase) (valid : before.plan.Valid)
    (staffed : before.call.Staffed) : later.call.Staffed := by
  obtain ⟨present, next, moves⟩ := deed.moves
  have kept := deed.kept valid
  have inside := (List.getElem?_eq_some_iff.mp there).1
  have nonempty : before.call.workers ≠ [] := List.ne_nil_of_length_pos (by omega)
  refine ⟨?_, ?_, ?_, ?_⟩
  · rw [moves.stage]
    exact fun early => absurd (staffed.early early) nonempty
  · rw [moves.workers, List.length_set, kept.executor]
    exact Or.inr (staffed.crew.resolve_left nonempty)
  · have job : before.call.pool.jobs[worker]? = some .running := by
      rw [staffed.jobs, List.getElem?_map, there, Option.map_some, Phase.job_running present]
    rw [moves.workers, List.map_set]
    rcases moves.pool with ⟨fault, rfl, pool⟩ | ⟨still, pool⟩
    · rw [pool, Pool.finish, if_pos job, staffed.jobs]
      rfl
    · rw [pool, Phase.job_running still, ← staffed.jobs]
      obtain ⟨within, running⟩ := List.getElem?_eq_some_iff.mp job
      rw [← running, List.set_getElem_self]
  · rw [moves.stage]
    intro fault gone
    exact absurd (staffed.emptied fault gone phase (List.mem_of_getElem? there)) present

theorem CallerDeed.staffed {stage : Stage} (deed : CallerDeed before stage later)
    (there : before.call.stage = stage) (staffed : before.call.Staffed) : later.call.Staffed := by
  have goes {after : Call} (workers : after.workers = before.call.workers)
      (executor : after.executor = before.call.executor) (pool : after.pool = before.call.pool)
      (early : after.stage ≠ .arriving ∧ after.stage ≠ .launching)
      (open_ : ∀ fault, after.stage ≠ .gone fault) : after.Staffed := by
    refine ⟨fun soon => (soon.elim early.1 early.2).elim, ?_, ?_, fun fault gone =>
      absurd gone (open_ fault)⟩
    · rw [workers, executor]
      exact staffed.crew
    · rw [workers, pool]
      exact staffed.jobs
  cases deed with
  | register =>
    refine ⟨fun _ => staffed.early (Or.inl there), staffed.crew, staffed.jobs, ?_⟩
    intro fault gone
    cases gone
  | launch =>
    refine ⟨?_, Or.inr (List.length_replicate ..), ?_, ?_⟩
    · intro soon
      rcases soon with soon | soon <;> cases soon
    · simp [Corner.withStage, Pool.launch, Phase.job]
    · intro fault gone
      cases gone
  | giveUp | queue | report | wait | collect | abort =>
    exact goes rfl rfl rfl ⟨by simp [Corner.withStage], by simp [Corner.withStage]⟩
      (by simp [Corner.withStage])
  | collapse polls hooked next =>
    rcases next with rfl | ⟨_, fault, rfl⟩
    · exact goes rfl rfl rfl ⟨by simp [Corner.withStage], by simp [Corner.withStage]⟩
        (by simp [Corner.withStage])
    · exact goes rfl rfl rfl ⟨by simp [Corner.withStage], by simp [Corner.withStage]⟩
        (by simp [Corner.withStage])
  | depart joinable =>
    refine ⟨?_, staffed.crew, staffed.jobs, fun _ _ => staffed.joinable.mp joinable⟩
    intro soon
    rcases soon with soon | soon <;> cases soon

end Foreman.Executor
