import Foreman.Proofs.CornerTurns

/-! Runs do not get stuck. If every thread were parked or gone, nobody would own a
node, so no lease and no resource would be taken and every ready node could be
selected. A plan in which no node is ready or in execution is over, and of that
every parked thread has heard. -/

namespace Foreman

namespace Executor

/-- Whether the instruction may have to wait for other actions. -/
def Instruction.Waits : Instruction → Prop
  | .barrier _ | .await _ => True
  | .fail _ | .cancel | .check | .see | .thread | .add _ | .err _ | .throw _ => False

def Move.IsThread : Move → Prop
  | .caller _ | .worker .. => True
  | .request _ | .cancel => False

namespace World

variable {start world : World} {moves : List (Bool × Move)} {index worker place : Nat} {call : Call}
  {driven : Driven} {phase : Phase}

/-- Whoever makes that step can make it, whatever it misses. -/
def Able (world : World) (move : Move) : Prop := ∀ missed, (world.step missed move).isSome

/-- The action of some worker waits for other actions. -/
def Awaits (world : World) : Prop :=
  ∃ index worker place lease node instruction rest,
    world.At index worker place (.acting lease node (instruction :: rest) none) ∧ instruction.Waits

theorem follow_goes (index worker : Nat) (call : Call) (plan : Plan) (position : Nat) (id : String)
    {instruction : Instruction} (prompt : ¬ instruction.Waits) :
    world.follow index worker call plan position id instruction ≠ .waits := by
  cases instruction with
  | barrier | await => exact absurd trivial prompt
  | err | throw | fail | cancel | see | thread => simp [follow]
  | check =>
    simp only [follow]
    split <;> simp
  | add =>
    simp only [follow]
    split <;> simp

/-- A worker that can make no step has gone or is parked, unless its action waits. -/
theorem worker_able (owned : world.Owned) (there : world.At index worker place phase) :
    phase.IsGone ∨ (∃ lease, phase = .choosing lease (some world.generation)) ∨ world.Awaits ∨
      world.Able (.worker index worker) := by
  obtain ⟨call, found, rfl, present⟩ := there
  obtain ⟨driven, planned⟩ := owned.planned index call found
  have able (goes : ∀ missed,
      (world.advanceWorker missed index worker call driven phase).isSome) :
      world.Able (.worker index worker) := by
    intro missed
    simp only [step, stepWorker, found, planned, present]
    exact goes missed
  have owned (position : Nat) (owns : phase.node? = some position) :
      ∃ node, driven.plan.node? position = some node := by
    have busy := (owned.lawful found planned).busy worker phase present position owns
    obtain ⟨node, known, _⟩ := Option.map_eq_some_iff.mp busy
    exact ⟨node, known⟩
  cases phase with
  | gone fault => exact Or.inl ⟨fault, rfl⟩
  | hired | completing | retiring | failing =>
    exact Or.inr (Or.inr (Or.inr (able fun _ => rfl)))
  | choosing lease parked =>
    by_cases parks : parked = some world.generation
    · exact Or.inr (Or.inl ⟨lease, parks ▸ rfl⟩)
    · refine Or.inr (Or.inr (Or.inr (able fun _ => ?_)))
      simp [advanceWorker, waits, parks]
  | chosen lease position =>
    obtain ⟨node, known⟩ := owned position rfl
    refine Or.inr (Or.inr (Or.inr (able fun _ => ?_)))
    simp [advanceWorker, known]
  | acting lease position rest request =>
    obtain ⟨node, known⟩ := owned position rfl
    have goes (acts : (world.act index worker call driven.plan lease position node.id rest
        request).isSome) : world.Able (.worker index worker) := by
      apply able
      intro missed
      simp only [advanceWorker, known, Option.bind_some]
      exact acts
    cases request with
    | some request => exact Or.inr (Or.inr (Or.inr (goes (by simp [act]))))
    | none =>
      cases rest with
      | nil => exact Or.inr (Or.inr (Or.inr (goes (by simp [act]))))
      | cons instruction rest =>
        by_cases waits : instruction.Waits
        · exact Or.inr (Or.inr (Or.inl ⟨index, worker, call.plan, lease, position, instruction, rest,
            ⟨call, found, rfl, present⟩, waits⟩))
        · refine Or.inr (Or.inr (Or.inr (goes ?_)))
          have prompt : world.follow index worker call driven.plan position node.id instruction ≠
              .waits := follow_goes index worker call driven.plan position node.id waits
          simp only [act]
          split
          · rfl
          · rfl
          next waits => exact absurd waits prompt

/-- A thread that can make no step has made its call, is parked, or joins workers. -/
theorem caller_able (owned : world.Owned) (found : world.calls[index]? = some call) :
    (∃ fault, call.stage = .gone fault) ∨ call.stage = .queueing (some world.generation) ∨
      call.stage = .awaiting (some world.generation) ∨
      (∃ fault, call.stage = .joining fault) ∧ (∃ phase ∈ call.workers, ¬ phase.IsGone) ∨
      world.Able (.caller index) := by
  obtain ⟨driven, planned⟩ := owned.planned index call found
  have able (goes : ∀ missed, (world.advanceCaller missed index call driven).isSome) :
      world.Able (.caller index) := by
    intro missed
    simp only [step, stepCaller, found, planned]
    exact goes missed
  cases stage : call.stage with
  | gone fault => exact Or.inl ⟨fault, rfl⟩
  | arriving | launching | reporting | aborting =>
    exact Or.inr (Or.inr (Or.inr (Or.inr (able fun _ => by simp [advanceCaller, stage]))))
  | queueing parked =>
    by_cases parks : parked = some world.generation
    · exact Or.inr (Or.inl (parks ▸ rfl))
    · exact Or.inr (Or.inr (Or.inr (Or.inr (able fun _ => by
        simp [advanceCaller, stage, waits, parks]))))
  | awaiting parked =>
    by_cases parks : parked = some world.generation
    · exact Or.inr (Or.inr (Or.inl (parks ▸ rfl)))
    · exact Or.inr (Or.inr (Or.inr (Or.inr (able fun _ => by
        simp [advanceCaller, stage, waits, parks]))))
  | joining fault =>
    by_cases all : ∀ phase ∈ call.workers, phase.IsGone
    · have joinable := (owned.staffed index call found).joinable.mpr all
      exact Or.inr (Or.inr (Or.inr (Or.inr (able fun _ => by
        simp [advanceCaller, stage, Pool.stop, joinable]))))
    · obtain ⟨phase, present⟩ := Classical.not_forall.mp all
      obtain ⟨member, present⟩ := Classical.not_imp.mp present
      exact Or.inr (Or.inr (Or.inr (Or.inl ⟨⟨fault, rfl⟩, phase, member, present⟩)))

/-! From the start on. -/

theorem Start.alert_alone (fresh : start.Start) (alone : start.Alone index)
    (single : ∀ (call : Call) (driven : Driven) (position : Nat) (entry : Entry),
      start.calls[index]? = some call → start.plans[call.plan]? = some driven →
      driven.plan.entries[position]? = some entry → entry.node.resources.Nodup)
    (ran : start.play moves = some world) (found : world.calls[index]? = some call)
    (planned : world.plans[call.plan]? = some driven) : (world.cornerOf call driven).Alert := by
  refine fresh.sees alone (fun corner _ => corner.Alert) ran found planned ?_ ?_
  · intro call driven found planned
    have unmade := fresh.unmade index call found
    refine ⟨?_, ?_, fun position entry => single call driven position entry found planned, ?_⟩
    · simp only [cornerOf, unmade.stage]
      trivial
    · simp [cornerOf, unmade.workers]
    · intro position entry found executing
      exact absurd ((Plan.state?_eq found).trans (congrArg some executing))
        (fresh.idle _ driven planned position)
  · intro world call driven move events history later _ lawful turns alert
    cases turns with
    | worker there deed =>
      exact deed.alert there alert lawful.valid lawful.sound lawful.rooted
        (lawful.leased _ _ there) (lawful.busy _ _ there)
    | caller deed => exact deed.alert alert lawful.valid
    | elsewhere shares => exact alert.elsewhere shares lawful.valid

theorem Start.alert (fresh : start.Start) (alone : start.Alone index)
    (single : ∀ (place : Nat) (driven : Driven) (position : Nat) (entry : Entry),
      start.plans[place]? = some driven → driven.plan.entries[position]? = some entry →
      entry.node.resources.Nodup)
    (ran : start.play moves = some world) (found : world.calls[index]? = some call)
    (planned : world.plans[call.plan]? = some driven) : (world.cornerOf call driven).Alert :=
  fresh.alert_alone alone (fun _ driven position entry _ => single _ driven position entry)
    ran found planned

/-! No thread can go on. -/

structure Stuck (world : World) : Prop where
  unable : ∀ move : Move, move.IsThread → ¬ world.Able move
  unawaited : ¬ world.Awaits

theorem Stuck.parked {place : Nat} (stuck : world.Stuck) (owned : world.Owned)
    (at_ : world.At index worker place phase) :
    phase.IsGone ∨ ∃ lease, phase = .choosing lease (some world.generation) := by
  rcases worker_able owned at_ with gone | parks | awaits | able
  · exact Or.inl gone
  · exact Or.inr parks
  · exact absurd awaits stuck.unawaited
  · exact absurd able (stuck.unable _ trivial)

theorem Stuck.idle (stuck : world.Stuck) (owned : world.Owned) (index worker : Nat)
    (lease : Lease) (place node : Nat) : ¬ world.Owns index worker lease place node := by
  intro holds
  obtain ⟨phase, at_, _, owns⟩ := holds
  rcases stuck.parked owned at_ with ⟨fault, rfl⟩ | ⟨lease, rfl⟩ <;> cases owns

/-- Since nobody owns a node, the locks are those of the start. -/
private theorem Stuck.uncontended {tree : Nat} (stuck : world.Stuck) (fresh : start.Start)
    (shared : ∀ (index : Nat) (call : Call), start.calls[index]? = some call →
      call.executor.root.tree = tree)
    (unleased : ∀ lease : Lease, lease.tree = tree → ¬ start.locks.isLocked (.lease lease))
    (unused : ∀ (place : Nat) (driven : Driven) (name : String),
      start.plans[place]? = some driven → ¬ start.locks.isLocked (driven.plan.resourceLock name))
    (ran : start.play moves = some world) (found : world.calls[index]? = some call)
    (planned : world.plans[call.plan]? = some driven) :
    ¬ (world.cornerOf call driven).Contended := by
  obtain ⟨owned, follows⟩ := fresh.play ran
  obtain ⟨earlier, present, executor, plan, _⟩ := follows.origins index call found
  have unlocked {lock : Lock} (locked : world.locks.isLocked lock) : start.locks.isLocked lock :=
    (fresh.accounted ran).unowned owned (stuck.idle owned) locked
  intro contended
  rcases contended with ⟨lease, same, locked⟩ | ⟨name, locked⟩
  · exact unleased lease (same.trans (executor ▸ shared index earlier present)) (unlocked locked)
  · obtain ⟨first, known⟩ := fresh.planned index earlier present
    obtain ⟨later, known', _, keeps⟩ := follows.plans _ first known
    cases Option.some.inj ((plan ▸ known').symm.trans planned)
    have locked := unlocked locked
    simp only [cornerOf, keeps.resourceLock] at locked
    exact unused _ first name known locked

/-- A run whose workers own nothing is over, or its workers have more to do. -/
private theorem over_of_idle (owned : world.Owned)
    (planned : world.plans[call.plan]? = some driven) (alert : (world.cornerOf call driven).Alert)
    (looked : (world.cornerOf call driven).Looked)
    (idle : ∀ index worker lease place node, ¬ world.Owns index worker lease place node)
    (unfailed : call.workerFailed = false) (empty : driven.plan.queue = []) :
    driven.plan.remaining = 0 := by
  apply (owned.valid _ _ planned).coherent.exhausted looked empty
  intro position executing
  obtain ⟨entry, present, state⟩ := Plan.entry_of_state? executing
  have free : entry.node.held = [] := by
    apply Decidable.of_not_not
    intro held
    obtain ⟨index, worker, lease, owns⟩ := owned.kept call.plan position entry
      ((entryAt_eq planned position).trans present) held
    exact idle _ _ _ _ _ owns
  have failed := alert.minded position entry present state free
  exact absurd (unfailed.symm.trans failed) (by decide)

/-- Where nothing is taken, a parked worker would find the plan over. -/
private theorem Stuck.rests (stuck : world.Stuck) (owned : world.Owned)
    (found : world.calls[index]? = some call) (planned : world.plans[call.plan]? = some driven)
    (alert : (world.cornerOf call driven).Alert) (free : ¬ (world.cornerOf call driven).Contended)
    (looked : (world.cornerOf call driven).Looked) : ∀ phase ∈ call.workers, phase.IsGone := by
  intro phase member
  obtain ⟨worker, there⟩ := List.getElem?_of_mem member
  rcases stuck.parked owned ⟨call, found, rfl, there⟩ with gone | ⟨lease, rfl⟩
  · exact gone
  · obtain ⟨pending, starved⟩ := alert.crew _ member
    have finished := over_of_idle owned planned alert looked (stuck.idle owned)
      (pending.unfailed rfl) ((starved rfl).resolve_right free)
    exact absurd finished (pending.remaining rfl)

theorem Stuck.ended (stuck : world.Stuck) (owned : world.Owned)
    (found : world.calls[index]? = some call) (planned : world.plans[call.plan]? = some driven)
    (alert : (world.cornerOf call driven).Alert) (free : ¬ (world.cornerOf call driven).Contended)
    (manned : 0 < call.executor.workers) : ∃ fault, call.stage = .gone fault := by
  have suits := alert.stage
  rcases caller_able owned found with gone | queues | awaits | ⟨⟨fault, joins⟩, live⟩ | able
  · exact gone
  · simp only [cornerOf, queues] at suits
    cases suits.2
  · simp only [cornerOf, awaits] at suits
    obtain ⟨crew, looked, pending⟩ := suits
    have some_ : 0 < call.workers.length := crew ▸ manned
    have member := List.getElem_mem some_
    obtain ⟨fault, gone⟩ := stuck.rests owned found planned alert free looked _ member
    have ended := alert.crew _ member
    rw [gone] at ended
    rcases ended with failed | stopped
    · exact absurd ((pending.unfailed rfl).symm.trans failed) (by decide)
    · have finished := over_of_idle owned planned alert looked (stuck.idle owned)
        (pending.unfailed rfl) (stopped.queue (owned.valid _ _ planned).coherent)
      exact absurd finished (pending.remaining rfl)
  · simp only [cornerOf, joins] at suits
    obtain ⟨phase, member, present⟩ := live
    exact absurd (stuck.rests owned found planned alert free suits phase member) present
  · exact absurd able (stuck.unable (.caller index) trivial)

/-- Any number of calls run on plans of their own, on one tree of leases that nobody
else uses. Whatever order their threads take turns in, whenever cancellation is
requested, whatever faults plans raise instead of enumerating, selecting or completing:
as long as some call has not ended, some thread can go on, or an action waits for
other actions. If no action does that, some thread can always go on. -/
theorem some_thread_goes_on {tree : Nat} (fresh : start.Start) (apart : ∀ index, start.Alone index)
    (shared : ∀ (index : Nat) (call : Call), start.calls[index]? = some call →
      call.executor.root.tree = tree)
    (manned : ∀ (index : Nat) (call : Call), start.calls[index]? = some call →
      0 < call.executor.workers)
    (single : ∀ (place : Nat) (driven : Driven) (position : Nat) (entry : Entry),
      start.plans[place]? = some driven → driven.plan.entries[position]? = some entry →
      entry.node.resources.Nodup)
    (unleased : ∀ lease : Lease, lease.tree = tree → ¬ start.locks.isLocked (.lease lease))
    (unused : ∀ (place : Nat) (driven : Driven) (name : String),
      start.plans[place]? = some driven → ¬ start.locks.isLocked (driven.plan.resourceLock name))
    (ran : start.play moves = some world) (found : world.calls[index]? = some call)
    (unfinished : ∀ fault, call.stage ≠ .gone fault) :
    ((∃ move, move.IsThread ∧ world.Able move) ∨ world.Awaits) ∧
      ((∀ (index : Nat) (call : Call) (action : Action) (id : String),
          start.calls[index]? = some call → call.action = some action →
          ∀ instruction ∈ action id, ¬ instruction.Waits) →
        ∃ move, move.IsThread ∧ world.Able move) := by
  obtain ⟨owned, follows⟩ := fresh.play ran
  have alert {index : Nat} {call : Call} {driven : Driven} (found : world.calls[index]? = some call)
      (planned : world.plans[call.plan]? = some driven) :=
    fresh.alert (apart index) single ran found planned
  have goes : (∃ move, move.IsThread ∧ world.Able move) ∨ world.Awaits := by
    apply Classical.byContradiction
    intro still
    have stuck : world.Stuck :=
      ⟨fun move thread able => still (Or.inl ⟨move, thread, able⟩), fun awaits => still (Or.inr awaits)⟩
    obtain ⟨driven, planned⟩ := owned.planned index call found
    obtain ⟨earlier, present, executor, _⟩ := follows.origins index call found
    have workers : 0 < call.executor.workers := by
      rw [executor]
      exact manned index earlier present
    obtain ⟨fault, gone⟩ := stuck.ended owned found planned (alert found planned)
      (stuck.uncontended fresh shared unleased unused ran found planned) workers
    exact unfinished fault gone
  refine ⟨goes, fun prompt => goes.resolve_right ?_⟩
  intro waiting
  obtain ⟨index, worker, place, lease, node, instruction, rest, ⟨call, found, rfl, there⟩, waits⟩ := waiting
  obtain ⟨driven, planned⟩ := owned.planned index call found
  obtain ⟨action, id, given, within⟩ := (alert found planned).crew _ (List.mem_of_getElem? there)
  obtain ⟨earlier, present, _, _, same⟩ := follows.origins index call found
  exact prompt index earlier action id present (same ▸ given) instruction
    (within List.mem_cons_self) waits

private def sending : Plan := (Plan.empty "sending" 0 true).attach "send" [] []

private def storing : Plan := (Plan.empty "storing" 1 true).attach "store" [] ["disk"]

private def errands : List (Plan × Action × Nat) :=
  [(sending, fun _ => [], 1), (storing, fun _ => [], 1)]

private def strides : List (Bool × Move) :=
  ([.caller 0, .caller 0, .caller 0, .worker 0 0, .worker 0 0, .worker 0 0, .caller 1, .caller 1,
    .caller 1, .caller 1, .caller 1, .worker 1 0, .worker 1 0] : List Move).map (false, ·)

private def awaited : Stage → Option Nat
  | .awaiting parked => parked
  | _ => none

theorem errands_go_on : ∃ world, (opening 1 errands).play strides = some world ∧
    (∃ call, world.calls[1]? = some call ∧ call.stage = .awaiting (some world.generation)) ∧
    ∃ move, move.IsThread ∧ world.Able move := by
  have start : (opening 1 errands).Start := by
    apply opening_start (by decide)
    intro job member
    rcases List.mem_cons.mp member with rfl | member
    · exact .add (.empty "sending" 0 true) (show Plan.add _ "send" [] [] = .ok sending from rfl)
    · rw [List.mem_singleton.mp member]
      exact .add (.empty "storing" 1 true) (show Plan.add _ "store" [] ["disk"] = .ok storing from rfl)
  have single : ∀ job ∈ errands, ∀ entry ∈ job.1.entries, entry.node.resources.Nodup := by decide
  have runs : (((opening 1 errands).play strides).bind fun world =>
      world.calls[1]?.map fun call => (awaited call.stage, some world.generation)) =
        some (some 2, some 2) := by
    decide +kernel
  obtain ⟨world, ran, shown⟩ := Option.bind_eq_some_iff.mp runs
  obtain ⟨call, found, parked⟩ := Option.map_eq_some_iff.mp shown
  have waits : call.stage = .awaiting (some world.generation) := by
    cases stage : call.stage with
    | awaiting parked => simp_all [awaited]
    | arriving | launching | queueing | reporting | aborting | joining | gone =>
      simp_all [awaited]
  refine ⟨world, ran, ⟨call, found, waits⟩, ?_⟩
  have shared (index : Nat) (call : Call) (found : (opening 1 errands).calls[index]? = some call) :
      call.executor.root.tree = 0 := by
    obtain ⟨job, _, rfl⟩ := opening_call found
    rfl
  refine (some_thread_goes_on start (fun index => opening_alone 1 index errands) shared ?_ ?_
    (fun lease _ => opening_unlocked (by decide) errands _)
    (fun _ _ _ _ => opening_unlocked (by decide) errands _) ran found (by simp [waits])).2 ?_
  · intro index call found
    obtain ⟨job, present, rfl⟩ := opening_call found
    exact (by decide : ∀ job ∈ errands, 0 < job.2.2) job (List.mem_of_getElem? present)
  · intro place driven position entry found present
    obtain ⟨job, known, rfl⟩ := opening_plan found
    exact single job (List.mem_of_getElem? known) entry (List.mem_of_getElem? present)
  · intro index call action id found given instruction member
    obtain ⟨job, present, rfl⟩ := opening_call found
    cases given
    have plain : job.2.1 id = [] := by
      rcases List.mem_cons.mp (List.mem_of_getElem? present) with rfl | member
      · rfl
      · rw [List.mem_singleton.mp member]
    rw [plain] at member
    cases member

end World
end Executor
end Foreman
