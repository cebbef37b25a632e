import Foreman.Proofs.FailureReports

/-! Runs that fail. The first worker that ends by a fault stops the plan, and from then on
nothing is selected. Whoever executes a node goes on and completes it, unless it is
broken too. The call ends after all its workers and raises a fault that one of them met. -/

namespace Foreman.Executor

variable {index worker : Nat} {before later : Corner} {phase : Phase} {move : Move}
  {events history : List Happening} {broken : String → Prop} {earlier : List Failure}

/-- A run fails in the last step of a failing worker. The first fault is kept. -/
theorem Corner.Turns.fails (turns : before.Turns index move events later)
    (staffed : before.call.Staffed) (quiet : Quiet before.call.executor) :
    later.call.workerFailed = before.call.workerFailed ∧
        (later.call.pool.failure = before.call.pool.failure ∨ later.call.pool.failure = none) ∨
      ∃ worker lease node fault, move = .worker index worker ∧
        before.call.workers[worker]? = some (.failing lease node fault) ∧
        later.call.pool.failure = (before.call.pool.failure <|> some fault) := by
  cases turns with
  | worker there deed =>
    rcases deed.fails there staffed quiet with ⟨_, failed, pool⟩ | ⟨_, _, _, rfl, _, pool, _⟩
    · exact Or.inl ⟨failed, Or.inl pool⟩
    · exact Or.inr ⟨_, _, _, _, rfl, there, pool⟩
  | caller deed =>
    generalize before.call.stage = stage at deed
    cases deed with
    | launch => exact Or.inl ⟨rfl, Or.inr rfl⟩
    | register | giveUp | queue | collapse | report | wait | collect | abort | depart =>
      exact Or.inl ⟨rfl, Or.inl rfl⟩
  | elsewhere shares => exact Or.inl (by rw [shares.call]; exact ⟨rfl, Or.inl rfl⟩)

theorem WorkerDeed.drops {lease : Lease} {position : Nat} {fault : Fault}
    (deed : WorkerDeed index worker before phase events later)
    (there : before.call.workers[worker]? = some phase)
    (failing : later.call.workers[worker]? = some (.failing lease (some position) fault)) :
    phase = .completing lease position := by
  have inside := (List.getElem?_eq_some_iff.mp there).1
  have next {next : Phase} (workers : later.call.workers = before.call.workers.set worker next) :
      next = .failing lease (some position) fault := by
    rw [workers, List.getElem?_set_self inside] at failing
    exact Option.some.inj failing
  cases deed with
  | halt polls | select polls | park polls => cases polls <;> cases next rfl
  | breakdown polls hooked follows =>
    rcases follows with rfl | ⟨_, _, rfl⟩ <;> cases next rfl
  | settle | start | refuse | request | instruct | finish | complete | retire | stumble | fail =>
    cases next rfl
  | drop =>
    cases next rfl
    rfl

/-- A worker fails for a node after it has tried to complete it. -/
theorem Corner.Turns.drops {lease : Lease} {position : Nat} {fault : Fault}
    (turns : before.Turns index move events later)
    (fine : before.call.workers[worker]? ≠ some (.failing lease (some position) fault))
    (failing : later.call.workers[worker]? = some (.failing lease (some position) fault)) :
    move = .worker index worker ∧
      before.call.workers[worker]? = some (.completing lease position) := by
  cases turns with
  | @worker other phase events later there deed =>
    obtain ⟨_, _, moves⟩ := deed.moves
    by_cases own : other = worker
    · subst own
      exact ⟨rfl, deed.drops there failing ▸ there⟩
    · rw [moves.workers, List.getElem?_set_ne own] at failing
      exact absurd failing fine
  | caller deed =>
    rcases deed.crew with same | ⟨_, hired⟩
    · exact absurd (same ▸ failing) fine
    · cases hired _ (List.mem_of_getElem? failing)
  | elsewhere shares => exact absurd (shares.call ▸ failing) fine

/-- Failures of the plan as a whole are kept until they are taken. -/
theorem Corner.Turns.records (turns : before.Turns index move events later)
    (endures : before.Endures broken earlier index history) (early : ¬ later.call.stage.IsLate) :
    before.plan.failures ⊆ later.plan.failures := by
  have canceled {plan : Plan} : plan.failures ⊆ plan.cancel.2.failures := by
    simp only [Plan.cancel]
    split
    · exact List.subset_append_left _ _
    · exact List.Subset.refl _
  have polled {polled : Corner} (polls : before.Polls polled) :
      before.plan.failures ⊆ polled.plan.failures := by
    cases polls with
    | unseen => exact List.Subset.refl _
    | seen => exact canceled
  cases turns with
  | worker there deed =>
    rcases deed.books endures.hooks with same | same | ⟨_, _, _, _, same⟩
    · rw [show later.plan.failures = _ from congrArg (·.2.2) same]
      exact List.Subset.refl _
    · rw [show later.plan.failures = _ from congrArg (·.2.2) same]
      exact canceled
    · rw [show later.plan.failures = _ from congrArg (·.2.2) same]
      exact List.subset_append_left _ _
  | caller deed =>
    generalize before.call.stage = stage at deed
    cases deed with
    | register | launch | giveUp | report | wait | depart => exact List.Subset.refl _
    | @queue parked after polls =>
      have same : after.plan.populate.failures = after.plan.failures :=
        congrArg (·.2.2) (Plan.books_populate after.plan)
      exact fun _ member => same.symm ▸ polled polls member
    | collapse polls => exact fun _ member => List.mem_append_left _ (polled polls member)
    | abort => exact List.subset_append_left _ _
    | collect => exact absurd trivial early
  | elsewhere shares =>
    rw [shares.plan]
    exact List.Subset.refl _

namespace World

variable {start world : World} {moves : List (Bool × Move)} {call final : Call}
  {driven last : Driven} {place : Nat}

/-- In one of these steps the plan raises the fault when a worker of the call is to
complete the node. -/
def Drops (start : World) (index : Nat) (moves : List (Bool × Move)) (node : Nat) (fault : Fault) :
    Prop :=
  ∃ earlier missed worker later before after lease,
    moves = earlier ++ (missed, .worker index worker) :: later ∧
    start.play earlier = some before ∧ before.step missed (.worker index worker) = some after ∧
    before.phase? index worker = some (.completing lease node) ∧
    after.phase? index worker = some (.failing lease (some node) fault)

theorem Drops.append {node : Nat} {fault : Fault} (drops : start.Drops index moves node fault)
    (rest : List (Bool × Move)) : start.Drops index (moves ++ rest) node fault := by
  obtain ⟨earlier, missed, worker, later, before, after, lease, rfl, drops⟩ := drops
  exact ⟨earlier, missed, worker, later ++ rest, before, after, lease, by simp, drops⟩

/-- The last step of a failing worker, when no worker has failed before. -/
structure Failing (start : World) (index place : Nat) (moves : List (Bool × Move)) (world : World) where
  earlier : List (Bool × Move)
  missed : Bool
  worker : Nat
  later : List (Bool × Move)
  before : World
  after : World
  call : Call
  driven : Driven
  lease : Lease
  node : Option Nat
  fault : Fault
  split : moves = earlier ++ (missed, .worker index worker) :: later
  reached : start.play earlier = some before
  stepped : before.step missed (.worker index worker) = some after
  onward : after.play later = some world
  found : before.calls[index]? = some call
  planned : before.plans[place]? = some driven
  there : call.workers[worker]? = some (.failing lease node fault)
  first : call.workerFailed = false

section

variable (attempts : start.Attempts index call driven broken) (ran : start.play moves = some world)
  (found : world.calls[index]? = some final)
include attempts ran found

/-- Whoever fails does so because the plan raised a fault instead of completing a
broken node. -/
theorem Attempts.drops {lease : Lease} {node : Option Nat} {fault : Fault}
    (there : final.workers[worker]? = some (.failing lease node fault)) :
    ∃ position, node = some position ∧ driven.plan.Has broken position ∧
      start.Drops index moves position fault := by
  obtain ⟨last, planned, _, keeps⟩ := (attempts.fresh.play ran).2.plans _ driven attempts.planned
  obtain ⟨position, rfl, has⟩ := (attempts.endures ran found planned).crew worker _ there
  refine ⟨position, rfl, keeps.has.mp has, ?_⟩
  obtain ⟨earlier, missed, move, later, before, after, rfl, reached, stepped, fine, failing⟩ :=
    play_change (fun world => world.phase? index worker = some (.failing lease (some position) fault))
      ran (by
        rw [phase?, attempts.found, Option.bind_some,
          (attempts.fresh.unmade index call attempts.found).workers]
        simp) (by rw [phase?, found, Option.bind_some, there])
  obtain ⟨active, next, known, last, events, sight⟩ :=
    attempts.fresh.sight attempts.alone attempts.found reached stepped
  have phase : before.phase? index worker = active.workers[worker]? := by
    rw [phase?, sight.found, Option.bind_some]
  have phase_after : after.phase? index worker = next.workers[worker]? := by
    rw [phase?, sight.found_after, Option.bind_some]
  rw [phase] at fine
  rw [phase_after] at failing
  obtain ⟨rfl, completing⟩ := sight.turns.drops fine failing
  exact ⟨earlier, missed, worker, later, before, after, lease, rfl, reached, stepped,
    phase.trans completing, phase_after.trans failing⟩

theorem Attempts.fails (failed : final.workerFailed = true) :
    Nonempty (Failing start index call.plan moves world) := by
  have unmade := attempts.fresh.unmade index call attempts.found
  obtain ⟨earlier, missed, move, later, before, after, rfl, reached, stepped, fine, broke⟩ :=
    play_change (fun world => ∃ call, world.calls[index]? = some call ∧ call.workerFailed = true) ran
      (fun ⟨other, present, broke⟩ => by
        cases Option.some.inj (attempts.found.symm.trans present)
        rw [unmade.unfailed] at broke
        cases broke) ⟨final, found, failed⟩
  obtain ⟨active, next, known, last, events, sight⟩ :=
    attempts.fresh.sight attempts.alone attempts.found reached stepped
  obtain ⟨other, present, broke⟩ := broke
  cases Option.some.inj (sight.found_after.symm.trans present)
  have first : active.workerFailed = false := by
    cases broke : active.workerFailed with
    | false => rfl
    | true => exact absurd ⟨active, sight.found, broke⟩ fine
  have endures := attempts.endures reached sight.found sight.planned
  rcases sight.turns.fails sight.lawful.staffed endures.quiet with
    ⟨same, _⟩ | ⟨worker, lease, node, fault, rfl, there, _⟩
  · exact absurd (first.symm.trans (same.symm.trans broke)) (by decide)
  · exact ⟨⟨earlier, missed, worker, later, before, after, active, known, lease, node, fault, rfl,
      reached, stepped, play_rest reached stepped ran, sight.found, sight.planned, there, first⟩⟩

/-- The fault of a failed run is one that the plan raised instead of completing a
broken node. -/
theorem Attempts.raises {fault : Fault} (raised : final.pool.failure = some fault) :
    ∃ position, driven.plan.Has broken position ∧ start.Drops index moves position fault := by
  have unmade := attempts.fresh.unmade index call attempts.found
  obtain ⟨earlier, missed, move, later, before, after, rfl, reached, stepped, fine, now⟩ :=
    play_change (fun world => ∃ call, world.calls[index]? = some call ∧
      call.pool.failure = some fault) ran
      (fun ⟨other, present, raised⟩ => by
        cases Option.some.inj (attempts.found.symm.trans present)
        rw [unmade.failure] at raised
        cases raised) ⟨final, found, raised⟩
  obtain ⟨active, next, known, last, events, sight⟩ :=
    attempts.fresh.sight attempts.alone attempts.found reached stepped
  obtain ⟨other, present, now⟩ := now
  cases Option.some.inj (sight.found_after.symm.trans present)
  have other : active.pool.failure ≠ some fault := fun raised => fine ⟨active, sight.found, raised⟩
  have endures := attempts.endures reached sight.found sight.planned
  rcases sight.turns.fails sight.lawful.staffed endures.quiet with
    ⟨_, same | unset⟩ | ⟨worker, lease, node, cause, rfl, there, pool⟩
  · exact absurd (same.symm.trans now) other
  · rw [show next.pool.failure = none from unset] at now
    cases now
  · have pool := pool.symm.trans now
    cases unraised : active.pool.failure with
    | some earlier =>
      simp only [cornerOf, unraised] at pool
      exact absurd (unraised.trans pool) other
    | none =>
      simp only [cornerOf, unraised] at pool
      cases pool
      obtain ⟨position, _, has, drops⟩ := attempts.drops reached sight.found there
      exact ⟨position, has, drops.append _⟩

end

/-- A worker that owns a node at some time completes the node, unless it is broken. -/
theorem Attempts.finishes {middle : World} {earlier : List (Bool × Move)} {phase : Phase} {node : Nat}
    (attempts : start.Attempts index call driven broken) (played : start.play earlier = some middle)
    (ran : middle.play moves = some world) (found : world.calls[index]? = some final)
    {fault : Option Fault} (gone : final.stage = .gone fault)
    (owner : middle.phase? index worker = some phase) (owns : phase.node? = some node)
    (fine : ¬ driven.plan.Has broken node) : middle.Finishes index worker call.plan moves node := by
  refine (attempts.fresh.finishes attempts.alone played ran attempts.found owner owns
    ?_).resolve_right ?_
  · intro phase there
    rw [phase?, found, Option.bind_some] at there
    have staffed := (attempts.fresh.play (play_trans played ran)).1.staffed index final found
    obtain ⟨fault, rfl⟩ := staffed.emptied fault gone phase (List.mem_of_getElem? there)
    simp [Phase.node?]
  · intro leaves
    obtain ⟨between, before, lease, fault, reached, there⟩ := leaves
    obtain ⟨other, present, there⟩ := Option.bind_eq_some_iff.mp there
    obtain ⟨position, same, has, _⟩ := attempts.drops reached present there
    cases same
    exact fine has

/-! What the last step of the first failing worker leaves, and what becomes of it. -/

theorem Failing.reached_after {place : Nat} (failing : Failing start index place moves world) :
    start.play (failing.earlier ++ [(failing.missed, .worker index failing.worker)]) =
      some failing.after :=
  play_concat failing.reached failing.stepped

section

variable (attempts : start.Attempts index call driven broken)
  (failing : Failing start index call.plan moves world)
include attempts

theorem Failing.endures : (failing.before.cornerOf failing.call failing.driven).Endures broken
    call.failures index failing.before.history :=
  attempts.endures failing.reached failing.found failing.planned

theorem Failing.aborts : ∃ next last, failing.after.calls[index]? = some next ∧
    failing.after.plans[call.plan]? = some last ∧
    last.plan = (failing.driven.plan.disown failing.node).abort (.ofFault .plan (some failing.fault)) ∧
    next.stage = failing.call.stage ∧ failing.after.history = failing.before.history := by
  have place := attempts.place failing.reached failing.found
  have planned : failing.before.plans[failing.call.plan]? = some failing.driven := by
    rw [place]
    exact failing.planned
  obtain ⟨events, later, deed, shown⟩ := (attempts.fresh.play failing.reached).1.orderly.works
    failing.stepped failing.found planned failing.there
  obtain ⟨last, plan, _, plans⟩ := shown.plan? planned
  cases deed with
  | fail =>
    exact ⟨_, last, (shown.call? failing.found index).trans (if_pos rfl),
      (plans call.plan).trans (if_pos place.symm), plan, rfl,
      shown.history.trans (List.append_nil _)⟩

theorem Failing.blames : ∃ position, failing.node = some position ∧
    driven.plan.Has broken position ∧ start.Drops index failing.earlier position failing.fault :=
  attempts.drops failing.reached failing.found failing.there

theorem Failing.early : ¬ failing.call.stage.IsLate := by
  have lawful := attempts.lawful failing.reached failing.found failing.planned
  have reaches := (failing.endures attempts).stage
  simp only [cornerOf] at reaches
  intro late
  cases stage : failing.call.stage with
  | arriving | launching | queueing | reporting | awaiting | aborting =>
    rw [stage] at late
    exact late
  | joining fault =>
    rw [stage] at reaches
    obtain ⟨_, failed | finished⟩ := reaches
    · exact absurd (failing.first.symm.trans failed) (by decide)
    · obtain ⟨position, node, _⟩ := failing.blames attempts
      obtain ⟨entry, found, executing⟩ :=
        Plan.entry_of_state? (lawful.busy failing.worker _ failing.there position node)
      have terminal := finished position entry found
      simp [executing, State.isTerminal] at terminal
  | gone fault =>
    obtain ⟨fault, gone⟩ :=
      lawful.staffed.emptied fault stage _ (List.mem_of_getElem? failing.there)
    cases gone

/-- The fault of the first failing worker is among what the call reports. -/
theorem Failing.reports (found : world.calls[index]? = some final) {fault : Option Fault}
    (gone : final.stage = .gone fault) : ∃ gained, final.failures = call.failures ++ gained ∧
      (Failure.ofFault .plan (some failing.fault)).withDetail "plan" driven.plan.name ∈ gained := by
  obtain ⟨next, last, found_after, planned_after, plan, stage, _⟩ := failing.aborts attempts
  obtain ⟨_, planned, _⟩ := (attempts.fresh.play
    (play_trans failing.reached_after failing.onward)).2.plans _ driven attempts.planned
  obtain ⟨before, planned_before, _, keeps⟩ :=
    (attempts.fresh.play failing.reached).2.plans _ driven attempts.planned
  cases Option.some.inj (failing.planned.symm.trans planned_before)
  have named : (failing.driven.plan.disown failing.node).skipUnscheduled.2.name = driven.plan.name := by
    rw [(Plan.skipUnscheduled_drifts _).keeps.name, (Plan.disown_keeps _ _).name, keeps.name]
  have noted : (Failure.ofFault .plan (some failing.fault)).withDetail "plan" driven.plan.name ∈
      last.plan.failures := by
    rw [plan, ← named]
    exact List.mem_append_right _ (List.mem_singleton.mpr rfl)
  have early : ¬ next.stage.IsLate := by
    rw [stage]
    exact failing.early attempts
  have reported := attempts.sees_on (fun corner =>
    ¬ corner.call.stage.IsLate ∧ (Failure.ofFault .plan (some failing.fault)).withDetail "plan"
        driven.plan.name ∈ corner.plan.failures ∨
      corner.call.stage.IsLate ∧ ∃ gained, corner.call.failures = call.failures ++ gained ∧
        (Failure.ofFault .plan (some failing.fault)).withDetail "plan" driven.plan.name ∈ gained)
    failing.reached_after failing.onward found_after planned_after found planned
    (Or.inl ⟨early, noted⟩) ?_
  · rcases reported with ⟨early, _⟩ | ⟨_, taken⟩
    · exact absurd (show final.stage.IsLate by rw [gone]; trivial) early
    · exact taken
  · intro before other follower move events history later _ endures turns told
    rcases told with ⟨early, noted⟩ | ⟨late, gained, taken, noted⟩
    · by_cases late : later.call.stage.IsLate
      · obtain ⟨_, _, _, taken⟩ := turns.takes endures early late
        exact Or.inr ⟨late, _, taken, List.mem_append_right _ noted⟩
      · exact Or.inl ⟨late, turns.records endures late noted⟩
    · obtain ⟨still, same⟩ := turns.late late
      exact Or.inr ⟨still, gained, same.trans taken, noted⟩

end

theorem Start.remembers {middle : World} {earlier : List (Bool × Move)} {happening : Happening}
    (fresh : start.Start) (alone : start.Alone index) (played : start.play earlier = some middle)
    (ran : middle.play moves = some world) (found : world.calls[index]? = some final)
    (happened : happening ∈ middle.history) : happening ∈ world.history := by
  obtain ⟨last, planned⟩ := (fresh.play (play_trans played ran)).1.planned index final found
  exact fresh.sees_on alone (fun _ history => happening ∈ history) played ran found planned
    (fun _ _ _ _ => happened)
    fun _ _ _ _ _ _ _ _ _ _ happened => List.mem_append_left _ happened

section

variable (attempts : start.Attempts index call driven broken) (ran : start.play moves = some world)
  (found : world.calls[index]? = some final)
include attempts ran found

theorem Attempts.dropped {node : Nat} {fault : Fault} (drops : start.Drops index moves node fault) :
    .selected index node ∈ world.history := by
  obtain ⟨earlier, missed, worker, later, before, after, lease, rfl, reached, _, there, _⟩ := drops
  rw [play_append, reached, Option.bind_some] at ran
  obtain ⟨active, present, there⟩ := Option.bind_eq_some_iff.mp there
  obtain ⟨known, planned, _⟩ := (attempts.fresh.play reached).2.plans _ driven attempts.planned
  obtain ⟨entry, listed, executing⟩ :=
    Plan.entry_of_state? ((attempts.lawful reached present planned).busy worker _ there node rfl)
  have fared := (attempts.endures reached present planned).nodes node entry listed
  exact attempts.fresh.remembers attempts.alone reached ran found
    (fared.selected.mpr (Or.inl executing))

/-- When the call has ended, the nodes that are being executed are the broken ones
that were selected. -/
theorem Attempts.behind (planned : world.plans[call.plan]? = some last) {fault : Option Fault}
    (gone : final.stage = .gone fault) (node : Nat) :
    last.plan.state? node = some .executing ↔
      driven.plan.Has broken node ∧ .selected index node ∈ world.history := by
  have endures := attempts.endures ran found planned
  obtain ⟨known, planned', _, keeps⟩ := (attempts.fresh.play ran).2.plans _ driven attempts.planned
  cases Option.some.inj (planned.symm.trans planned')
  constructor
  · intro executing
    obtain ⟨entry, present, state⟩ := Plan.entry_of_state? executing
    have broke := (attempts.abandons ran found planned gone present state).1
    exact ⟨keeps.has.mp ⟨entry, present, broke⟩,
      (endures.nodes node entry present).selected.mpr (Or.inl state)⟩
  · intro executed
    obtain ⟨has, selected⟩ := executed
    obtain ⟨entry, present, broke⟩ := keeps.has.mpr has
    have fared := endures.nodes node entry present
    rw [Plan.state?_eq present]
    rcases fared.selected.mp selected with executing | succeeded | failed
    · exact congrArg some executing
    · simp only [Node.Fared, succeeded] at fared
      exact absurd broke fared.2.1
    · simp only [Node.Fared, failed] at fared
      exact absurd broke fared.2.1

end

/-- Whatever order the threads take turns in, whatever the actions do and whichever nodes
are broken: once the first failing worker has made its last step, nothing is selected,
every node that is not being executed is terminal, and the workers that execute other
nodes complete them unless these are broken too. When the call has ended and some broken
node was selected, all workers are gone, the nodes that are still being executed are the
broken ones that were selected, the call has raised a fault that the plan raised instead
of completing one of them, and among what it reports is the fault of the first failing
worker, as a failure of the plan with its code, the text of the fault and the plan's name. -/
theorem failed_run_in_order (attempts : start.Attempts index call driven broken)
    (ran : start.play moves = some world) (found : world.calls[index]? = some final)
    (planned : world.plans[call.plan]? = some last) :
    (∀ failing : Failing start index call.plan moves world,
      (∀ node, world.history.count (.selected index node) =
        failing.before.history.count (.selected index node)) ∧
      (∀ node < last.plan.size, ∃ state, failing.after.state? call.plan node = some state ∧
        (state = .executing ∨ state.isTerminal = true)) ∧
      (∃ node, failing.node = some node ∧ driven.plan.Has broken node ∧
        start.Drops index failing.earlier node failing.fault) ∧
      ∀ fault, final.stage = .gone fault → ∀ worker phase node,
        failing.after.phase? index worker = some phase → phase.node? = some node →
        ¬ driven.plan.Has broken node →
        failing.after.Finishes index worker call.plan failing.later node) ∧
    ∀ fault broke, final.stage = .gone fault → driven.plan.Has broken broke →
      .selected index broke ∈ world.history →
      (∀ phase ∈ final.workers, phase.IsGone) ∧
      (∀ node, last.plan.state? node = some .executing ↔
        driven.plan.Has broken node ∧ .selected index node ∈ world.history) ∧
      (∃ raised node, fault = some raised ∧ last.plan.state? node = some .executing ∧
        start.Drops index moves node raised) ∧
      ∃ (failing : Failing start index call.plan moves world) (gained : List Failure)
        (report : Failure), final.failures = call.failures ++ gained ∧ report ∈ gained ∧
        report = (Failure.ofFault .plan (some failing.fault)).withDetail "plan" driven.plan.name ∧
        failing.fault.Stops driven.plan.name report := by
  obtain ⟨owned, follows⟩ := attempts.fresh.play ran
  constructor
  · intro failing
    obtain ⟨next, follower, found_after, planned_after, plan, _, history⟩ :=
      failing.aborts attempts
    have stopped : follower.plan.Stopped := by
      rw [plan]
      exact Plan.abort_stopped _ _
    refine ⟨?_, ?_, failing.blames attempts, ?_⟩
    · intro node
      rw [← history]
      exact attempts.fresh.halts attempts.alone failing.reached_after failing.onward
        attempts.found planned_after stopped node
    · intro node inside
      obtain ⟨known, planned', _, keeps⟩ := follows.plans _ driven attempts.planned
      cases Option.some.inj (planned.symm.trans planned')
      obtain ⟨between, planned', _, keeps'⟩ :=
        (attempts.fresh.play failing.reached_after).2.plans _ driven attempts.planned
      cases Option.some.inj (planned_after.symm.trans planned')
      rw [keeps.size, ← keeps'.size] at inside
      obtain ⟨entry, present⟩ : ∃ entry, follower.plan.entries[node]? = some entry :=
        ⟨_, List.getElem?_eq_getElem inside⟩
      refine ⟨entry.node.state, ?_, ?_⟩
      · rw [state?_eq planned_after]
        exact Plan.state?_eq present
      · have taken := stopped node entry present
        cases state : entry.node.state with
        | notReady | ready => simp [state, State.isUnscheduled] at taken
        | executing => exact Or.inl rfl
        | succeeded | failed | skipped => exact Or.inr rfl
    · intro fault gone worker phase node owner owns fine
      exact attempts.finishes failing.reached_after failing.onward found gone owner owns fine
  · intro fault broke gone has selected
    have behind := attempts.behind ran found planned gone
    have executing := (behind broke).mpr ⟨has, selected⟩
    obtain ⟨entry, present, state⟩ := Plan.entry_of_state? executing
    have failed := (attempts.abandons ran found planned gone present state).2
    have endures := attempts.endures ran found planned
    obtain ⟨failing⟩ := attempts.fails ran found failed
    obtain ⟨gained, taken, told⟩ := failing.reports attempts found gone
    refine ⟨(owned.staffed index final found).emptied fault gone, behind, ?_, failing, gained, _,
      taken, told, rfl, Failure.ofFault_stops _ _⟩
    have raised := endures.pool
    have reaches := endures.stage
    simp only [cornerOf] at raised reaches
    rw [gone] at reaches
    obtain ⟨cause, unpooled⟩ := Option.isSome_iff_exists.mp (raised.symm.trans failed)
    obtain ⟨node, blamed, drops⟩ := attempts.raises ran found unpooled
    exact ⟨cause, node, reaches.1.trans unpooled,
      (behind node).mpr ⟨blamed, attempts.dropped ran found drops⟩, drops⟩

private def pressing : Plan :=
  (((Plan.empty "pressing" 0 true).attach "grind" [] []).attach "press" [] []).attach "bottle" [] []

private theorem pressing_built : pressing.Built := by
  have first : (Plan.empty "pressing" 0 true).add "grind" [] [] =
      .ok ((Plan.empty "pressing" 0 true).attach "grind" [] []) := rfl
  have second : ((Plan.empty "pressing" 0 true).attach "grind" [] []).add "press" [] [] =
      .ok (((Plan.empty "pressing" 0 true).attach "grind" [] []).attach "press" [] []) := rfl
  have third : (((Plan.empty "pressing" 0 true).attach "grind" [] []).attach "press" [] []).add
      "bottle" [] [] = .ok pressing := rfl
  exact .add (.add (.add (.empty "pressing" 0 true) first) second) third

private def jamming : Hooks :=
  { complete := fun _ node => if node.id = "bottle" then none else some (.runtime node.id) }

private theorem jamming_breaks : jamming.Breaks (· ≠ "bottle") := by
  refine ⟨⟨fun _ => rfl, fun _ => rfl, rfl, fun _ => rfl, fun _ => rfl⟩, fun _ => rfl,
    fun _ _ => rfl, fun _ node => ?_⟩
  by_cases fine : node.id = "bottle" <;> simp [jamming, fine]

private def mill : World := solo 3 3 false pressing jamming fun _ => []

/-- All three nodes are being executed when the first worker fails. -/
private def jammed : List (Bool × Move) :=
  roster [0, 0, 0, 0, 1, 1, 1, 1, 2, 2, 2, 2, 3, 3, 3, 1, 1, 3, 3, 2, 2, 3, 3, 0, 0]

private def jam (id : String) : Failure :=
  { category := .plan
    code := 5001
    userMessage := id
    internalMessage := "Uncaught exception: " ++ id
    details := [("plan", "pressing")] }

private def remains (world : World) : Option (Option Fault × List Failure × List State × Bool) :=
  (world.calls[0]?).bind fun final => (world.plans[0]?).bind fun last =>
    match final.stage with
    | .gone fault =>
      some (fault, final.failures, last.plan.entries.map (·.node.state),
        decide (.selected 0 0 ∈ world.history))
    | _ => none

theorem jammed_mill_ends : ∃ world final last, mill.play jammed = some world ∧
    world.calls[0]? = some final ∧ world.plans[0]? = some last ∧
    final.stage = .gone (some (.runtime "grind")) ∧
    last.plan.entries.map (·.node.state) = [.executing, .executing, .succeeded] ∧
    final.failures = [jam "grind", jam "press"] ∧
    (∀ node, last.plan.state? node = some .executing ↔
      pressing.Has (· ≠ "bottle") node ∧ .selected 0 node ∈ world.history) ∧
    ∃ (failing : Failing mill 0 0 jammed world) (gained : List Failure) (report : Failure),
      final.failures = [] ++ gained ∧ report ∈ gained ∧
      report = (Failure.ofFault .plan (some failing.fault)).withDetail "plan" "pressing" ∧
      failing.fault.Stops "pressing" report := by
  have runs : (mill.play jammed).bind remains = some (some (.runtime "grind"),
      [jam "grind", jam "press"], [.executing, .executing, .succeeded], true) := by
    decide +kernel
  obtain ⟨world, ran, shown⟩ := Option.bind_eq_some_iff.mp runs
  obtain ⟨final, found, shown⟩ := Option.bind_eq_some_iff.mp shown
  obtain ⟨last, planned, shown⟩ := Option.bind_eq_some_iff.mp shown
  cases stage : final.stage with
  | gone fault =>
    simp only [stage, Option.some.injEq, Prod.mk.injEq, decide_eq_true_eq] at shown
    obtain ⟨rfl, failures, states, selected⟩ := shown
    have attempts : mill.Attempts 0 _ _ (· ≠ "bottle") :=
      solo_attempts (by decide) pressing_built jamming_breaks
    obtain ⟨_, ends⟩ := failed_run_in_order attempts ran found planned
    obtain ⟨_, behind, _, reports⟩ := ends _ 0 stage ⟨_, rfl, by decide⟩ selected
    exact ⟨world, final, last, ran, found, planned, stage, states, failures, behind, reports⟩
  | arriving | launching | queueing | reporting | awaiting | aborting | joining =>
    simp [stage] at shown

end World
end Foreman.Executor
