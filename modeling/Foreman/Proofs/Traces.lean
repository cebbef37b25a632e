import Foreman.Proofs.CornerTurns

/-! What the history tells of a call whose plan and log raise no faults. The action of
a node starts when a worker owns the node, and ends before the node is completed. -/

namespace Foreman

variable {index : Nat} {history events : List Executor.Happening}

open Executor (Happening Phase)

def State.Told (index : Nat) (history : List Happening) (node : Nat) : State → Prop
  | .notReady | .ready | .skipped => history.count (.started index node) = 0
  | .executing => True
  | .succeeded | .failed => history.count (.started index node) = 1 ∧ .ended index node ∈ history

def Executor.Phase.Told (index : Nat) (history : List Happening) : Phase → Prop
  | .hired | .choosing .. | .retiring _ => True
  | .chosen _ node => history.count (.started index node) = 0
  | .acting _ node _ _ => history.count (.started index node) = 1
  | .completing _ node => history.count (.started index node) = 1 ∧ .ended index node ∈ history
  | .failing .. => False
  | .gone fault => fault = none

/-- The history has of every node what its state says. -/
def Plan.Told (index : Nat) (history : List Happening) (plan : Plan) : Prop :=
  ∀ node state, plan.state? node = some state → state.Told index history node

private theorem count_silent (history : List Happening) {node : Nat} (silent : .started index node ∉ events) :
    (history ++ events).count (.started index node) = history.count (.started index node) := by
  rw [List.count_append, List.count_eq_zero.mpr silent, Nat.add_zero]

theorem State.Told.grow {node : Nat} {state : State} (told : state.Told index history node)
    (silent : .started index node ∉ events) : state.Told index (history ++ events) node := by
  have same := count_silent history silent
  cases state with
  | executing => trivial
  | notReady | ready | skipped => exact same.trans told
  | succeeded | failed => exact ⟨same.trans told.1, List.mem_append_left _ told.2⟩

theorem Executor.Phase.Told.grow {phase : Phase} (told : phase.Told index history)
    (silent : ∀ node, phase.node? = some node → .started index node ∉ events) :
    phase.Told index (history ++ events) := by
  have same {node : Nat} (owns : phase.node? = some node) :=
    count_silent history (silent node owns)
  cases phase with
  | hired | choosing | retiring => trivial
  | chosen | acting => exact (same rfl).trans told
  | completing => exact ⟨(same rfl).trans told.1, List.mem_append_left _ told.2⟩
  | failing => exact told
  | gone => exact told

namespace Plan.Told

variable {before after : Plan} {position : Nat} {entry : Entry}

theorem grow (told : before.Told index history) (silent : ∀ node, .started index node ∉ events) :
    before.Told index (history ++ events) :=
  fun node state found => (told node state found).grow (silent node)

private theorem drift_node {first last : Node} (told : first.state.Told index history position)
    (drift : first.Drifts last) : last.state.Told index history position := by
  rcases drift.state with same | ⟨free, moved⟩
  · exact same ▸ told
  · have unstarted : history.count (.started index position) = 0 := by
      cases state : first.state with
      | notReady | ready =>
        rw [state] at told
        exact told
      | executing | succeeded | failed | skipped => simp [state, State.isUnscheduled] at free
    rcases moved with ready | skipped
    · exact ready ▸ unstarted
    · exact skipped ▸ unstarted

theorem drift (told : before.Told index history) (drifts : before.Drifts after) :
    after.Told index history := by
  intro node state found
  obtain ⟨entry, present, rfl⟩ := entry_of_state? found
  obtain ⟨earlier, known, _, drift⟩ := drifts.back present
  exact drift_node (told node _ (state?_eq known)) drift

theorem failAll (told : before.Told index history) (position : Nat) (failures : List Failure) :
    (before.failAll position failures).Told index history := by
  intro node state found
  obtain ⟨entry, present, rfl⟩ := entry_of_state? found
  rw [failAll_lookup] at present
  obtain ⟨earlier, known, rfl⟩ := Option.map_eq_some_iff.mp present
  have same := told node _ (state?_eq known)
  split <;> exact same

theorem hand (told : before.Told index history) (lease : Lease) (valid : before.Valid)
    (found : before.entries[position]? = some entry) (ready : entry.node.state = .ready) :
    (before.hand lease position entry).Told index history := by
  have states := (Replaces.hand valid.coherent lease found ready).state?
  intro node state present
  rw [states] at present
  split at present
  · cases present
    trivial
  · exact told node state present

theorem ends (told : before.Told index history) (ends : before.Ends position entry after)
    (started : history.count (.started index position) = 1) (ended : .ended index position ∈ history) :
    after.Told index history := by
  intro node state found
  obtain ⟨later, present, rfl⟩ := entry_of_state? found
  by_cases own : node = position
  · subst own
    obtain ⟨closed, known, _, _, state⟩ := ends.own
    cases Option.some.inj (known.symm.trans present)
    rw [state]
    split <;> exact ⟨started, ended⟩
  · obtain ⟨earlier, known, _⟩ := ends.keeps.back present
    exact drift_node (told node _ (state?_eq known)) (ends.others node earlier later own known present)

end Plan.Told

namespace Executor

variable {worker : Nat} {before later : Corner} {phase next : Phase} {action : Action}
  {fault : Fault}

/-- A call with actions, on a plan without hooks and with a log that raises no fault. -/
structure Corner.Plain (action : Action) (corner : Corner) : Prop where
  quiet : Quiet corner.call.executor
  hooks : corner.hooks = {}
  action : corner.call.action = some action

theorem Corner.Plain.keep (plain : before.Plain action) (kept : before.Kept later) :
    later.Plain action :=
  ⟨kept.executor ▸ plain.quiet, kept.hooks.trans plain.hooks, kept.action.trans plain.action⟩

theorem Corner.Plain.populates (plain : before.Plain action) :
    ¬ ∃ tally fault, before.hooks.populate tally = some fault := by
  intro hooked
  obtain ⟨_, _, raised⟩ := hooked
  rw [plain.hooks] at raised
  cases raised

theorem Corner.Plain.selects (plain : before.Plain action) :
    ¬ ∃ tally plan fault, before.hooks.select tally plan = some fault := by
  intro hooked
  obtain ⟨_, _, _, raised⟩ := hooked
  rw [plain.hooks] at raised
  cases raised

theorem Corner.Plain.completes {node : Node} (plain : before.Plain action) :
    ¬ ∃ tally, before.hooks.complete tally node = some fault := by
  intro hooked
  obtain ⟨_, raised⟩ := hooked
  rw [plain.hooks] at raised
  cases raised

theorem Corner.Plain.starts {cause : Prop} (plain : before.Plain action) :
    ¬ (Sink.Raises before.call.executor.sink ∨ before.call.action = none ∧ cause) := by
  intro refused
  rcases refused with raises | ⟨none, _⟩
  · exact plain.quiet raises
  · rw [plain.action] at none
    cases none

/-- At this stage the call raises no fault, and its nodes are terminal if it is over. -/
def Corner.Returns (corner : Corner) : Stage → Prop
  | .arriving | .launching | .queueing _ | .reporting | .awaiting _ => True
  | .aborting _ => False
  | .joining fault | .gone fault => fault = none ∧ corner.plan.Over

structure Corner.Traced (index : Nat) (history : List Happening) (corner : Corner) : Prop where
  unfailed : corner.call.workerFailed = false
  unfaulted : corner.call.pool.failure = none
  once : ∀ node, history.count (.started index node) ≤ 1
  crew : ∀ (worker : Nat) (phase : Phase), corner.call.workers[worker]? = some phase →
    phase.Told index history
  nodes : corner.plan.Told index history
  stage : corner.Returns corner.call.stage

theorem WorkerDeed.remains_over (deed : WorkerDeed index worker before phase events later)
    (finished : before.plan.Over)
    (busy : ∀ node, phase.node? = some node → before.plan.state? node = some .executing) :
    later.plan.Over := by
  cases deed with
  | settle | start | request | drop | retire | stumble => exact finished
  | halt polls | park polls => exact finished.drift polls.drifts
  | breakdown polls => exact finished.drift (polls.drifts.trans (Plan.abort_drifts _ _))
  | select polls unfailed table selects =>
    have terminal := finished.drift polls.drifts _ _ selects.found
    simp [selects.ready, State.isTerminal] at terminal
  | refuse | instruct | finish => exact finished.failAll _ _
  | @complete lease node =>
    obtain ⟨entry, found, executing⟩ := Plan.entry_of_state? (busy node rfl)
    have terminal := finished node entry found
    simp [executing, State.isTerminal] at terminal
  | fail => exact (finished.disown _).drift (Plan.abort_drifts _ _)

/-- A worker goes on to its next phase. What held of the other workers still does if
that is so for each. -/
theorem crew_moved {Before After : Phase → Prop}
    (crew : ∀ (rival : Nat) (other : Phase), before.call.workers[rival]? = some other → Before other)
    (workers : later.call.workers = before.call.workers.set worker next) (fits : After next)
    (others : ∀ (rival : Nat) (other : Phase), rival ≠ worker →
      before.call.workers[rival]? = some other → Before other → After other) :
    ∀ (rival : Nat) (other : Phase), later.call.workers[rival]? = some other → After other := by
  intro rival other there
  rw [workers, List.getElem?_set] at there
  split at there
  · split at there
    · cases there
      exact fits
    · cases there
  next differs => exact others rival other (Ne.symm differs) there (crew rival other there)

private theorem WorkerDeed.returns (deed : WorkerDeed index worker before phase events later)
    (returns : before.Returns before.call.stage)
    (busy : ∀ node, phase.node? = some node → before.plan.state? node = some .executing) :
    later.Returns before.call.stage := by
  cases here : before.call.stage with
  | arriving | launching | queueing | reporting | awaiting => trivial
  | aborting => simp [here, Corner.Returns] at returns
  | joining | gone =>
    rw [here] at returns
    exact ⟨returns.1, deed.remains_over returns.2 busy⟩

theorem WorkerDeed.traced (deed : WorkerDeed index worker before phase events later)
    (there : before.call.workers[worker]? = some phase) (plain : before.Plain action)
    (valid : before.plan.Valid) (traced : before.Traced index history)
    (busy : ∀ node, phase.node? = some node → before.plan.state? node = some .executing)
    (sole : ∀ rival other node, before.call.workers[rival]? = some other →
      phase.node? = some node → other.node? = some node → rival = worker) :
    later.Traced index (history ++ events) := by
  have told := traced.crew worker phase there
  have goes {next : Phase} (workers : later.call.workers = before.call.workers.set worker next)
      (stage : later.call.stage = before.call.stage)
      (failed : later.call.workerFailed = before.call.workerFailed)
      (pool : later.call.pool.failure = before.call.pool.failure)
      (silent : ∀ node, phase.node? ≠ some node → .started index node ∉ events)
      (once : ∀ node, phase.node? = some node →
        (history ++ events).count (.started index node) ≤ 1)
      (nodes : later.plan.Told index (history ++ events))
      (fits : next.Told index (history ++ events)) : later.Traced index (history ++ events) := by
    refine ⟨failed.trans traced.unfailed, pool.trans traced.unfaulted, ?_, ?_, nodes, ?_⟩
    · intro node
      by_cases own : phase.node? = some node
      · exact once node own
      · rw [count_silent _ (silent node own)]
        exact traced.once node
    · apply crew_moved traced.crew workers fits
      intro rival other differs there' told
      apply told.grow
      intro node owns
      exact silent node fun own => differs (sole rival other node there' own owns)
    · rw [stage]
      exact deed.returns traced.stage busy
  -- most steps start no action
  have quietly {next : Phase} (workers : later.call.workers = before.call.workers.set worker next)
      (stage : later.call.stage = before.call.stage)
      (failed : later.call.workerFailed = before.call.workerFailed)
      (pool : later.call.pool.failure = before.call.pool.failure)
      (silent : ∀ node, .started index node ∉ events) (nodes : later.plan.Told index history)
      (fits : next.Told index (history ++ events)) : later.Traced index (history ++ events) := by
    refine goes workers stage failed pool (fun node _ => silent node) ?_ (nodes.grow silent) fits
    intro node _
    rw [count_silent _ (silent node)]
    exact traced.once node
  cases deed with
  | settle => exact quietly rfl rfl rfl rfl (by simp) traced.nodes trivial
  | halt polls =>
    have nodes := traced.nodes.drift polls.drifts
    cases polls <;> exact quietly rfl rfl rfl rfl (by simp) nodes trivial
  | breakdown polls hooked => exact absurd hooked plain.selects
  | @select lease parked polled node entry pass final polls unfailed table selects =>
    have drifted := traced.nodes.drift polls.drifts
    have unstarted := drifted node _ (Plan.state?_eq selects.found)
    rw [selects.ready] at unstarted
    have nodes := drifted.hand lease (polls.valid valid) selects.found selects.ready
    have fits : (Phase.chosen lease node).Told index (history ++ [.selected index node]) :=
      (count_silent _ (by simp)).trans unstarted
    cases polls <;> exact quietly rfl rfl rfl rfl (by simp) nodes fits
  | park polls =>
    have nodes := traced.nodes.drift polls.drifts
    cases polls <;> exact quietly rfl rfl rfl rfl (by simp) nodes trivial
  | @start lease node =>
    have once : (history ++ [Happening.started index node]).count (.started index node) = 1 := by
      rw [List.count_append, told]
      simp
    refine goes rfl rfl rfl rfl ?_ ?_ ?_ once
    · simp [Phase.node?, eq_comm]
    · intro _ same
      cases same
      exact Nat.le_of_eq once
    · intro other state found
      by_cases own : other = node
      · subst own
        cases Option.some.inj ((busy other rfl).symm.trans found)
        trivial
      · exact (traced.nodes other state found).grow (by simpa using own)
  | refuse reason => exact absurd reason plain.starts
  | request later kept raised foreign =>
    have silent (node : Nat) : .started index node ∉ events := fun member => by
      cases foreign _ member
    exact quietly rfl rfl rfl rfl silent traced.nodes (told.grow fun node _ => silent node)
  | instruct =>
    exact quietly rfl rfl rfl rfl (by simp) (traced.nodes.failAll _ _) (told.grow (by simp))
  | @finish lease node =>
    exact quietly rfl rfl rfl rfl (by simp) (traced.nodes.failAll _ _)
      ⟨(count_silent _ (by simp)).trans told, by simp⟩
  | @complete lease node =>
    obtain ⟨entry, found, executing⟩ := Plan.entry_of_state? (busy node rfl)
    have ends := (Plan.complete_executing valid found executing before.locks).2
    exact quietly rfl rfl rfl rfl (by simp) (traced.nodes.ends ends told.1 told.2) trivial
  | drop found hooked => exact absurd hooked plain.completes
  | retire =>
    refine quietly rfl rfl rfl ?_ (by simp) traced.nodes rfl
    simp only [Pool.finish]
    split
    · simp
    · rfl
  | stumble raises => exact absurd raises plain.quiet
  | fail => exact told.elim

theorem CallerDeed.traced (deed : CallerDeed before before.call.stage later)
    (plain : before.Plain action) (valid : before.plan.Valid)
    (traced : before.Traced index history) : later.Traced index history := by
  have returns := traced.stage
  generalize before.call.stage = stage at deed returns
  cases deed with
  | register => exact { traced with stage := trivial }
  | launch =>
    refine { traced with unfaulted := rfl, crew := ?_, stage := trivial }
    intro worker phase there
    simp only [Corner.withStage, List.getElem?_replicate, Option.ite_none_right_eq_some] at there
    cases there.2
    trivial
  | giveUp raises => exact absurd raises plain.quiet
  | queue polls =>
    have populated := (polls.valid valid).populate.2.1
    exact { traced with nodes := traced.nodes.drift (polls.drifts.trans populated), stage := trivial }
  | collapse polls hooked => exact absurd hooked plain.populates
  | report | wait => exact { traced with stage := trivial }
  | collect done =>
    have none := done.resolve_left (by simp [traced.unfailed])
    have drifts := Plan.collect_drifts before.plan
    exact { traced with
      nodes := traced.nodes.drift drifts
      stage := ⟨rfl, (valid.coherent.finished none).drift drifts⟩ }
  | abort => exact returns.elim
  | depart =>
    obtain ⟨rfl, finished⟩ := returns
    exact { traced with stage := ⟨traced.unfaulted, finished⟩ }

theorem Corner.Traced.elsewhere (traced : before.Traced index history)
    (shares : before.Shares later) (foreign : ∀ happening ∈ events, happening.call? ≠ some index) :
    later.Traced index (history ++ events) := by
  have silent (node : Nat) : .started index node ∉ events :=
    fun member => foreign _ member rfl
  refine ⟨?_, ?_, ?_, ?_, ?_, ?_⟩
  · rw [shares.call]
    exact traced.unfailed
  · rw [shares.call]
    exact traced.unfaulted
  · intro node
    rw [count_silent _ (silent node)]
    exact traced.once node
  · rw [shares.call]
    exact fun worker phase there => (traced.crew worker phase there).grow fun node _ => silent node
  · rw [shares.plan]
    exact traced.nodes.grow silent
  · have returns := traced.stage
    rw [shares.call]
    cases stage : before.call.stage with
    | arriving | launching | queueing | reporting | awaiting => trivial
    | aborting => simp [stage, Corner.Returns] at returns
    | joining | gone =>
      rw [stage] at returns
      exact ⟨returns.1, shares.plan ▸ returns.2⟩

namespace World

variable {start world : World} {moves : List (Bool × Move)} {call : Call} {driven : Driven}

/-- A call that is still to be made, on a plan of its own that was built and is as it
was built. The call has actions, and its log raises no fault. -/
structure Begins (start : World) (index : Nat) (call : Call) (driven : Driven) (action : Action) :
    Prop where
  fresh : start.Start
  alone : start.Alone index
  found : start.calls[index]? = some call
  planned : start.plans[call.plan]? = some driven
  built : driven.plan.Built
  hooks : driven.hooks = {}
  quiet : Quiet call.executor
  action : call.action = some action

theorem Begins.plain (begins : start.Begins index call driven action) :
    (start.cornerOf call driven).Plain action :=
  ⟨begins.quiet, begins.hooks, begins.action⟩

theorem opening_begins {budget : Nat} (positive : 0 < budget) {jobs : List (Plan × Action × Nat)}
    (built : ∀ job ∈ jobs, job.1.Built) {job : Plan × Action × Nat} (present : jobs[index]? = some job) :
    (opening budget jobs).Begins index
      { executor := { workers := job.2.2, root := { tree := 0, place := 0 }, gate := 0 }
        plan := index
        action := some job.2.1 } { plan := job.1 } job.2.1 :=
  { fresh := opening_start positive built
    alone := opening_alone budget index jobs
    found := by simp [opening, present]
    planned := by simp [opening, present]
    built := built job (List.mem_of_getElem? present)
    hooks := rfl
    quiet := fun ⟨_, present, _⟩ => by cases present
    action := rfl }

private theorem Begins.traced_start (begins : start.Begins index call driven action) :
    (start.cornerOf call driven).Traced index [] := by
  have unmade := begins.fresh.unmade index call begins.found
  refine ⟨unmade.unfailed, unmade.failure, by simp, ?_, ?_, ?_⟩
  · simp [cornerOf, unmade.workers]
  · intro node state found
    obtain ⟨entry, present, rfl⟩ := Plan.entry_of_state? found
    rw [(begins.built.valid.2.untouched node entry present).1]
    rfl
  · simp only [cornerOf, unmade.stage]
    trivial

/-- What holds of the call at first, and with every step, holds after all of them. -/
theorem Begins.sees (begins : start.Begins index call driven action)
    (Kept : Corner → List Happening → Prop) {final : Call} {last : Driven}
    (ran : start.play moves = some world) (found : world.calls[index]? = some final)
    (planned : world.plans[final.plan]? = some last) (initial : Kept (start.cornerOf call driven) [])
    (step : ∀ (world : World) (call : Call) (driven : Driven) (move : Move)
      (events history : List Happening) (later : Corner), Owned.Lawful world call driven →
      (world.cornerOf call driven).Plain action →
      (world.cornerOf call driven).Traced index history →
      (world.cornerOf call driven).Turns index move events later →
      Kept (world.cornerOf call driven) history → Kept later (history ++ events)) :
    (world.cornerOf final last).Traced index world.history ∧
      Kept (world.cornerOf final last) world.history := by
  refine (begins.fresh.sees begins.alone (fun corner history => corner.Plain action ∧
    corner.Traced index history ∧ Kept corner history) ran found planned ?_ ?_).2
  · intro other rival found planned
    cases Option.some.inj (begins.found.symm.trans found)
    cases Option.some.inj (begins.planned.symm.trans planned)
    exact ⟨begins.plain, begins.traced_start, initial⟩
  · intro world call driven move events history later _ lawful turns ⟨plain, traced, kept⟩
    refine ⟨plain.keep (turns.kept lawful.valid), ?_,
      step world call driven move events history later lawful plain traced turns kept⟩
    cases turns with
    | worker there deed =>
      exact deed.traced there plain lawful.valid traced (lawful.busy _ _ there)
        fun rival other node => lawful.sole _ rival _ other node there
    | caller deed =>
      rw [List.append_nil]
      exact deed.traced plain lawful.valid traced
    | elsewhere shares foreign => exact traced.elsewhere shares foreign

theorem Begins.traced (begins : start.Begins index call driven action) {final : Call} {last : Driven}
    (ran : start.play moves = some world) (found : world.calls[index]? = some final)
    (planned : world.plans[final.plan]? = some last) :
    (world.cornerOf final last).Traced index world.history :=
  (begins.sees (fun _ _ => True) ran found planned trivial fun _ _ _ _ _ _ _ _ _ _ _ _ => trivial).1

end World
end Executor
end Foreman
