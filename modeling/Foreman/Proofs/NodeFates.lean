import Foreman.Proofs.ExecutionOrder

/-! What one step of a run is to one node of a call. A node drifts until a worker is
handed it. From then on only that worker touches it, and it stays executing until the
worker completes it. -/

namespace Foreman.Executor

variable {index worker position : Nat} {before later : Corner} {phase : Phase} {move : Move}
  {events : List Happening} {old new : Entry}

/-- What a step of the world makes of a node of the call. -/
inductive Corner.Fate (index : Nat) (before : Corner) (move : Move) (events : List Happening)
    (position : Nat) (old new : Node) : Prop where
  | drifts (drift : old.Drifts new) (unselected : .selected index position ∉ events)
  | handed (free : old.state.isUnscheduled = true) (executing : new.state = .executing)
      (failure : new.failure = old.failure) (holds : new.held ≠ [])
      (selected : .selected index position ∈ events)
  /-- The worker that executes the node may have recorded a failure. -/
  | noted (executing : old.state = .executing) (still : new.state = .executing)
      (held : new.held = old.held) (unselected : .selected index position ∉ events)
  /-- The worker that executed the node ends without completing it. -/
  | left {worker : Nat} {lease : Lease} {fault : Fault} (own : move = .worker index worker)
      (there : before.call.workers[worker]? = some (.failing lease (some position) fault))
      (executing : old.state = .executing) (still : new.state = .executing)
      (unselected : .selected index position ∉ events)
  | ended {worker : Nat} {lease : Lease} (own : move = .worker index worker)
      (there : before.call.workers[worker]? = some (.completing lease position))
      (unhooked : ∃ tally, before.hooks.complete tally old = none)
      (executing : old.state = .executing) (failure : new.failure = old.failure)
      (state : new.state = if old.failure.isSome then .failed else .succeeded)
      (unselected : .selected index position ∉ events)

theorem Corner.Fate.of_drifts (drifts : before.plan.Drifts later.plan)
    (found : before.plan.entries[position]? = some old)
    (again : later.plan.entries[position]? = some new)
    (unselected : .selected index position ∉ events) :
    before.Fate index move events position old.node new.node :=
  .drifts (drifts.node position old new found again) unselected

private theorem fate_failAll {node : Nat} (failures : List Failure)
    (busy : before.plan.state? node = some .executing)
    (found : before.plan.entries[position]? = some old)
    (again : (before.plan.failAll node failures).entries[position]? = some new)
    (unselected : .selected index position ∉ events) :
    before.Fate index move events position old.node new.node := by
  rw [Plan.failAll_lookup, found, Option.map_some, Option.some.injEq] at again
  subst again
  split
  next same =>
    subst same
    have executing := Option.some.inj ((Plan.state?_eq found).symm.trans busy)
    exact .noted executing executing rfl unselected
  · exact .drifts (.refl _) unselected

theorem WorkerDeed.fate (deed : WorkerDeed index worker before phase events later)
    (there : before.call.workers[worker]? = some phase) (valid : before.plan.Valid)
    (busy : ∀ node, phase.node? = some node → before.plan.state? node = some .executing)
    (found : before.plan.entries[position]? = some old)
    (again : later.plan.entries[position]? = some new) :
    before.Fate index (.worker index worker) events position old.node new.node := by
  have still (same : later.plan = before.plan) (unselected : .selected index position ∉ events) :
      before.Fate index (.worker index worker) events position old.node new.node :=
    .of_drifts (same ▸ .refl _) found again unselected
  cases deed with
  | settle | start | drop | retire | stumble => exact still rfl (by simp)
  | request _ _ _ foreign => exact still rfl fun member => by cases foreign _ member
  | halt polls | park polls => exact .of_drifts polls.drifts found again (by simp)
  | breakdown polls =>
    exact .of_drifts (polls.drifts.trans (Plan.abort_drifts _ _)) found again (by simp)
  | @select lease parked polled node entry pass final polls unfailed table selects =>
    have lookup := (Plan.Replaces.hand (polls.valid valid).coherent lease selects.found
      selects.ready).lookup position
    have handed := lookup.symm.trans again
    split at handed
    next same =>
      cases handed
      subst same
      have drift := polls.drifts.node position old entry found selects.found
      refine .handed ?_ rfl drift.failure (List.cons_ne_nil _ _) (by simp)
      cases free : old.node.state.isUnscheduled with
      | true => rfl
      | false =>
        have settled := drift.settled free
        simp [← settled, selects.ready, State.isUnscheduled] at free
    next differs =>
      exact .drifts (polls.drifts.node position old new found handed) (by simpa using differs)
  | refuse | instruct => exact fate_failAll _ (busy _ rfl) found again (by simp)
  | finish => exact fate_failAll _ (busy _ rfl) found again (by simp)
  | @complete lease node unhooked =>
    obtain ⟨entry, present, executing⟩ := Plan.entry_of_state? (busy node rfl)
    have ends := (Plan.complete_executing valid present executing before.locks).2
    by_cases own : position = node
    · subst own
      cases Option.some.inj (found.symm.trans present)
      obtain ⟨closed, known, failure, _, state⟩ := ends.own
      cases Option.some.inj (known.symm.trans again)
      exact .ended rfl there (unhooked old found) executing failure state (by simp)
    · exact .drifts (ends.others position old new own found again) (by simp)
  | @fail lease node fault escaped lasts =>
    obtain ⟨between, present, links, drift⟩ := (Plan.abort_drifts _ _).back again
    rw [Plan.disown_lookup, found, Option.map_some, Option.some.injEq] at present
    subst present
    split at drift
    next own =>
      subst own
      have executing := Option.some.inj ((Plan.state?_eq found).symm.trans (busy position rfl))
      have settled := drift.settled (show old.node.state.isUnscheduled = false by
        simp [executing, State.isUnscheduled])
      exact .left rfl there executing (settled.trans executing) (by simp)
    · exact .drifts drift (by simp)

theorem CallerDeed.drifts {stage : Stage} (deed : CallerDeed before stage later)
    (valid : before.plan.Valid) : before.plan.Drifts later.plan := by
  cases deed with
  | register | launch | giveUp | report | wait | depart => exact .refl _
  | queue polls => exact polls.drifts.trans (polls.valid valid).populate.2.1
  | collapse polls => exact polls.drifts.trans (Plan.abort_drifts _ _)
  | collect => exact Plan.collect_drifts _
  | abort => exact Plan.abort_drifts _ _

theorem Corner.Turns.fate (turns : before.Turns index move events later)
    (valid : before.plan.Valid)
    (busy : ∀ (worker : Nat) (phase : Phase), before.call.workers[worker]? = some phase →
      ∀ node, phase.node? = some node → before.plan.state? node = some .executing)
    (found : before.plan.entries[position]? = some old)
    (again : later.plan.entries[position]? = some new) :
    before.Fate index move events position old.node new.node := by
  cases turns with
  | worker there deed => exact deed.fate there valid (busy _ _ there) found again
  | caller deed => exact .of_drifts (deed.drifts valid) found again (by simp)
  | elsewhere shares foreign =>
    exact .of_drifts (shares.plan ▸ .refl _) found again fun member => foreign _ member rfl

namespace Corner.Fate

variable {first last : Node} (fate : before.Fate index move events position first last)
include fate

theorem settled (terminal : first.state.isTerminal = true) :
    last.state = first.state ∧ last.failure = first.failure := by
  cases fate with
  | drifts drift => exact ⟨drift.settled (State.settled_of_terminal terminal), drift.failure⟩
  | handed free =>
    rw [State.settled_of_terminal terminal] at free
    cases free
  | noted executing | left _ _ executing | ended _ _ _ executing =>
    rw [executing] at terminal
    cases terminal

/-- A node that nobody can select any more is not selected, and remains so. -/
theorem scheduled (taken : first.state.isUnscheduled = false) :
    last.state.isUnscheduled = false := by
  cases fate with
  | drifts drift => rw [drift.settled taken, taken]
  | handed free =>
    rw [taken] at free
    cases free
  | noted _ still | left _ _ _ still => simp [still, State.isUnscheduled]
  | ended _ _ _ _ _ state =>
    rw [state]
    split <;> rfl

end Corner.Fate

theorem Corner.Turns.stopped (turns : before.Turns index move events later)
    (valid : before.plan.Valid)
    (busy : ∀ (worker : Nat) (phase : Phase), before.call.workers[worker]? = some phase →
      ∀ node, phase.node? = some node → before.plan.state? node = some .executing)
    (stopped : before.plan.Stopped) : later.plan.Stopped := by
  intro position entry again
  obtain ⟨old, present, _⟩ := (turns.kept valid).keeps.back again
  exact (turns.fate valid busy present again).scheduled (stopped position old present)

/-- A node that is selected was still to be scheduled, in a run that had not failed. -/
theorem Corner.Turns.selects {node : Nat} (turns : before.Turns index move events later)
    (selected : .selected index node ∈ events) :
    before.call.workerFailed = false ∧
      ∃ entry, before.plan.entries[node]? = some entry ∧ entry.node.state.isUnscheduled = true := by
  cases turns with
  | caller deed => cases selected
  | elsewhere shares foreign => exact absurd rfl (foreign _ selected)
  | @worker worker phase events later there deed =>
    cases deed with
    | settle | halt | breakdown | park | refuse | instruct | complete | drop | retire | stumble
    | fail => cases selected
    | request _ _ _ foreign => cases foreign _ selected
    | start | finish =>
      rw [List.mem_singleton] at selected
      cases selected
    | @select lease parked polled other entry pass final polls unfailed table selects =>
      rw [List.mem_singleton] at selected
      cases selected
      obtain ⟨earlier, present, _, drift⟩ := polls.drifts.back selects.found
      refine ⟨unfailed, earlier, present, ?_⟩
      cases free : earlier.node.state.isUnscheduled with
      | true => rfl
      | false =>
        have settled := drift.settled free
        simp [← settled, selects.ready, State.isUnscheduled] at free

theorem WorkerDeed.parts {node : Nat} (deed : WorkerDeed index worker before phase events later)
    (there : before.call.workers[worker]? = some phase) (valid : before.plan.Valid)
    (busy : before.plan.state? node = some .executing) (owns : phase.node? = some node)
    (parts : ∀ next, later.call.workers[worker]? = some next → next.node? ≠ some node) :
    (∃ lease fault, phase = .failing lease (some node) fault) ∨
      ∃ lease state, phase = .completing lease node ∧ later.plan.state? node = some state ∧
        (state = .succeeded ∨ state = .failed) := by
  have inside := (List.getElem?_eq_some_iff.mp there).1
  have keeps {next : Phase} (workers : later.call.workers = before.call.workers.set worker next)
      (still : next.node? = some node) : False :=
    parts next (by rw [workers, List.getElem?_set_self inside]) still
  cases deed with
  | settle | halt | breakdown | select | park | retire | stumble => cases owns
  | start | refuse | request | instruct | finish | drop => exact (keeps rfl owns).elim
  | @fail lease other fault =>
    cases (show other = some node from owns)
    exact Or.inl ⟨lease, fault, rfl⟩
  | @complete lease other =>
    cases (show some other = some node from owns)
    obtain ⟨entry, found, executing⟩ := Plan.entry_of_state? busy
    obtain ⟨closed, again, _, _, state⟩ := (Plan.complete_executing valid found executing before.locks).2.own
    refine Or.inr ⟨lease, closed.node.state, rfl, Plan.state?_eq again, ?_⟩
    rw [state]
    split
    · exact Or.inr rfl
    · exact Or.inl rfl

theorem Corner.Turns.parts {node : Nat} (turns : before.Turns index move events later)
    (there : before.call.workers[worker]? = some phase) (valid : before.plan.Valid)
    (staffed : before.call.Staffed) (busy : before.plan.state? node = some .executing)
    (owns : phase.node? = some node)
    (parts : ∀ next, later.call.workers[worker]? = some next → next.node? ≠ some node) :
    (∃ lease fault, phase = .failing lease (some node) fault) ∨
      move = .worker index worker ∧ ∃ lease state, phase = .completing lease node ∧
        later.plan.state? node = some state ∧ (state = .succeeded ∨ state = .failed) := by
  cases turns with
  | @worker other _ _ _ there' deed =>
    by_cases own : other = worker
    · subst own
      cases Option.some.inj (there.symm.trans there')
      exact (deed.parts there valid busy owns parts).imp id fun ended => ⟨rfl, ended⟩
    · obtain ⟨_, _, moves⟩ := deed.moves
      exact absurd owns (parts phase (by rw [moves.workers, List.getElem?_set_ne own, there]))
  | caller deed =>
    rcases deed.crew with same | ⟨early, _⟩
    · exact absurd owns (parts phase (same ▸ there))
    · rw [staffed.early (Or.inr early)] at there
      cases there
  | elsewhere shares => exact absurd owns (parts phase (shares.call ▸ there))

namespace World

variable {start middle world : World} {earlier moves : List (Bool × Move)} {call final : Call}
  {known last : Driven} {node : Nat}

/-- In one of these steps the worker of the call completes the node, which ends. -/
def Finishes (start : World) (index worker place : Nat) (moves : List (Bool × Move)) (node : Nat) :
    Prop :=
  ∃ earlier missed later before after lease state,
    moves = earlier ++ (missed, .worker index worker) :: later ∧
    start.play earlier = some before ∧ before.step missed (.worker index worker) = some after ∧
    before.phase? index worker = some (.completing lease node) ∧
    before.state? place node = some .executing ∧ after.state? place node = some state ∧
    (state = .succeeded ∨ state = .failed)

section

variable (fresh : start.Start) (alone : start.Alone index) (played : start.play earlier = some middle)
  (ran : middle.play moves = some world)
include fresh alone played ran

theorem Start.settles (found : middle.calls[index]? = some call)
    (planned : middle.plans[call.plan]? = some known) (found_last : world.calls[index]? = some final)
    (planned_last : world.plans[final.plan]? = some last)
    (present : known.plan.entries[node]? = some old) (terminal : old.node.state.isTerminal = true) :
    ∃ new, last.plan.entries[node]? = some new ∧ new.node.state = old.node.state ∧
      new.node.failure = old.node.failure := by
  refine fresh.sees_on alone (fun corner _ => ∃ new, corner.plan.entries[node]? = some new ∧
    new.node.state = old.node.state ∧ new.node.failure = old.node.failure) played ran found_last
    planned_last ?_ ?_
  · intro other driven found' planned'
    cases Option.some.inj (found.symm.trans found')
    cases Option.some.inj (planned.symm.trans planned')
    exact ⟨old, present, rfl, rfl⟩
  · intro before call driven move events history later _ lawful turns ⟨between, found, state, failure⟩
    obtain ⟨new, again, _⟩ := (turns.kept lawful.valid).keeps.entry node between found
    have fate := turns.fate lawful.valid lawful.busy found again
    obtain ⟨same, kept⟩ := fate.settled (state ▸ terminal)
    exact ⟨new, again, same.trans state, kept.trans failure⟩

/-- Nothing is selected in the rest of the run once no node is left to be scheduled. -/
theorem Start.halts (found : start.calls[index]? = some call)
    (planned : middle.plans[call.plan]? = some known) (stopped : known.plan.Stopped) :
    ∀ node, world.history.count (.selected index node) =
      middle.history.count (.selected index node) := by
  obtain ⟨owned, follows⟩ := fresh.play (play_trans played ran)
  obtain ⟨active, found_first, _, place, _⟩ := (fresh.play played).2.calls index call found
  obtain ⟨final, found_last, _⟩ := follows.calls index _ found
  obtain ⟨last, planned_last⟩ := owned.planned index final found_last
  refine (fresh.sees_on alone (fun corner history => corner.plan.Stopped ∧ ∀ node,
    history.count (.selected index node) = middle.history.count (.selected index node)) played ran
    found_last planned_last ?_ ?_).2
  · intro other driven found' planned'
    cases Option.some.inj (found_first.symm.trans found')
    rw [place] at planned'
    cases Option.some.inj (planned.symm.trans planned')
    exact ⟨stopped, fun _ => rfl⟩
  · intro before call driven move events history later _ lawful turns ⟨stopped, counts⟩
    refine ⟨turns.stopped lawful.valid lawful.busy stopped, fun node => ?_⟩
    have unselected : .selected index node ∉ events := by
      intro selected
      obtain ⟨_, entry, present, free⟩ := turns.selects selected
      rw [stopped node entry present] at free
      cases free
    rw [List.count_append, List.count_eq_zero.mpr unselected, Nat.add_zero, counts node]

/-- A worker that has no node any more has completed it, or has left it behind. -/
theorem Start.finishes (found : start.calls[index]? = some call)
    (owner : middle.phase? index worker = some phase) (owns : phase.node? = some node)
    (parted : ∀ phase, world.phase? index worker = some phase → phase.node? ≠ some node) :
    middle.Finishes index worker call.plan moves node ∨
      ∃ between before lease fault, start.play between = some before ∧
        before.phase? index worker = some (.failing lease (some node) fault) := by
  obtain ⟨before_, missed, move, after_, before, after, rfl, reached, stepped, still, parts⟩ :=
    play_change (fun world => ∀ phase, world.phase? index worker = some phase →
      phase.node? ≠ some node) ran (fun parts => parts phase owner owns) parted
  have whole := play_trans played reached
  obtain ⟨active, later, known, last, events, sight⟩ := fresh.sight alone found whole stepped
  have phases : before.phase? index worker = active.workers[worker]? := by
    rw [phase?, sight.found, Option.bind_some]
  have phases_after : after.phase? index worker = later.workers[worker]? := by
    rw [phase?, sight.found_after, Option.bind_some]
  rw [phases] at still
  rw [phases_after] at parts
  obtain ⟨current, there, owns⟩ : ∃ phase, active.workers[worker]? = some phase ∧
      phase.node? = some node := by simpa [Classical.not_forall] using still
  have busy := sight.lawful.busy worker current there node owns
  rcases sight.turns.parts there sight.lawful.valid sight.lawful.staffed busy owns parts with
    ⟨lease, fault, rfl⟩ | ⟨rfl, lease, state, rfl, ended, outcome⟩
  · exact Or.inr ⟨earlier ++ before_, before, lease, fault, whole, phases.trans there⟩
  · refine Or.inl ⟨before_, missed, after_, before, after, lease, state, rfl, reached, stepped,
      phases.trans there, ?_, ?_, outcome⟩
    · rw [state?_eq sight.planned]
      exact busy
    · rw [state?_eq sight.planned_after]
      exact ended

end

end World
end Foreman.Executor
