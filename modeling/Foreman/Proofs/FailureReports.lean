import Foreman.Proofs.Breakage
import Foreman.Proofs.PlanFailures

/-! What becomes of the failures of nodes. The call takes them out of its plan once, as
soon as the plan is over or a worker has failed. A node that ends with a failure before
that is reported once. A node that ends after that is not, which can happen to those
only that were being executed at the time by workers that had not failed. -/

namespace Foreman

namespace Executor

variable {index worker : Nat} {before later : Corner} {phase : Phase} {move : Move}
  {events : List Happening} {broken : String → Prop}

theorem Corner.Turns.failed (turns : before.Turns index move events later)
    (failed : before.call.workerFailed = true) : later.call.workerFailed = true := by
  cases turns with
  | worker there deed =>
    obtain ⟨_, _, moves⟩ := deed.moves
    exact moves.failed failed
  | caller deed =>
    generalize before.call.stage = stage at deed
    cases deed <;> exact failed
  | elsewhere shares => exact shares.call ▸ failed

/-- The call has taken the failures and is about to end, or has ended. -/
def Stage.IsLate : Stage → Prop
  | .joining _ | .gone _ => True
  | .arriving | .launching | .queueing _ | .reporting | .awaiting _ | .aborting _ => False

theorem Corner.Turns.late (turns : before.Turns index move events later)
    (late : before.call.stage.IsLate) :
    later.call.stage.IsLate ∧ later.call.failures = before.call.failures := by
  cases turns with
  | worker there deed =>
    obtain ⟨_, _, moves⟩ := deed.moves
    exact ⟨moves.stage ▸ late, moves.failures⟩
  | caller deed =>
    generalize before.call.stage = stage at deed late
    cases deed with
    | depart => exact ⟨trivial, rfl⟩
    | register | launch | giveUp | queue | collapse | report | wait | collect | abort => cases late
  | elsewhere shares => exact ⟨shares.call ▸ late, by rw [shares.call]⟩

/-- The failures are taken in a step of the call itself, once the run is over or failed. -/
theorem Corner.Turns.takes {earlier : List Failure} {history : List Happening}
    (turns : before.Turns index move events later)
    (endures : before.Endures broken earlier index history)
    (early : ¬ before.call.stage.IsLate) (late : later.call.stage.IsLate) :
    move = .caller index ∧ before.plan.collected = false ∧
      (before.call.workerFailed = true ∨ before.plan.remaining = 0) ∧
      later.call.failures = earlier ++ (before.plan.nodeFailures ++ before.plan.failures) := by
  cases turns with
  | worker there deed =>
    obtain ⟨_, _, moves⟩ := deed.moves
    exact absurd (moves.stage ▸ late) early
  | elsewhere shares => exact absurd (shares.call ▸ late) early
  | caller deed =>
    have reaches := endures.stage
    generalize before.call.stage = stage at deed early reaches
    cases deed with
    | collect done =>
      obtain ⟨failures, uncollected⟩ := reaches
      refine ⟨rfl, uncollected, done, ?_⟩
      simp [Corner.withStage, Plan.collect, uncollected, failures]
    | collapse polls hooked =>
      obtain ⟨tally, fault, raised⟩ := hooked
      rw [endures.hooks.populate] at raised
      cases raised
    | register | launch | giveUp | queue | report | wait => cases late
    | abort => exact reaches.elim
    | depart => exact absurd trivial early

namespace World

variable {start world : World} {moves : List (Bool × Move)} {call final : Call}
  {driven last : Driven} {fault : Option Fault}

/-- The step of a run in which the call takes the failures out of its plan. -/
structure Drain (start : World) (index place : Nat) (moves : List (Bool × Move)) (world : World) where
  earlier : List (Bool × Move)
  missed : Bool
  later : List (Bool × Move)
  before : World
  after : World
  call : Call
  driven : Driven
  split : moves = earlier ++ (missed, .caller index) :: later
  reached : start.play earlier = some before
  stepped : before.step missed (.caller index) = some after
  onward : after.play later = some world
  found : before.calls[index]? = some call
  planned : before.plans[place]? = some driven
  early : ¬ call.stage.IsLate
  /-- The run had failed, or it was over. -/
  done : call.workerFailed = true ∨ driven.plan.remaining = 0

/-- What a call reports is what its plan had to report in one step of the run. -/
theorem Attempts.drains (attempts : start.Attempts index call driven broken)
    (ran : start.play moves = some world) (found : world.calls[index]? = some final)
    (gone : final.stage = .gone fault) :
    ∃ drain : Drain start index call.plan moves world,
      final.failures = call.failures ++
        (drain.driven.plan.nodeFailures ++ drain.driven.plan.failures) := by
  have fresh := attempts.fresh
  have unmade := fresh.unmade index call attempts.found
  obtain ⟨earlier, missed, move, later, before, after, rfl, reached, stepped, early, late⟩ :=
    play_change (fun world => ∃ call, world.calls[index]? = some call ∧ call.stage.IsLate) ran
      (fun ⟨other, present, late⟩ => by
        cases Option.some.inj (attempts.found.symm.trans present)
        rw [unmade.stage] at late
        exact late) ⟨final, found, by rw [gone]; trivial⟩
  obtain ⟨active, next, known, follower, events, sight⟩ :=
    fresh.sight attempts.alone attempts.found reached stepped
  obtain ⟨other, present, late⟩ := late
  cases Option.some.inj (sight.found_after.symm.trans present)
  have endures := attempts.endures reached sight.found sight.planned
  have early : ¬ active.stage.IsLate := fun late => early ⟨active, sight.found, late⟩
  obtain ⟨rfl, uncollected, done, failures⟩ := sight.turns.takes endures early late
  have onward := play_rest reached stepped ran
  obtain ⟨last, planned, _⟩ := (fresh.play ran).2.plans _ driven attempts.planned
  have kept := (attempts.sees_on (fun corner => corner.call.stage.IsLate ∧
    corner.call.failures = next.failures) (play_concat reached stepped) onward sight.found_after
    sight.planned_after found planned ⟨late, rfl⟩
    fun _ _ _ _ _ _ _ _ _ turns ⟨late, same⟩ =>
      ⟨(turns.late late).1, (turns.late late).2.trans same⟩).2
  exact ⟨⟨earlier, missed, later, before, after, active, known, rfl, reached, stepped, onward,
    sight.found, sight.planned, early, done⟩, kept.trans failures⟩

theorem Drain.rest {place : Nat} (drain : Drain start index place moves world) :
    drain.before.play ((drain.missed, .caller index) :: drain.later) = some world := by
  simp only [play, drain.stepped, Option.bind_some]
  exact drain.onward

theorem Drain.ran {place : Nat} (drain : Drain start index place moves world) :
    start.play moves = some world := by
  rw [drain.split]
  exact play_trans drain.reached drain.rest

section

variable (attempts : start.Attempts index call driven broken)
  (drain : Drain start index call.plan moves world)
include attempts

theorem Drain.endures : (drain.before.cornerOf drain.call drain.driven).Endures broken
    call.failures index drain.before.history :=
  attempts.endures drain.reached drain.found drain.planned

theorem Drain.size (planned : world.plans[call.plan]? = some last) :
    last.plan.size = drain.driven.plan.size := by
  have fresh := attempts.fresh
  obtain ⟨known, planned_drain, _, keeps⟩ := (fresh.play drain.reached).2.plans _ driven attempts.planned
  cases Option.some.inj (drain.planned.symm.trans planned_drain)
  obtain ⟨known, planned_last, _, keeps_last⟩ := (fresh.play drain.ran).2.plans _ driven attempts.planned
  cases Option.some.inj (planned.symm.trans planned_last)
  exact keeps_last.size.trans keeps.size.symm

variable (found : world.calls[index]? = some final) (planned : world.plans[call.plan]? = some last)
include found planned

/-- What becomes of a node of the plan after the failures were taken. A node that was not
terminal by then was being executed, in a run that had failed. -/
theorem Drain.node {position : Nat} {old entry : Entry}
    (present_old : drain.driven.plan.entries[position]? = some old)
    (present : last.plan.entries[position]? = some entry) :
    entry.node.state = old.node.state ∧ entry.node.failure = old.node.failure ∨
      drain.call.workerFailed = true ∧ old.node.state = .executing := by
  have place := attempts.place drain.reached drain.found
  have place_last := attempts.place drain.ran found
  have owned := (attempts.fresh.play drain.reached).1
  cases terminal : old.node.state.isTerminal with
  | true =>
    obtain ⟨new, again, state, failure⟩ := attempts.fresh.settles attempts.alone drain.reached
      drain.rest drain.found (by rw [place]; exact drain.planned) found
      (by rw [place_last]; exact planned) present_old terminal
    cases Option.some.inj (present.symm.trans again)
    exact Or.inl ⟨state, failure⟩
  | false =>
    have failed := drain.done.resolve_right fun none => by
      have finished := (owned.valid _ _ drain.planned).coherent.finished none position old present_old
      rw [terminal] at finished
      cases finished
    have stopped := ((drain.endures attempts).failed failed).1 position old present_old
    refine Or.inr ⟨failed, ?_⟩
    cases state : old.node.state with
    | executing => rfl
    | notReady | ready => simp [state, State.isUnscheduled] at stopped
    | succeeded | failed | skipped => simp [state, State.isTerminal] at terminal

theorem Drain.lasts {node : Nat} (failed : node ∈ drain.driven.plan.failedNodes) :
    node ∈ last.plan.failedNodes ∧ last.plan.failure? node = drain.driven.plan.failure? node := by
  obtain ⟨old, present_old, state⟩ := Plan.entry_of_state? (Plan.mem_failedNodes.mp failed)
  have inside : node < last.plan.size := by
    rw [drain.size attempts planned]
    exact (List.getElem?_eq_some_iff.mp present_old).1
  obtain ⟨entry, present⟩ : ∃ entry, last.plan.entries[node]? = some entry :=
    ⟨_, List.getElem?_eq_getElem inside⟩
  rcases drain.node attempts found planned present_old present with ⟨same, failure⟩ | ⟨_, executing⟩
  · rw [Plan.mem_failedNodes, Plan.state?_eq present, Plan.failure?_eq present,
      Plan.failure?_eq present_old, same, state]
    exact ⟨rfl, failure⟩
  · rw [executing] at state
    cases state

/-- A node that failed had failed by then, or was being executed in a failed run. -/
theorem Drain.first {node : Nat} (failed : node ∈ last.plan.failedNodes) :
    node ∈ drain.driven.plan.failedNodes ∨
      drain.call.workerFailed = true ∧ drain.driven.plan.state? node = some .executing := by
  obtain ⟨entry, present, state⟩ := Plan.entry_of_state? (Plan.mem_failedNodes.mp failed)
  have inside : node < drain.driven.plan.size := by
    rw [← drain.size attempts planned]
    exact (List.getElem?_eq_some_iff.mp present).1
  obtain ⟨old, present_old⟩ : ∃ old, drain.driven.plan.entries[node]? = some old :=
    ⟨_, List.getElem?_eq_getElem inside⟩
  have then_ := Plan.state?_eq present_old
  rcases drain.node attempts found planned present_old present with ⟨same, _⟩ | ⟨broke, executing⟩
  · exact Or.inl (Plan.mem_failedNodes.mpr (by rw [then_, ← same, state]))
  · exact Or.inr ⟨broke, by rw [then_, executing]⟩

/-- In a run that had failed by then a broken node was executed. -/
theorem Drain.blames (failed : drain.call.workerFailed = true) :
    ∃ node, last.plan.Has broken node ∧ .selected index node ∈ world.history := by
  have failed_last := attempts.sees_on (fun corner => corner.call.workerFailed = true) drain.reached
    drain.rest drain.found drain.planned found planned failed
    fun _ _ _ _ _ _ _ _ _ turns failed => turns.failed failed
  have endures := attempts.endures drain.ran found planned
  obtain ⟨_, node, has, executing⟩ := endures.failed failed_last
  obtain ⟨entry, present, state⟩ := Plan.entry_of_state? executing
  exact ⟨node, has, (endures.nodes node entry present).selected.mpr (Or.inl state)⟩

end

/-- Whatever order the threads take turns in, whatever the actions do and whichever nodes
are broken: when the call has ended, by returning or by raising a fault, its failures
are those that it had before, one for each node that had failed when it took them, in
the order of addition, and those of the plan as a whole. A failed node that is missing
was being executed at that time, after a worker had failed. If no broken node was
executed, each failed node is there once. -/
theorem failures_reported_once (attempts : start.Attempts index call driven broken)
    (ran : start.play moves = some world) (found : world.calls[index]? = some final)
    (gone : final.stage = .gone fault) (planned : world.plans[call.plan]? = some last) :
    ∃ drain : Drain start index call.plan moves world,
      (∃ reported,
        final.failures = call.failures ++ (reported ++ drain.driven.plan.failures) ∧
          reported.map some = drain.driven.plan.failedNodes.map last.plan.failure?) ∧
      (∀ node ∈ drain.driven.plan.failedNodes, node ∈ last.plan.failedNodes) ∧
      (∀ node ∈ last.plan.failedNodes, (last.plan.failure? node).isSome = true ∧
        (node ∈ drain.driven.plan.failedNodes ∨
          drain.call.workerFailed = true ∧ drain.driven.plan.state? node = some .executing)) ∧
      ((∀ node, driven.plan.Has broken node → .selected index node ∉ world.history) →
        drain.driven.plan.failedNodes = last.plan.failedNodes) := by
  obtain ⟨drain, failures⟩ := attempts.drains ran found gone
  refine ⟨drain, ⟨_, failures, ?_⟩, ?_, ?_, ?_⟩
  · have caused (position : Nat) (entry : Entry)
        (present : drain.driven.plan.entries[position]? = some entry)
        (failed : entry.node.state = .failed) : entry.node.failure.isSome = true := by
      have fared := (drain.endures attempts).nodes position entry present
      simp only [Node.Fared, failed] at fared
      exact fared.2.2
    rw [Plan.nodeFailures_map caused]
    apply List.map_congr_left
    exact fun node failed => (drain.lasts attempts found planned failed).2.symm
  · exact fun node failed => (drain.lasts attempts found planned failed).1
  · intro node failed
    refine ⟨?_, drain.first attempts found planned failed⟩
    obtain ⟨entry, present, state⟩ := Plan.entry_of_state? (Plan.mem_failedNodes.mp failed)
    have fared := (attempts.endures ran found planned).nodes node entry present
    simp only [Node.Fared, state] at fared
    rw [Plan.failure?_eq present]
    exact fared.2.2
  · intro spared
    obtain ⟨known, planned_last, _, keeps⟩ := (attempts.fresh.play ran).2.plans _ driven attempts.planned
    cases Option.some.inj (planned.symm.trans planned_last)
    rw [Plan.failedNodes, Plan.failedNodes, drain.size attempts planned]
    apply List.filter_congr
    intro node _
    have alike : node ∈ drain.driven.plan.failedNodes ↔ node ∈ last.plan.failedNodes := by
      constructor
      · exact fun failed => (drain.lasts attempts found planned failed).1
      · intro failed
        refine (drain.first attempts found planned failed).resolve_right ?_
        rintro ⟨broke, _⟩
        obtain ⟨other, has, selected⟩ := drain.blames attempts found planned broke
        exact spared other (keeps.has.mp has) selected
    rw [Plan.mem_failedNodes, Plan.mem_failedNodes] at alike
    exact decide_eq_decide.mpr alike

private def loading : Plan :=
  ((Plan.empty "loading" 0 true).attach "index" [] []).attach "copy" [] []

private theorem loading_built : loading.Built := by
  have first : (Plan.empty "loading" 0 true).add "index" [] [] =
      .ok ((Plan.empty "loading" 0 true).attach "index" [] []) := rfl
  have second : ((Plan.empty "loading" 0 true).attach "index" [] []).add "copy" [] [] =
      .ok loading := rfl
  exact .add (.add (.empty "loading" 0 true) first) second

private def corrupting : Hooks :=
  { complete := fun _ node => if node.id = "index" then some (.runtime "index corrupted") else none }

private theorem corrupting_breaks : corrupting.Breaks (· = "index") := by
  refine ⟨⟨fun _ => rfl, fun _ => rfl, rfl, fun _ => rfl, fun _ => rfl⟩, fun _ => rfl,
    fun _ _ => rfl, fun _ node => ?_⟩
  by_cases broke : node.id = "index" <;> simp [corrupting, broke]

private def copier : Action := fun id => if id = "copy" then [.err (.execution "disk full")] else []

private def depot : World := solo 2 2 false loading corrupting copier

private def copied : Failure :=
  { Failure.execution "disk full" with details := [("node_id", "copy")] }

private def corrupted : Failure :=
  { Failure.ofFault .plan (some (.runtime "index corrupted")) with details := [("plan", "loading")] }

private def outcome (world : World) : Option (Option Fault × List Failure × List Nat × Option Failure) :=
  (world.calls[0]?).bind fun final => (world.plans[0]?).bind fun last =>
    match final.stage with
    | .gone fault => some (fault, final.failures, last.plan.failedNodes, last.plan.failure? 1)
    | _ => none

private theorem outcome_some {world : World} {fault : Option Fault} {failures : List Failure}
    {failed : List Nat} {failure : Option Failure}
    (shown : outcome world = some (fault, failures, failed, failure)) :
    ∃ final last, world.calls[0]? = some final ∧ world.plans[0]? = some last ∧
      final.stage = .gone fault ∧ final.failures = failures ∧ last.plan.failedNodes = failed ∧
      last.plan.failure? 1 = failure := by
  obtain ⟨final, found, shown⟩ := Option.bind_eq_some_iff.mp shown
  obtain ⟨last, planned, shown⟩ := Option.bind_eq_some_iff.mp shown
  refine ⟨final, last, found, planned, ?_⟩
  cases stage : final.stage with
  | gone fault =>
    simp only [stage, Option.some.injEq, Prod.mk.injEq] at shown
    obtain ⟨rfl, rfl, rfl, rfl⟩ := shown
    exact ⟨rfl, rfl, rfl, rfl⟩
  | arriving | launching | queueing | reporting | awaiting | aborting | joining =>
    simp [stage] at shown

private def timely : List (Bool × Move) :=
  roster [0, 0, 0, 0, 1, 1, 1, 1, 2, 2, 2, 2, 2, 1, 1, 0, 2, 2, 0]

theorem timely_failure_reported : ∃ world final last, depot.play timely = some world ∧
    world.calls[0]? = some final ∧ world.plans[0]? = some last ∧
    final.stage = .gone (some (.runtime "index corrupted")) ∧
    last.plan.failedNodes = [1] ∧ final.failures = [copied, corrupted] ∧
    ∃ drain : Drain depot 0 0 timely world, ∃ reported,
      final.failures = [] ++ (reported ++ drain.driven.plan.failures) ∧
        reported.map some = drain.driven.plan.failedNodes.map last.plan.failure? := by
  have runs : (depot.play timely).bind outcome =
      some (some (.runtime "index corrupted"), [copied, corrupted], [1], some copied) := by
    decide +kernel
  obtain ⟨world, ran, shown⟩ := Option.bind_eq_some_iff.mp runs
  obtain ⟨final, last, found, planned, gone, failures, failed, _⟩ := outcome_some shown
  have attempts : depot.Attempts 0 _ _ (· = "index") :=
    solo_attempts (by decide) loading_built corrupting_breaks
  obtain ⟨drain, ⟨reported, taken, same⟩, _⟩ :=
    failures_reported_once attempts ran found gone planned
  exact ⟨world, final, last, ran, found, planned, gone, failed, failures, drain, reported, taken, same⟩

/-- The copy goes on while the call takes the failures. -/
private def belated : List (Bool × Move) :=
  roster [0, 0, 0, 0, 1, 1, 1, 1, 2, 2, 2, 1, 1, 0, 2, 2, 2, 2, 0]

/-- The call has ended, and the failure of a failed node is not among its failures. -/
theorem belated_failure_lost : ∃ world final last, depot.play belated = some world ∧
    depot.Attempts 0
      { executor := { workers := 2, root := { tree := 0, place := 0 }, gate := 0 }
        plan := 0
        action := some copier } { plan := loading, hooks := corrupting } (· = "index") ∧
    world.calls[0]? = some final ∧ world.plans[0]? = some last ∧
    final.stage = .gone (some (.runtime "index corrupted")) ∧
    last.plan.failedNodes = [1] ∧ last.plan.failure? 1 = some copied ∧
    final.failures = [corrupted] ∧ copied ∉ final.failures := by
  have runs : (depot.play belated).bind outcome =
      some (some (.runtime "index corrupted"), [corrupted], [1], some copied) := by
    decide +kernel
  obtain ⟨world, ran, shown⟩ := Option.bind_eq_some_iff.mp runs
  obtain ⟨final, last, found, planned, gone, failures, failed, failure⟩ := outcome_some shown
  refine ⟨world, final, last, ran, solo_attempts (by decide) loading_built corrupting_breaks, found,
    planned, gone, failed, failure, failures, ?_⟩
  rw [failures]
  decide

end World
end Executor
end Foreman
