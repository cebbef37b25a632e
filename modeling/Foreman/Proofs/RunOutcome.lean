import Mathlib.Data.List.Forall2
import Foreman.Proofs.ExecutionOrder
import Foreman.Proofs.Judgements
import Foreman.Proofs.PlanFailures

/-! The outcome of a run without cancellation. The states in which the nodes end solve
a recursion along the dependencies that knows nothing of threads, and have to, since
the recursion has one solution. -/

namespace Foreman

open Executor

namespace Plan

variable {plan last : Plan} {action : Action} {outcome other : Nat → State}

/-- A node is skipped if something that it depends on does not succeed, and otherwise
its action decides about it. -/
structure Solves (action : Action) (plan : Plan) (outcome : Nat → State) : Prop where
  skipped : ∀ position < plan.size,
    outcome position = .skipped ↔ ∃ dep ∈ plan.depsOf position, outcome dep ≠ .succeeded
  decided : ∀ position node, plan.node? position = some node → outcome position ≠ .skipped →
    (outcome position = .failed ↔ (judgement action node.id).isSome) ∧
      (outcome position = .succeeded ↔ judgement action node.id = none)

/-- What the actions of the failed nodes leave, in the order of addition. -/
def verdicts (action : Action) (plan : Plan) (outcome : Nat → State) : List (Option Failure) :=
  ((List.range plan.size).filter fun position => outcome position = .failed).map fun position =>
    (plan.node? position).bind fun node => judgement action node.id

/-- The action of this node leaves a failure, and this is what becomes of it: it has the
id of the node among its details. -/
def Charges (action : Action) (plan : Plan) (position : Nat) (failure : Failure) : Prop :=
  ∃ node given, plan.node? position = some node ∧ verdict (action node.id) = some given ∧
    given.Detailed "node_id" node.id failure

theorem Solves.unique (graph : plan.Graph) (left : plan.Solves action outcome)
    (right : plan.Solves action other) (position : Nat) :
    position < plan.size → outcome position = other position := by
  induction position using Nat.strongRecOn with
  | ind position earlier =>
    intro inside
    have deps : (∃ dep ∈ plan.depsOf position, outcome dep ≠ .succeeded) ↔
        ∃ dep ∈ plan.depsOf position, other dep ≠ .succeeded := by
      have same (dep : Nat) (member : dep ∈ plan.depsOf position) : outcome dep = other dep :=
        earlier dep (graph.earlier position dep member) (graph.dep_inside member)
      constructor
      · intro blocked
        obtain ⟨dep, member, open_⟩ := blocked
        exact ⟨dep, member, same dep member ▸ open_⟩
      · intro blocked
        obtain ⟨dep, member, open_⟩ := blocked
        exact ⟨dep, member, (same dep member).symm ▸ open_⟩
    have skipped : outcome position = .skipped ↔ other position = .skipped :=
      (left.skipped position inside).trans (deps.trans (right.skipped position inside).symm)
    by_cases here : outcome position = .skipped
    · rw [here, skipped.mp here]
    · have known := node?_eq (List.getElem?_eq_getElem inside)
      have judged := left.decided position _ known here
      have judged' := right.decided position _ known (mt skipped.mpr here)
      cases verdict : judgement action plan.entries[position].node.id with
      | none => rw [judged.2.mpr verdict, judged'.2.mpr verdict]
      | some failure =>
        have failed : (judgement action plan.entries[position].node.id).isSome := by simp [verdict]
        rw [judged.1.mpr failed, judged'.1.mpr failed]

def ending (plan : Plan) (position : Nat) : State := (plan.state? position).getD .notReady

theorem ending_eq {entry : Entry} {position : Nat} (found : plan.entries[position]? = some entry) :
    plan.ending position = entry.node.state := by
  rw [ending, state?_eq found, Option.getD_some]

/-- When all nodes are terminal and judged, their states solve the recursion. -/
theorem Over.solves (finished : last.Over) (keeps : plan.Keeps last) (valid : last.Valid)
    (judged : last.Judged action) (blamed : last.Blamed) : plan.Solves action last.ending := by
  constructor
  · intro position inside
    rw [← keeps.size] at inside
    have found := List.getElem?_eq_getElem inside
    have terminal := finished position _ found
    rw [ending_eq found, ← keeps.depsOf]
    constructor
    · intro skipped
      obtain ⟨dep, member, bad⟩ := blamed position ((state?_eq found).trans (congrArg some skipped))
      refine ⟨dep, member, ?_⟩
      rcases bad with failed | skipped
      · simp [ending, failed]
      · simp [ending, skipped]
    · intro blocked
      obtain ⟨dep, member, open_⟩ := blocked
      apply Classical.byContradiction
      intro unskipped
      have moved : last.entries[position].node.state ≠ .notReady := by
        intro waiting
        simp [waiting, State.isTerminal] at terminal
      rw [depsOf_eq found] at member
      have served := valid.coherent.served position _ found moved unskipped dep member
      exact open_ (by rw [ending, served]; rfl)
  · intro position node known unskipped
    obtain ⟨entry, present, rfl⟩ := entry_of_node? known
    obtain ⟨later, found, links⟩ := keeps.entry position entry present
    have terminal := finished position later found
    have fits := judged position later found
    rw [ending_eq found] at unskipped ⊢
    rw [← links.id]
    simp only [Node.Judged] at fits
    cases state : later.node.state with
    | notReady | ready | executing => simp [state, State.isTerminal] at terminal
    | skipped => exact absurd state unskipped
    | succeeded =>
      simp only [state] at fits
      simp [fits.2]
    | failed =>
      simp only [state] at fits
      rw [← fits.2]
      simp [Option.ne_none_iff_isSome.mpr fits.1, fits.1]

theorem failedNodes_eq (keeps : plan.Keeps last) : last.failedNodes =
    (List.range plan.size).filter fun position => last.ending position = .failed := by
  rw [failedNodes, ← keeps.size]
  apply List.filter_congr
  intro position member
  have found := List.getElem?_eq_getElem (List.mem_range.mp member)
  simp [state?_eq found, ending_eq found]

/-- The failures of the nodes are what their actions left. -/
theorem nodeFailures_eq (keeps : plan.Keeps last) (judged : last.Judged action) :
    last.nodeFailures.map some = plan.verdicts action last.ending := by
  have failed {position : Nat} {entry : Entry} (found : last.entries[position]? = some entry)
      (state : entry.node.state = .failed) :
      entry.node.failure.isSome = true ∧ entry.node.failure = judgement action entry.node.id := by
    have judged := judged position entry found
    simp only [Node.Judged, state] at judged
    exact judged
  have caused : last.Caused := fun _ _ found state => (failed found state).1
  rw [nodeFailures_map caused, verdicts, ← failedNodes_eq keeps]
  apply List.map_congr_left
  intro position member
  obtain ⟨entry, found, state⟩ := entry_of_state? (mem_failedNodes.mp member)
  obtain ⟨earlier, present, links⟩ := keeps.back found
  rw [failure?_eq found, (failed found state).2, node?_eq present, Option.bind_some, links.id]

theorem nodeFailures_charged (keeps : plan.Keeps last) (judged : last.Judged action) :
    List.Forall₂ (plan.Charges action) last.failedNodes last.nodeFailures := by
  have paired := (nodeFailures_eq keeps judged).symm
  rw [verdicts, ← failedNodes_eq keeps, ← List.forall₂_eq_eq_eq, List.forall₂_map_left_iff,
    List.forall₂_map_right_iff] at paired
  apply paired.imp
  intro position failure left
  obtain ⟨node, known, left⟩ := Option.bind_eq_some_iff.mp left
  obtain ⟨given, verdict, rfl⟩ := Option.map_eq_some_iff.mp left
  exact ⟨node, given, known, verdict, given.withDetail_detailed "node_id" node.id⟩

end Plan

namespace Executor.World

variable {plan : Plan} {action : Action}

/-- A call on a plan that was run to its end, in any order of steps and next to any
other calls, while nobody asked for cancellation. -/
structure Completed (plan : Plan) (action : Action) where
  start : World
  index : Nat
  call : Call
  driven : Driven
  moves : List (Bool × Move)
  world : World
  final : Call
  last : Driven
  begins : start.Begins index call driven action
  same : driven.plan = plan
  ran : start.play moves = some world
  uncanceled : world.token.canceled = false
  found : world.calls[index]? = some final
  planned : world.plans[final.plan]? = some last
  returned : ∃ fault, final.stage = .gone fault

private theorem Completed.settled (run : Completed plan action)
    (rule : plan.continueOnFailure = true) :
    plan.Keeps run.last.plan ∧ run.last.plan.Valid ∧ run.last.plan.Over ∧
      run.last.plan.Judged action ∧ run.last.plan.Blamed ∧
      run.final.failures = run.call.failures ++ run.last.plan.nodeFailures := by
  obtain ⟨owned, follows⟩ := run.begins.fresh.play run.ran
  obtain ⟨last, planned, _, keeps⟩ := follows.plans _ _ run.begins.planned
  obtain ⟨call, found, _, place, _⟩ := follows.origins _ _ run.found
  cases Option.some.inj (run.begins.found.symm.trans found)
  have known := run.planned
  rw [place] at known
  cases Option.some.inj (known.symm.trans planned)
  obtain ⟨fault, gone⟩ := run.returned
  have returns := (run.begins.traced run.ran run.found run.planned).stage
  have same := run.same
  have continues : run.driven.plan.continueOnFailure = true := by rw [same]; exact rule
  have judged := run.begins.judged continues run.ran run.found run.planned run.uncanceled
  have reports := judged.stage
  simp only [cornerOf, gone] at returns reports
  rw [same] at keeps
  exact ⟨keeps, owned.valid _ _ run.planned, returns.2, judged.nodes, judged.blamed, reports⟩

/-- Whatever the number of workers, the budget and the order of steps: in the end the
states of the nodes solve the recursion along their dependencies, which has no other
solution, and the failures of the call are those that it had before and one for each
failed node, which is what the node's action leaves with the id of the node among its
details, in the order of addition. So any two runs end alike. -/
theorem outcome_without_schedule (run other : Completed plan action)
    (rule : plan.continueOnFailure = true) :
    plan.Solves action run.last.plan.ending ∧
      (∀ outcome, plan.Solves action outcome → ∀ position < plan.size,
        run.last.plan.state? position = some (outcome position)) ∧
      (∃ reported, run.final.failures = run.call.failures ++ reported ∧
        reported.map some = plan.verdicts action run.last.plan.ending ∧
        List.Forall₂ (plan.Charges action) run.last.plan.failedNodes reported) ∧
      (∀ position, other.last.plan.state? position = run.last.plan.state? position) ∧
      (other.call.failures = run.call.failures → other.final.failures = run.final.failures) := by
  obtain ⟨keeps, valid, finished, judged, blamed, failures⟩ := run.settled rule
  obtain ⟨keeps', valid', finished', judged', blamed', failures'⟩ := other.settled rule
  have solves := finished.solves keeps valid judged blamed
  have solves' := finished'.solves keeps' valid' judged' blamed'
  have graph : plan.Graph := by
    rw [← run.same]
    exact run.begins.built.valid.1.coherent.graph
  have known {last : Plan} (keeps : plan.Keeps last) {position : Nat} (inside : position < plan.size) :
      last.state? position = some (last.ending position) := by
    rw [← keeps.size] at inside
    have found := List.getElem?_eq_getElem inside
    rw [Plan.state?_eq found, Plan.ending_eq found]
  have reported := Plan.nodeFailures_eq keeps judged
  have alike : ∀ position < plan.size, run.last.plan.ending position = other.last.plan.ending position :=
    fun position => solves.unique graph solves' position
  refine ⟨solves, ?_, ⟨_, failures, reported, Plan.nodeFailures_charged keeps judged⟩, ?_, ?_⟩
  · intro outcome recursion position inside
    rw [known keeps inside, solves.unique graph recursion position inside]
  · intro position
    by_cases inside : position < plan.size
    · rw [known keeps inside, known keeps' inside, alike position inside]
    · have beyond {last : Plan} (keeps : plan.Keeps last) : last.state? position = none := by
        rw [← keeps.size] at inside
        have absent : last.entries[position]? = none :=
          List.getElem?_eq_none (Nat.le_of_not_lt inside)
        simp [Plan.state?, Plan.node?, absent]
      rw [beyond keeps, beyond keeps']
  · intro same
    have equal : other.last.plan.nodeFailures.map some = run.last.plan.nodeFailures.map some := by
      rw [reported, Plan.nodeFailures_eq keeps' judged', Plan.verdicts, Plan.verdicts]
      congr 1
      apply List.filter_congr
      intro position member
      rw [alike position (List.mem_range.mp member)]
    rw [failures, failures', same, (List.map_inj_right fun _ _ => Option.some.inj).mp equal]

private def brewing : Plan :=
  (((Plan.empty "brewing" 0 true).attach "boil" [] []).attach "grind" [] []).attach "pour" [0, 1] []

private theorem brewing_built : brewing.Built := by
  have first : (Plan.empty "brewing" 0 true).add "boil" [] [] =
      .ok ((Plan.empty "brewing" 0 true).attach "boil" [] []) := rfl
  have second : ((Plan.empty "brewing" 0 true).attach "boil" [] []).add "grind" [] [] =
      .ok (((Plan.empty "brewing" 0 true).attach "boil" [] []).attach "grind" [] []) := rfl
  have third : (((Plan.empty "brewing" 0 true).attach "boil" [] []).attach "grind" [] []).add "pour"
      ["boil", "grind"] [] = .ok brewing := rfl
  exact .add (.add (.add (.empty "brewing" 0 true) first) second) third

private def grinder : Action := fun id => if id = "grind" then [.err (.execution "jammed")] else []

private def sequence (order : List Nat) : List (Bool × Move) :=
  order.map fun
    | 0 => (false, .caller 0)
    | worker + 1 => (false, .worker 0 worker)

private def isReturned : Stage → Bool
  | .gone _ => true
  | _ => false

private def report (world : World) : Option (Bool × Bool × Option State) :=
  (world.calls[0]?).bind fun final => (world.plans[final.plan]?).map fun last =>
    (isReturned final.stage, world.token.canceled, last.plan.state? 1)

private theorem brewed {budget workers : Nat} (positive : 0 < budget) (order : List Nat)
    (ends : ((opening budget [(brewing, grinder, workers)]).play (sequence order)).bind report =
      some (true, false, some .failed)) :
    ∃ run : Completed brewing grinder, run.start = opening budget [(brewing, grinder, workers)] ∧
      run.call.failures = [] ∧ run.last.plan.state? 1 = some .failed := by
  obtain ⟨world, ran, shown⟩ := Option.bind_eq_some_iff.mp ends
  obtain ⟨final, found, shown⟩ := Option.bind_eq_some_iff.mp shown
  obtain ⟨last, planned, shown⟩ := Option.map_eq_some_iff.mp shown
  simp only [Prod.mk.injEq] at shown
  obtain ⟨gone, uncanceled, failed⟩ := shown
  have returned : ∃ fault, final.stage = .gone fault := by
    cases stage : final.stage with
    | gone fault => exact ⟨fault, rfl⟩
    | arriving | launching | queueing | reporting | awaiting | aborting | joining =>
      simp [stage, isReturned] at gone
  have begins : (opening budget [(brewing, grinder, workers)]).Begins 0 _ _ grinder :=
    opening_begins positive (fun job member => List.mem_singleton.mp member ▸ brewing_built)
      (show [(brewing, grinder, workers)][0]? = some (brewing, grinder, workers) from rfl)
  exact ⟨⟨_, 0, _, _, _, world, final, last, begins, rfl, ran, uncanceled, found, planned,
    returned⟩, rfl, rfl, failed⟩

theorem brewing_ends_alike : ∃ run other : Completed brewing grinder,
    run.start = opening 1 [(brewing, grinder, 1)] ∧
      other.start = opening 2 [(brewing, grinder, 2)] ∧
      run.last.plan.state? 1 = some .failed ∧
      (∀ position, other.last.plan.state? position = run.last.plan.state? position) ∧
      other.final.failures = run.final.failures := by
  obtain ⟨run, first, empty, failed⟩ := brewed (by decide)
    [0, 0, 1, 0, 1, 0, 1, 0, 1, 1, 0, 1, 1, 1, 1, 0, 1, 1, 0]
    (show ((opening 1 [(brewing, grinder, 1)]).play _).bind report = _ by decide +kernel)
  obtain ⟨other, second, empty', -⟩ := brewed (by decide)
    [0, 0, 1, 2, 0, 1, 2, 0, 1, 2, 0, 1, 2, 1, 0, 2, 1, 0, 2, 1, 2, 0]
    (show ((opening 2 [(brewing, grinder, 2)]).play _).bind report = _ by decide +kernel)
  obtain ⟨_, _, _, states, failures⟩ := outcome_without_schedule run other rfl
  exact ⟨run, other, first, second, failed, states, failures (empty'.trans empty.symm)⟩

end Executor.World
end Foreman
