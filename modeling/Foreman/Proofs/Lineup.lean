import Foreman.Proofs.ExecutionOrder
import Foreman.Proofs.Judgements
import Foreman.Proofs.KahnOrder
import Foreman.Proofs.QueueOrder

/-! How a plan keeps up with Kahn's algorithm while one node at a time is executed. Each
round of the algorithm is the time from the selection of a node to its completion. -/

namespace Foreman.Plan

open Executor

variable {plan before after : Plan} {position : Nat} {entry : Entry} {action : Action}
  {progress : Chart.Progress} {inHand : Option Nat} {lease : Lease}

/-- What the order of the nodes depends on: the graph, the outcome of each action and the
rule for failures. -/
def chart (plan : Plan) (action : Action) : Chart :=
  { size := plan.size
    deps := plan.depsOf
    fails := fun position => (plan.node? position).any fun node => (verdict (action node.id)).isSome
    goesOn := plan.continueOnFailure }

theorem Keeps.chart (keeps : before.Keeps after) (action : Action) :
    after.chart action = before.chart action := by
  have fails (position : Nat) :
      ((after.node? position).any fun node => (verdict (action node.id)).isSome) =
        (before.node? position).any fun node => (verdict (action node.id)).isSome := by
    cases found : after.entries[position]? with
    | some entry =>
      obtain ⟨earlier, present, links⟩ := keeps.back found
      simp [node?, found, present, links.id]
    | none => simp [node?, found, keeps.absent found]
  simp only [Plan.chart, keeps.size, keeps.rule, funext keeps.depsOf, funext fails]

def lineup (plan : Plan) : List Nat :=
  if plan.started then plan.queue
  else (List.range plan.size).filter fun position => plan.depsOf position = []

theorem Begun.lineup (begun : plan.Begun) : plan.lineup = plan.queue := by
  simp [Plan.lineup, begun.started]

theorem Over.lineup (finished : plan.Over) (valid : plan.Valid) :
    plan.lineup = [] := by
  rcases valid.phase with begun | idle
  · rw [begun.lineup]
    exact finished.stopped.queue valid.coherent
  · simp only [Plan.lineup, idle.started, Bool.false_eq_true, if_false, List.filter_eq_nil_iff]
    intro node inside
    have found := List.getElem?_eq_getElem (List.mem_range.mp inside)
    have terminal := finished node _ found
    simp [(idle.untouched node _ found).1, State.isTerminal] at terminal

/-- The plan is where the algorithm is, but for the node in hand, which has left the queue of
the plan and is still to be popped. -/
structure Abreast (plan : Plan) (progress : Chart.Progress) (inHand : Option Nat) : Prop where
  queue : progress.queue = inHand.toList ++ plan.lineup
  done : ∀ position, position ∈ progress.done ↔ plan.state? position = some .succeeded
  candid : plan.Blamed ∨ plan.Stopped ∧ inHand = none

theorem Idle.abreast (idle : plan.Idle) (action : Action) :
    plan.Abreast (plan.chart action).start none := by
  refine ⟨?_, ?_, Or.inl idle.open.blamed⟩
  · simp only [Plan.lineup, idle.started, Chart.start, chart]
    rfl
  · intro position
    simp only [Chart.start, List.not_mem_nil, false_iff]
    intro succeeded
    obtain ⟨entry, found, state⟩ := entry_of_state? succeeded
    simp [(idle.untouched position entry found).1] at state

theorem Abreast.still (abreast : before.Abreast progress inHand) (keeps : before.Keeps after)
    (started : after.started = before.started) (queue : after.queue = before.queue)
    (states : ∀ position, after.state? position = before.state? position) :
    after.Abreast progress inHand := by
  refine ⟨?_, ?_, ?_⟩
  · simp only [Plan.lineup, started, queue, keeps.size, keeps.depsOf]
    exact abreast.queue
  · simp only [states]
    exact abreast.done
  · refine abreast.candid.imp (fun blamed => ?_) (And.imp_left fun stopped => ?_)
    · exact blamed.later keeps (fun position _ _ found => (states position).trans found)
        fun position skipped => Or.inl ((states position).symm.trans skipped)
    · intro position entry found
      obtain ⟨earlier, present, state⟩ :=
        entry_of_state? ((states position).symm.trans (state?_eq found))
      rw [← state]
      exact stopped position earlier present

theorem Abreast.failAll (abreast : plan.Abreast progress inHand) (position : Nat)
    (failures : List Failure) : (plan.failAll position failures).Abreast progress inHand := by
  obtain ⟨queue, _, started⟩ := failAll_counts plan position failures
  exact abreast.still (failAll_keeps _ _ _) started queue (failAll_state? plan position failures)

theorem Abreast.collect (abreast : plan.Abreast progress inHand) :
    plan.collect.2.Abreast progress inHand := by
  apply abreast.still (collect_drifts plan).keeps
  all_goals
    unfold Plan.collect
    split <;> first | rfl | exact fun _ => rfl

theorem Drifts.succeeded_iff (drifts : before.Drifts after) :
    after.state? position = some .succeeded ↔ before.state? position = some .succeeded :=
  ⟨drift_succeeded drifts, drifts.terminal rfl⟩

theorem Abreast.populate (abreast : plan.Abreast progress inHand) (valid : plan.Valid) :
    plan.populate.Abreast progress inHand := by
  rcases valid.phase with begun | idle
  · rwa [populate_begun begun]
  · obtain ⟨_, drifts, begun⟩ := valid.populate
    refine ⟨?_, fun position => ?_, ?_⟩
    · rw [begun.lineup, queue_populate valid idle, abreast.queue]
      simp [Plan.lineup, idle.started]
    · rw [drifts.succeeded_iff]
      exact abreast.done position
    · exact abreast.candid.imp (·.populate valid) (And.imp_left (·.drift drifts))

/-- A ready node at the head of the queue comes to hand. -/
theorem Abreast.hand {rest : List Nat} (abreast : plan.Abreast progress none) (valid : plan.Valid)
    (found : plan.entries[position]? = some entry) (ready : entry.node.state = .ready)
    (head : plan.queue = position :: rest) :
    (plan.hand lease position entry).Abreast progress (some position) := by
  have begun := valid.begun found (by simp [ready])
  have replaces := Replaces.hand valid.coherent lease found ready
  have begun' := begun.keep replaces.keeps rfl rfl
  refine ⟨?_, fun other => ?_, Or.inl ?_⟩
  · rw [abreast.queue, begun.lineup, begun'.lineup, head, Plan.hand, head]
    simp
  · rw [abreast.done, replaces.state?]
    split
    next same => simp [same, state?_eq found, ready, handed, Node.enter]
    · rfl
  · rcases abreast.candid with blamed | ⟨stopped, _⟩
    · exact blamed.hand valid found ready
    · have settled := stopped position entry found
      simp [ready, State.isUnscheduled] at settled

/-! The completion of the node in hand, which is the next one that is popped. -/

private theorem Abreast.candour (abreast : plan.Abreast progress (some position)) : plan.Blamed :=
  abreast.candid.resolve_right fun stopped => by cases stopped.2

theorem Ends.succeeded_iff {other : Nat} (ends : plan.Ends position entry after)
    (found : plan.entries[position]? = some entry) (executing : entry.node.state = .executing) :
    after.state? other = some .succeeded ↔
      (other = position ∧ ¬ entry.node.failure.isSome) ∨ plan.state? other = some .succeeded := by
  by_cases own : other = position
  · subst own
    rw [ends.state?, state?_eq found, executing]
    split <;> simp_all
  · simp only [own, false_and, false_or]
    refine ⟨fun done => (ends_succeeded ends done).resolve_left own, fun done => ?_⟩
    obtain ⟨old, present, state⟩ := entry_of_state? done
    obtain ⟨new, again, _⟩ := ends.keeps.entry other old present
    have settled : old.node.state.isUnscheduled = false := by simp [state, State.isUnscheduled]
    rw [state?_eq again, (ends.others other old new own present again).settled settled, state]

section

variable (abreast : plan.Abreast progress (some position)) (valid : plan.Valid)
  (found : plan.entries[position]? = some entry) (executing : entry.node.state = .executing)
include abreast valid found executing

private theorem Abreast.next : progress.queue = position :: plan.queue := by
  have begun := valid.begun found (by simp [executing])
  rw [abreast.queue, begun.lineup]
  rfl

private theorem Abreast.succeed (unfailed : ¬ entry.node.failure.isSome) (locks : Locks) :
    (plan.complete position locks).1.Abreast
      { queue := plan.queue ++ (plan.chart action).released position (position :: progress.done)
        done := position :: progress.done
        popped := progress.popped ++ [position] } none := by
  obtain ⟨valid', ends⟩ := complete_executing valid found executing locks
  have blamed := abreast.candour
  refine ⟨?_, fun other => ?_, Or.inl (blamed.succeed valid found executing unfailed locks)⟩
  · rw [(ends.begun valid').lineup, queue_succeed valid blamed found executing unfailed]
    simp [Chart.released, chart, abreast.done]
  · rw [List.mem_cons, abreast.done, ends.succeeded_iff found executing]
    simp [unfailed]

private theorem Abreast.fail (failed : entry.node.failure.isSome) (locks : Locks) :
    (plan.complete position locks).1.Abreast
      { progress with
        queue := if plan.continueOnFailure then plan.queue else []
        popped := progress.popped ++ [position] } none := by
  obtain ⟨valid', ends⟩ := complete_executing valid found executing locks
  have blamed := abreast.candour
  refine ⟨?_, fun other => ?_, ?_⟩
  · rw [(ends.begun valid').lineup, queue_fail valid found executing failed]
    rfl
  · rw [abreast.done, ends.succeeded_iff found executing]
    simp [failed]
  · by_cases rule : plan.continueOnFailure
    · exact Or.inl (blamed.complete valid rule found executing locks)
    · refine Or.inr ⟨?_, rfl⟩
      rw [complete_closes found executing, if_pos failed, if_neg rule]
      exact skipUnscheduled_stopped _

theorem Abreast.complete (judged : entry.node.failure = judgement action entry.node.id)
    (locks : Locks) :
    (plan.complete position locks).1.Abreast ((plan.chart action).pop progress) none := by
  have next := abreast.next valid found executing
  have fails : (plan.chart action).fails position = entry.node.failure.isSome := by
    simp [chart, node?_eq found, judged, judgement]
  simp only [Chart.pop, next, fails]
  split
  next failed => exact abreast.fail valid found executing failed locks
  next unfailed => exact abreast.succeed valid found executing unfailed locks

end

end Foreman.Plan
