import Foreman.Proofs.FailedRuns
import Foreman.Proofs.PollingPasses

/-! Cancellation, which may be requested at any time. From then on one more node is
selected at most, whatever is being executed is completed, and each call that had to
skip a node reports so once. -/

namespace Foreman

namespace Plan

variable {plan before after : Plan}

def Notes (plan : Plan) : Prop :=
  plan.failures = if plan.cancelRecorded then [Failure.ofCancellation plan.name] else []

theorem Notes.cancel (notes : plan.Notes) : plan.cancel.2.Notes := by
  have same : plan.skipUnscheduled.2.books = plan.books := rfl
  have name : plan.skipUnscheduled.2.name = plan.name := rfl
  have recorded : plan.skipUnscheduled.2.cancelRecorded = plan.cancelRecorded := congrArg (·.1) same
  have failures : plan.skipUnscheduled.2.failures = plan.failures := congrArg (·.2.2) same
  simp only [Notes, Plan.cancel] at notes ⊢
  split
  next first =>
    rw [Bool.and_eq_true, recorded, Bool.not_eq_true'] at first
    simp only [failures, notes, first.2, name]
    rfl
  · rw [failures, recorded, name, notes]

theorem Notes.books (notes : before.Notes) (books : after.books = before.books)
    (name : after.name = before.name) : after.Notes := by
  have recorded : after.cancelRecorded = before.cancelRecorded := congrArg (·.1) books
  have failures : after.failures = before.failures := congrArg (·.2.2) books
  rw [Notes, failures, recorded, name]
  exact notes

theorem Built.unnoted (built : plan.Built) : plan.cancelRecorded = false := by
  induction built with
  | empty => rfl
  | add built added ih =>
    obtain ⟨_, deps, _, rfl⟩ := add_attached added
    exact ih

theorem Built.notes (built : plan.Built) : plan.Notes := by
  rw [Notes, built.unnoted, built.blank.1]
  rfl

theorem nodeFailures_congr (size : after.size = before.size)
    (same : ∀ (position : Nat) (old new : Entry), before.entries[position]? = some old →
      after.entries[position]? = some new →
      new.node.state = old.node.state ∧ new.node.failure = old.node.failure) :
    after.nodeFailures = before.nodeFailures := by
  let told (entry : Entry) := (entry.node.state, entry.node.failure)
  have alike : after.entries.map told = before.entries.map told := by
    apply List.ext_getElem
    · rw [List.length_map, List.length_map]
      exact size
    intro position inside inside'
    rw [List.length_map] at inside inside'
    obtain ⟨state, failure⟩ := same position _ _ (List.getElem?_eq_getElem inside')
      (List.getElem?_eq_getElem inside)
    simp only [List.getElem_map]
    exact Prod.ext state failure
  have taken (plan : Plan) : plan.nodeFailures = (plan.entries.map told).filterMap fun pair =>
      if pair.1 = .failed then pair.2 else none := by
    rw [List.filterMap_map]
    rfl
  rw [taken, taken, alike]

end Plan

namespace Executor

variable {index worker : Nat} {before later : Corner} {phase : Phase} {move : Move}
  {events history : List Happening} {earlier : List Failure}

/-- What a step notes in the books of a plan that completes all its nodes. Only the step
that takes the failures strikes them. -/
theorem Corner.Turns.books (turns : before.Turns index move events later)
    (endures : before.Endures (fun _ => False) earlier index history) :
    later.plan.books = before.plan.books ∨ later.plan.books = before.plan.cancel.2.books ∨
      later.call.stage.IsLate ∧ later.plan.cancelRecorded = before.plan.cancelRecorded := by
  cases turns with
  | elsewhere shares => exact Or.inl (congrArg Plan.books shares.plan)
  | worker there deed =>
    rcases deed.books endures.hooks with same | same | ⟨lease, node, fault, rfl, _⟩
    · exact Or.inl same
    · exact Or.inr (Or.inl same)
    · obtain ⟨_, _, _, _, impossible⟩ := endures.crew _ _ there
      exact impossible.elim
  | caller deed =>
    have reaches := endures.stage
    generalize before.call.stage = stage at deed reaches
    cases deed with
    | register | launch | giveUp | report | wait | depart => exact Or.inl rfl
    | @queue parked polled polls =>
      have same : polled.plan.populate.books = polled.plan.books := Plan.books_populate polled.plan
      rcases polls.books with unseen | seen
      · exact Or.inl (same.trans unseen)
      · exact Or.inr (Or.inl (same.trans seen))
    | collapse polls hooked =>
      obtain ⟨tally, fault, raised⟩ := hooked
      rw [endures.hooks.populate] at raised
      cases raised
    | collect =>
      refine Or.inr (Or.inr ⟨trivial, ?_⟩)
      simp only [Corner.withStage, Plan.collect]
      split <;> rfl
    | abort => exact reaches.elim

theorem Corner.Turns.recorded (turns : before.Turns index move events later)
    (endures : before.Endures (fun _ => False) earlier index history) :
    (before.plan.cancelRecorded = true → later.plan.cancelRecorded = true) ∧
      (before.plan.Stopped → later.plan.cancelRecorded = before.plan.cancelRecorded) := by
  rcases turns.books endures with same | same | ⟨_, same⟩
  · have same : later.plan.cancelRecorded = before.plan.cancelRecorded := congrArg (·.1) same
    exact ⟨same.trans, fun _ => same⟩
  · have same : later.plan.cancelRecorded = before.plan.cancel.2.cancelRecorded := congrArg (·.1) same
    refine ⟨fun recorded => ?_, fun stopped => same.trans stopped.cancel_recorded⟩
    rw [same, Plan.cancel_recorded, recorded, Bool.true_or]
  · exact ⟨same.trans, fun _ => same⟩

theorem Corner.Turns.notes (turns : before.Turns index move events later)
    (endures : before.Endures (fun _ => False) earlier index history) (valid : before.plan.Valid)
    (early : ¬ later.call.stage.IsLate) (notes : before.plan.Notes) : later.plan.Notes := by
  have name := (turns.kept valid).keeps.name
  rcases turns.books endures with same | same | ⟨late, _⟩
  · exact notes.books same name
  · exact notes.cancel.books same (name.trans (Plan.cancel_drifts _).keeps.name.symm)
  · exact absurd late early

namespace World

variable {start middle world : World} {moves rest : List (Bool × Move)} {call final : Call}
  {driven last : Driven} {place : Nat}

/-- In one of these steps a pass of the call that saw a request skipped a node. -/
def Cancels (start : World) (index place : Nat) (moves : List (Bool × Move)) : Prop :=
  ∃ earlier missed move later before after node state,
    moves = earlier ++ (missed, move) :: later ∧ start.play earlier = some before ∧
    before.step missed move = some after ∧ before.Heeds index missed move ∧
    before.state? place node = some state ∧ state.isUnscheduled = true ∧
    after.state? place node = some .skipped

/-- Calls that heed one token and meet at one gate, each on a plan of its own that was
built and completes all its nodes. -/
structure Joint (start : World) : Prop where
  fresh : start.Start
  calls : ∀ (index : Nat) (call : Call), start.calls[index]? = some call →
    call.executor.watches = true ∧ ∃ driven, start.Attempts index call driven fun _ => False

section

variable (attempts : start.Attempts index call driven fun _ => False)
  (ran : start.play moves = some world) (found : world.calls[index]? = some final)
include attempts ran found

theorem Attempts.unfailed : final.workerFailed = false := by
  obtain ⟨known, planned, _⟩ := (attempts.fresh.play ran).2.plans _ driven attempts.planned
  have endures := attempts.endures ran found planned
  cases failed : final.workerFailed with
  | false => rfl
  | true =>
    obtain ⟨_, _, ⟨_, _, impossible⟩, _⟩ := endures.failed failed
    exact impossible.elim

variable (planned : world.plans[call.plan]? = some last)
include planned

theorem Attempts.notes (early : ¬ final.stage.IsLate) : last.plan.Notes := by
  refine attempts.sees_on (fun corner => ¬ corner.call.stage.IsLate → corner.plan.Notes)
    (show start.play [] = some start from rfl) ran attempts.found attempts.planned found planned
    (fun _ => attempts.built.notes) ?_ early
  intro before other rival move events history later lawful endures turns notes early
  refine turns.notes endures lawful.valid early (notes fun late => ?_)
  exact early (turns.late late).1

omit found in
/-- If a cancellation was noted, a pass that saw a request skipped a node. -/
theorem Attempts.cancels (recorded : last.plan.cancelRecorded = true) :
    start.Cancels index call.plan moves := by
  obtain ⟨earlier, missed, move, later, before, after, rfl, reached, stepped, unnoted, noted⟩ :=
    play_change (fun world => ∃ driven, world.plans[call.plan]? = some driven ∧
      driven.plan.cancelRecorded = true) ran
      (fun ⟨other, present, noted⟩ => by
        cases Option.some.inj (attempts.planned.symm.trans present)
        rw [attempts.built.unnoted] at noted
        cases noted) ⟨last, planned, recorded⟩
  obtain ⟨active, next, known, follower, events, sight⟩ :=
    attempts.fresh.sight attempts.alone attempts.found reached stepped
  obtain ⟨other, present, noted⟩ := noted
  cases Option.some.inj (sight.planned_after.symm.trans present)
  have first : known.plan.cancelRecorded ≠ true := fun noted => unnoted ⟨known, sight.planned, noted⟩
  have endures := attempts.endures reached sight.found sight.planned
  have heeds := (sight.notes stepped endures.hooks).resolve_right fun same => first (same ▸ noted)
  obtain ⟨drifts, books, _⟩ := sight.heeds heeds stepped endures.hooks
  -- the pass noted a cancellation, so a node was left to be scheduled
  have free : known.plan.entries.any (·.isUnscheduled) = true := by
    have recorded := (congrArg (·.1) books).symm.trans noted
    simp only [Plan.books, Plan.cancel_recorded, Bool.or_eq_true] at recorded
    exact recorded.resolve_left first
  obtain ⟨entry, member, free⟩ := List.any_eq_true.mp free
  obtain ⟨node, found⟩ := List.getElem?_of_mem member
  refine ⟨earlier, missed, move, later, before, after, node, entry.node.state, rfl, reached,
    stepped, heeds, ?_, free, ?_⟩
  · rw [state?_eq sight.planned]
    exact Plan.state?_eq found
  · rw [state?_eq sight.planned_after]
    exact drifts.state? (Plan.cancel_skips found free) rfl

/-- If a pass that saw a request skipped a node, a cancellation was noted. -/
theorem Attempts.noted (cancels : start.Cancels index call.plan moves) :
    last.plan.cancelRecorded = true := by
  obtain ⟨earlier, missed, move, later, before, after, node, state, rfl, reached, stepped, heeds,
    waiting, free, _⟩ := cancels
  obtain ⟨active, next, known, follower, events, sight⟩ :=
    attempts.fresh.sight attempts.alone attempts.found reached stepped
  obtain ⟨_, books, _⟩ :=
    sight.heeds heeds stepped (attempts.endures reached sight.found sight.planned).hooks
  rw [state?_eq sight.planned] at waiting
  obtain ⟨entry, listed, rfl⟩ := Plan.entry_of_state? waiting
  have noted : follower.plan.cancelRecorded = true := by
    have recorded : follower.plan.cancelRecorded = known.plan.cancel.2.cancelRecorded :=
      congrArg (·.1) books
    have skips : known.plan.hasUnscheduled = true :=
      List.any_eq_true.mpr ⟨entry, List.mem_of_getElem? listed, free⟩
    rw [recorded, Plan.cancel_recorded, skips, Bool.or_true]
  refine attempts.sees_on (fun corner => corner.plan.cancelRecorded = true)
    (play_concat reached stepped) (play_rest reached stepped ran) sight.found_after
    sight.planned_after found planned noted ?_
  intro before other rival move events history later _ endures turns noted
  exact (turns.recorded endures).1 noted

end

/-- Nothing about nodes or cancellations is left to report after the failures were taken. -/
theorem Drain.closes (attempts : start.Attempts index call driven fun _ => False)
    (drain : Drain start index call.plan moves world) (found : world.calls[index]? = some final)
    (planned : world.plans[call.plan]? = some last) :
    last.plan.cancelRecorded = drain.driven.plan.cancelRecorded ∧
      last.plan.nodeFailures = drain.driven.plan.nodeFailures := by
  have unfailed := attempts.unfailed drain.reached drain.found
  have none := drain.done.resolve_left (by rw [unfailed]; exact Bool.false_ne_true)
  have valid := (attempts.lawful drain.reached drain.found drain.planned).valid
  have stopped := (valid.coherent.finished none).stopped
  constructor
  · refine (attempts.sees_on (fun corner => corner.plan.Stopped ∧
      corner.plan.cancelRecorded = drain.driven.plan.cancelRecorded) drain.reached drain.rest
      drain.found drain.planned found planned ⟨stopped, rfl⟩ ?_).2
    intro before other rival move events history later lawful endures turns ⟨stopped, same⟩
    exact ⟨turns.stopped lawful.valid lawful.busy stopped,
      ((turns.recorded endures).2 stopped).trans same⟩
  · apply Plan.nodeFailures_congr (drain.size attempts planned)
    intro position old new present again
    refine (drain.node attempts found planned present again).resolve_right fun ⟨failed, _⟩ => ?_
    rw [unfailed] at failed
    cases failed

/-- The call reports the failures of its nodes and, if it had to skip a node, a
cancellation. -/
theorem Attempts.reports (attempts : start.Attempts index call driven fun _ => False)
    (ran : start.play moves = some world) (found : world.calls[index]? = some final)
    (planned : world.plans[call.plan]? = some last) {fault : Option Fault}
    (gone : final.stage = .gone fault) :
    ∃ noted, final.failures = call.failures ++ (last.plan.nodeFailures ++ noted) ∧
      (start.Cancels index call.plan moves → noted = [Failure.ofCancellation driven.plan.name]) ∧
      (¬ start.Cancels index call.plan moves → noted = []) := by
  obtain ⟨drain, failures⟩ := attempts.drains ran found gone
  obtain ⟨recorded, nodes⟩ := drain.closes attempts found planned
  obtain ⟨known, present, _, keeps⟩ :=
    (attempts.fresh.play drain.reached).2.plans _ driven attempts.planned
  cases Option.some.inj (drain.planned.symm.trans present)
  have notes := attempts.notes drain.reached drain.found drain.planned drain.early
  rw [Plan.Notes, keeps.name, ← recorded] at notes
  refine ⟨drain.driven.plan.failures, ?_, fun cancels => ?_, fun spared => ?_⟩
  · rw [failures, nodes]
  · rw [notes, if_pos (attempts.noted ran found planned cancels)]
  · rw [notes, if_neg (mt (attempts.cancels ran planned) spared)]

/-- A node that is being executed at some time is completed by its worker, and fails if
and only if a failure was recorded. -/
theorem Attempts.ends {earlier : List (Bool × Move)} {node : Nat}
    (attempts : start.Attempts index call driven fun _ => False)
    (played : start.play earlier = some middle) (ran : middle.play rest = some world)
    (found : world.calls[index]? = some final) (planned : world.plans[call.plan]? = some last)
    {fault : Option Fault} (gone : final.stage = .gone fault)
    (executing : middle.state? call.plan node = some .executing) :
    (∃ worker, middle.Finishes index worker call.plan rest node) ∧
      last.plan.state? node =
        some (if (last.plan.failure? node).isSome then .failed else .succeeded) := by
  have whole := play_trans played ran
  obtain ⟨owned, follows⟩ := attempts.fresh.play played
  obtain ⟨active, found_first, _, place, _⟩ := follows.calls index call attempts.found
  obtain ⟨known, planned_first, _⟩ := follows.plans _ driven attempts.planned
  have endures := attempts.endures played found_first planned_first
  rw [state?_eq planned_first] at executing
  obtain ⟨entry, present, state⟩ := Plan.entry_of_state? executing
  constructor
  · have held : entry.node.held ≠ [] := fun free =>
      (endures.left node entry present state free).1.elim
    obtain ⟨other, worker, lease, phase, ⟨rival, known, same, there⟩, _, owns⟩ :=
      owned.kept call.plan node entry ((entryAt_eq planned_first node).trans present) held
    cases attempts.alone.follows follows other active rival found_first known (same.trans place.symm)
    have owner : middle.phase? index worker = some phase := by
      rw [phase?, known]
      exact there
    refine ⟨worker, attempts.finishes played ran found gone owner owns ?_⟩
    rintro ⟨_, _, impossible⟩
    exact impossible.elim
  · have selected := (endures.nodes node entry present).selected.mpr (Or.inl state)
    have selected := attempts.fresh.remembers attempts.alone played ran found selected
    have inside : node < last.plan.size := by
      obtain ⟨_, planned', _, keeps⟩ := (attempts.fresh.play whole).2.plans _ driven attempts.planned
      cases Option.some.inj (planned.symm.trans planned')
      obtain ⟨_, planned', _, keeps'⟩ := follows.plans _ driven attempts.planned
      cases Option.some.inj (planned_first.symm.trans planned')
      rw [keeps.size, ← keeps'.size]
      exact (List.getElem?_eq_some_iff.mp present).1
    obtain ⟨later, present⟩ : ∃ later, last.plan.entries[node]? = some later :=
      ⟨_, List.getElem?_eq_getElem inside⟩
    have fared := (attempts.endures whole found planned).nodes node later present
    rw [Plan.state?_eq present, Plan.failure?_eq present]
    rcases fared.selected.mp selected with executing | succeeded | failed
    · exact (attempts.abandons whole found planned gone present executing).1.elim
    · simp only [Node.Fared, succeeded] at fared
      rw [succeeded, fared.2.2]
      rfl
    · simp only [Node.Fared, failed] at fared
      rw [failed, fared.2.2, if_pos rfl]

/-! All the calls together. -/

section

variable {earlier : List (Bool × Move)} (joint : start.Joint)
include joint

theorem Joint.tame (ran : start.play moves = some world) (found : world.calls[index]? = some final)
    (planned : world.plans[final.plan]? = some last) :
    final.executor.watches = true ∧ last.hooks.Breaks fun _ => False := by
  obtain ⟨owned, follows⟩ := joint.fresh.play ran
  obtain ⟨call, present, executor, place, _⟩ := follows.origins index final found
  obtain ⟨watches, driven, attempts⟩ := joint.calls index call present
  obtain ⟨later, planned', hooks, _⟩ := follows.plans _ driven attempts.planned
  rw [place] at planned
  cases Option.some.inj (planned.symm.trans planned')
  exact ⟨executor ▸ watches, hooks ▸ attempts.hooks⟩

/-- While the flag is set one more node is selected at most, by a step that missed it. -/
theorem Joint.selections (played : start.play earlier = some middle)
    (ran : middle.play rest = some world) (canceled : middle.token.canceled = true) :
    world.selections = middle.selections ∧ (world.landed = true → middle.landed = true) ∨
      world.selections = middle.selections + 1 ∧ middle.landed = true ∧ world.landed = false := by
  refine (play_induction (fun world => (∃ moves, start.play moves = some world) ∧
    world.token.canceled = true ∧
    (world.selections = middle.selections ∧ (world.landed = true → middle.landed = true) ∨
      world.selections = middle.selections + 1 ∧ middle.landed = true ∧ world.landed = false)) ran
    ⟨⟨earlier, played⟩, canceled, Or.inl ⟨rfl, id⟩⟩ ?_).2.2
  intro before after missed move ⟨⟨moves, reached⟩, canceled, count⟩ stepped
  obtain ⟨owned, _⟩ := joint.fresh.play reached
  have onward := (step_turn owned.orderly stepped).follows owned.valid
  refine ⟨⟨_, play_concat reached stepped⟩, onward.canceled canceled, ?_⟩
  have step := step_selections owned (fun _ _ _ found planned => joint.tame reached found planned)
    canceled stepped
  simp only [Lands] at step
  rcases count with ⟨same, landed⟩ | ⟨more, landed, past⟩
  · rcases step with ⟨still, cleared | kept⟩ | ⟨next, _, first, cleared⟩
    · exact Or.inl ⟨still.trans same, fun now => by rw [cleared] at now; cases now⟩
    · exact Or.inl ⟨still.trans same, fun now => landed (kept ▸ now)⟩
    · exact Or.inr ⟨by omega, landed first, cleared⟩
  · rcases step with ⟨still, cleared | kept⟩ | ⟨_, _, first, _⟩
    · exact Or.inr ⟨still.trans more, landed, cleared⟩
    · exact Or.inr ⟨still.trans more, landed, kept.trans past⟩
    · rw [past] at first
      cases first

end

/-- Whenever cancellation is requested, and in whatever order the threads of all the calls
take turns: while the flag is set one more node is selected at most, and only by the pass
that was under way when it was set. Once a pass of a call has seen the flag, nothing is
selected in this call. When a call returns, each node that was being executed at some time
has been completed by its worker and has failed if and only if a failure was recorded, and
the call reports the failures of its nodes and, besides them, one cancellation if a pass
that saw the flag skipped a node, and none otherwise. -/
theorem cancellation_heeded {earlier : List (Bool × Move)} (joint : start.Joint)
    (played : start.play earlier = some middle) (ran : middle.play rest = some world) :
    (middle.token.canceled = true → world.selections ≤ middle.selections + 1 ∧
      (middle.landed = false → world.selections = middle.selections) ∧
      ∀ missed move after, middle.step missed move = some after →
        after.selections ≠ middle.selections → missed = true ∧ middle.landed = true) ∧
    ∀ index call final driven last, start.calls[index]? = some call →
      start.plans[call.plan]? = some driven → world.calls[index]? = some final →
      world.plans[call.plan]? = some last →
      (∀ missed move later, rest = (missed, move) :: later → middle.Heeds index missed move →
        ∀ node, world.history.count (.selected index node) =
          middle.history.count (.selected index node)) ∧
      ∀ fault, final.stage = .gone fault → fault = none ∧
        (∀ node, middle.state? call.plan node = some .executing →
          (∃ worker, middle.Finishes index worker call.plan rest node) ∧
            last.plan.state? node =
              some (if (last.plan.failure? node).isSome then .failed else .succeeded)) ∧
        ∃ noted, final.failures = call.failures ++ (last.plan.nodeFailures ++ noted) ∧
          (start.Cancels index call.plan (earlier ++ rest) →
            noted = [Failure.ofCancellation driven.plan.name]) ∧
          (¬ start.Cancels index call.plan (earlier ++ rest) → noted = []) ∧
          (Failure.ofCancellation driven.plan.name).Cancels driven.plan.name := by
  have whole := play_trans played ran
  constructor
  · intro canceled
    have count := joint.selections played ran canceled
    refine ⟨by omega, fun unlanded => ?_, ?_⟩
    · rcases count with ⟨same, _⟩ | ⟨_, landed, _⟩
      · exact same
      · rw [unlanded] at landed
        cases landed
    · intro missed move after stepped more
      rcases step_selections (joint.fresh.play played).1
        (fun _ _ _ found planned => joint.tame played found planned) canceled stepped with
        ⟨same, _⟩ | ⟨_, late, landed, _⟩
      · exact absurd same more
      · exact ⟨late, landed⟩
  · intro index call final driven last found planned found_last planned_last
    obtain ⟨_, known, attempts⟩ := joint.calls index call found
    cases Option.some.inj (planned.symm.trans attempts.planned)
    constructor
    · intro missed move later split heeds node
      subst split
      obtain ⟨after, stepped, onward⟩ := Option.bind_eq_some_iff.mp ran
      obtain ⟨_, _, before, after_plan, _, sight⟩ :=
        attempts.fresh.sight attempts.alone found played stepped
      have endures := attempts.endures played sight.found sight.planned
      obtain ⟨drifts, _, history⟩ := sight.heeds heeds stepped endures.hooks
      have stopped := (Plan.cancel_stopped before.plan).drift drifts
      rw [attempts.fresh.halts attempts.alone (play_concat played stepped) onward found
        sight.planned_after stopped node, history]
    · intro fault gone
      have endures := attempts.endures whole found_last planned_last
      have reaches := endures.stage
      have pool := endures.pool
      simp only [cornerOf, attempts.unfailed whole found_last] at reaches pool
      rw [gone] at reaches
      obtain ⟨noted, reported, told, spared⟩ := attempts.reports whole found_last planned_last gone
      refine ⟨?_, fun node executing => attempts.ends played ran found_last planned_last gone executing,
        noted, reported, told, spared, Failure.ofCancellation_cancels _⟩
      rw [reaches.1]
      cases raised : final.pool.failure with
      | none => rfl
      | some cause => simp [raised] at pool

private def harvest : Plan :=
  (((Plan.empty "harvest" 0 true).attach "mow" [] []).attach "rake" [] []).attach "stack" [] []

private theorem harvest_built : harvest.Built := by
  have first : (Plan.empty "harvest" 0 true).add "mow" [] [] =
      .ok ((Plan.empty "harvest" 0 true).attach "mow" [] []) := rfl
  have second : ((Plan.empty "harvest" 0 true).attach "mow" [] []).add "rake" [] [] =
      .ok (((Plan.empty "harvest" 0 true).attach "mow" [] []).attach "rake" [] []) := rfl
  have third : (((Plan.empty "harvest" 0 true).attach "mow" [] []).attach "rake" [] []).add
      "stack" [] [] = .ok harvest := rfl
  exact .add (.add (.add (.empty "harvest" 0 true) first) second) third

private theorem plain_breaks : Hooks.Breaks (fun _ => False) {} :=
  ⟨.default, fun _ => rfl, fun _ _ => rfl, fun _ _ => ⟨fun _ => id, fun _ => rfl⟩⟩

private def field : World := solo 2 2 true harvest {} fun _ => []

private theorem field_joint : field.Joint := by
  have attempts : field.Attempts 0 _ _ fun _ => False :=
    solo_attempts (by decide) harvest_built plain_breaks
  refine ⟨attempts.fresh, fun index call found => ?_⟩
  match index, found with
  | 0, rfl => exact ⟨rfl, _, attempts⟩

private def morning : List (Bool × Move) :=
  roster [0, 0, 0, 0, 1, 2, 1, 1] ++ [(false, .cancel), (false, .request 0)]

/-- The second worker had looked at the sky before. -/
private def rain : List (Bool × Move) :=
  (true, .worker 0 1) :: roster [2, 1, 1, 2, 2, 1, 1, 2, 2, 0, 0]

private def yield (world : World) : Option (Option Fault × List Failure × List Failure × List State) :=
  (world.calls[0]?).bind fun final => (world.plans[0]?).bind fun last =>
    match final.stage with
    | .gone fault =>
      some (fault, final.failures, last.plan.nodeFailures, last.plan.entries.map (·.node.state))
    | _ => none

theorem harvest_stopped_by_rain : ∃ middle world final last, field.play morning = some middle ∧
    middle.play rain = some world ∧ world.calls[0]? = some final ∧ world.plans[0]? = some last ∧
    middle.token.canceled = true ∧ middle.selections = 1 ∧ world.selections = 2 ∧
    world.selections ≤ middle.selections + 1 ∧ final.stage = .gone none ∧
    final.failures = [Failure.ofCancellation "harvest"] ∧
    last.plan.entries.map (·.node.state) = [.succeeded, .succeeded, .skipped] ∧
    (∃ worker, middle.Finishes 0 worker 0 rain 0) ∧ field.Cancels 0 0 (morning ++ rain) := by
  have before : (field.play morning).map (fun middle =>
      (middle.token.canceled, middle.selections, middle.state? 0 0)) =
        some (true, 1, some .executing) := by decide +kernel
  have after : ((field.play morning).bind (·.play rain)).bind (fun world =>
      (yield world).map (world.selections, ·)) =
        some (2, none, [Failure.ofCancellation "harvest"], [], [.succeeded, .succeeded, .skipped]) := by
    decide +kernel
  obtain ⟨middle, played, shown⟩ := Option.map_eq_some_iff.mp before
  rw [played, Option.bind_some] at after
  obtain ⟨world, ran, ended⟩ := Option.bind_eq_some_iff.mp after
  obtain ⟨told, ended, gathered⟩ := Option.map_eq_some_iff.mp ended
  obtain ⟨final, found, ended⟩ := Option.bind_eq_some_iff.mp ended
  obtain ⟨last, planned, ended⟩ := Option.bind_eq_some_iff.mp ended
  simp only [Prod.mk.injEq] at shown gathered
  obtain ⟨canceled, first, executing⟩ := shown
  obtain ⟨second, rfl⟩ := gathered
  cases stage : final.stage with
  | gone fault =>
    simp only [stage, Option.some.injEq, Prod.mk.injEq] at ended
    obtain ⟨rfl, failures, nodes, states⟩ := ended
    obtain ⟨count, calls⟩ := cancellation_heeded field_joint played ran
    obtain ⟨_, ends⟩ := calls 0 _ final { plan := harvest } last rfl rfl found planned
    obtain ⟨_, finished, noted, reported, _, spared, _⟩ := ends none stage
    refine ⟨middle, world, final, last, played, ran, found, planned, canceled, first, second,
      (count canceled).1, stage, failures, states, (finished 0 executing).1, ?_⟩
    -- otherwise the call would report failures of nodes only, and there are none
    apply Classical.byContradiction
    intro never
    rw [failures, nodes, spared never] at reported
    cases reported
  | arriving | launching | queueing | reporting | awaiting | aborting | joining =>
    simp [stage] at ended

end World
end Executor
end Foreman
