import Foreman.Proofs.Traces

/-! Every node is executed once and after its dependencies, and a call does not return
before the end of all its nodes. -/

namespace Foreman

/-! How a node comes to succeed. -/

namespace Plan

variable {before after : Plan} {position node : Nat} {entry : Entry}

theorem drift_succeeded (drifts : before.Drifts after)
    (done : after.state? node = some .succeeded) : before.state? node = some .succeeded := by
  obtain ⟨later, found, state⟩ := entry_of_state? done
  obtain ⟨earlier, present, _, drift⟩ := drifts.back found
  rcases drift.state with same | ⟨_, ready | skipped⟩
  · rw [state?_eq present, ← same, state]
  · simp [ready] at state
  · simp [skipped] at state

theorem ends_succeeded (ends : before.Ends position entry after)
    (done : after.state? node = some .succeeded) :
    node = position ∨ before.state? node = some .succeeded := by
  by_cases own : node = position
  · exact Or.inl own
  · obtain ⟨later, found, state⟩ := entry_of_state? done
    obtain ⟨earlier, present, _⟩ := ends.keeps.back found
    rcases (ends.others node earlier later own present found).state with same | ⟨_, ready | skipped⟩
    · exact Or.inr (by rw [state?_eq present, ← same, state])
    · simp [ready] at state
    · simp [skipped] at state

end Plan

namespace Executor

variable {index worker : Nat} {before later : Corner} {phase : Phase} {events : List Happening}
  {move : Move}

/-- A node succeeds in the step in which the worker that executed it completes it. -/
theorem WorkerDeed.succeeds {node : Nat} (deed : WorkerDeed index worker before phase events later)
    (valid : before.plan.Valid)
    (busy : ∀ node, phase.node? = some node → before.plan.state? node = some .executing)
    (open_ : before.plan.state? node ≠ some .succeeded)
    (done : later.plan.state? node = some .succeeded) : ∃ lease, phase = .completing lease node := by
  cases deed with
  | settle | start | request | drop | retire | stumble => exact absurd done open_
  | halt polls | park polls => exact absurd (Plan.drift_succeeded polls.drifts done) open_
  | breakdown polls =>
    have before := Plan.drift_succeeded (Plan.abort_drifts _ _) done
    exact absurd (Plan.drift_succeeded polls.drifts before) open_
  | @select lease parked polled own entry pass final polls unfailed table selects =>
    have states := (Plan.Replaces.hand (polls.valid valid).coherent lease selects.found
      selects.ready).state? node
    have done := states.symm.trans done
    split at done
    · cases done
    · exact absurd (Plan.drift_succeeded polls.drifts done) open_
  | refuse | instruct | finish =>
    exact absurd ((Plan.failAll_state? _ _ _ _).symm.trans done) open_
  | @complete lease own =>
    obtain ⟨entry, found, executing⟩ := Plan.entry_of_state? (busy own rfl)
    have ends := (Plan.complete_executing valid found executing before.locks).2
    rcases Plan.ends_succeeded ends done with rfl | before
    · exact ⟨lease, rfl⟩
    · exact absurd before open_
  | fail =>
    have before := Plan.drift_succeeded (Plan.abort_drifts _ _) done
    exact absurd ((Plan.disown_state? _ _ _).symm.trans before) open_

theorem Corner.Turns.succeeds {node : Nat} (turns : before.Turns index move events later)
    (valid : before.plan.Valid)
    (busy : ∀ (worker : Nat) (phase : Phase), before.call.workers[worker]? = some phase →
      ∀ node, phase.node? = some node → before.plan.state? node = some .executing)
    (open_ : before.plan.state? node ≠ some .succeeded)
    (done : later.plan.state? node = some .succeeded) :
    ∃ worker lease, move = .worker index worker ∧
      before.call.workers[worker]? = some (.completing lease node) := by
  cases turns with
  | worker there deed =>
    obtain ⟨lease, rfl⟩ := deed.succeeds valid (busy _ _ there) open_ done
    exact ⟨_, lease, rfl, there⟩
  | elsewhere shares => exact absurd (shares.plan ▸ done) open_
  | caller deed =>
    refine absurd ?_ open_
    generalize before.call.stage = stage at deed
    cases deed with
    | register | launch | giveUp | report | wait | depart => exact done
    | queue polls =>
      have populated := (polls.valid valid).populate.2.1
      exact Plan.drift_succeeded (polls.drifts.trans populated) done
    | collapse polls =>
      exact Plan.drift_succeeded polls.drifts (Plan.drift_succeeded (Plan.abort_drifts _ _) done)
    | collect => exact Plan.drift_succeeded (Plan.collect_drifts _) done
    | abort => exact Plan.drift_succeeded (Plan.abort_drifts _ _) done

/-- The action of a node starts in a step of the worker that was handed the node. -/
theorem Corner.Turns.starts {node : Nat} (turns : before.Turns index move events later)
    (started : .started index node ∈ events) :
    ∃ worker lease, move = .worker index worker ∧
      before.call.workers[worker]? = some (.chosen lease node) := by
  cases turns with
  | caller deed => cases started
  | elsewhere shares foreign => exact absurd rfl (foreign _ started)
  | @worker worker phase events later there deed =>
    cases deed with
    | settle | halt | breakdown | park | refuse | instruct | complete | drop | retire | stumble
    | fail => cases started
    | request _ _ _ foreign => cases foreign _ started
    | select | finish =>
      rw [List.mem_singleton] at started
      cases started
    | start =>
      rw [List.mem_singleton] at started
      cases started
      exact ⟨_, _, rfl, there⟩

namespace World

variable {start world : World} {moves : List (Bool × Move)} {call : Call} {driven : Driven}
  {action : Action} {place node : Nat}

def state? (world : World) (place node : Nat) : Option State :=
  world.plans[place]?.bind (·.plan.state? node)

theorem state?_eq (planned : world.plans[place]? = some driven) (node : Nat) :
    world.state? place node = driven.plan.state? node := by
  simp [state?, planned]

/-- What does not hold at the start but in the end comes to hold in some step. -/
theorem play_change (Now : World → Prop) (ran : start.play moves = some world)
    (first : ¬ Now start) (last : Now world) :
    ∃ earlier missed move later before after, moves = earlier ++ (missed, move) :: later ∧
      start.play earlier = some before ∧ before.step missed move = some after ∧
      ¬ Now before ∧ Now after := by
  induction moves generalizing start with
  | nil =>
    cases ran
    exact absurd last first
  | cons head rest ih =>
    obtain ⟨next, stepped, ran⟩ := Option.bind_eq_some_iff.mp ran
    by_cases now : Now next
    · exact ⟨[], head.1, head.2, rest, start, next, rfl, rfl, stepped, first, now⟩
    · obtain ⟨earlier, missed, move, later, before, after, rfl, played, found⟩ := ih ran now
      exact ⟨head :: earlier, missed, move, later, before, after, rfl,
        Option.bind_eq_some_iff.mpr ⟨next, stepped, played⟩, found⟩

/-- In one of these steps a worker of the call completes the node, and the node succeeds. -/
def Completes (start : World) (index place : Nat) (moves : List (Bool × Move)) (node : Nat) : Prop :=
  ∃ earlier missed worker later before after lease,
    moves = earlier ++ (missed, .worker index worker) :: later ∧
    start.play earlier = some before ∧ before.step missed (.worker index worker) = some after ∧
    before.phase? index worker = some (.completing lease node) ∧
    before.state? place node = some .executing ∧ after.state? place node = some .succeeded

private theorem Begins.turns (begins : start.Begins index call driven action)
    (played : start.play moves = some world) {missed : Bool} {after : World}
    (stepped : world.step missed move = some after) :
    ∃ before known later last events, world.calls[index]? = some before ∧
      before.plan = call.plan ∧ world.plans[call.plan]? = some known ∧
      after.plans[call.plan]? = some last ∧ driven.plan.Keeps known.plan ∧
      Owned.Lawful world before known ∧ after.history = world.history ++ events ∧
      (world.cornerOf before known).Turns index move events (after.cornerOf later last) := by
  obtain ⟨before, later, known, last, events, sight⟩ :=
    begins.fresh.sight begins.alone begins.found played stepped
  obtain ⟨known', planned, _, keeps⟩ := (begins.fresh.play played).2.plans _ driven begins.planned
  cases Option.some.inj (sight.planned.symm.trans planned)
  exact ⟨before, known, later, last, events, sight.found, sight.plan, planned, sight.planned_after,
    keeps, sight.lawful, sight.history, sight.turns⟩

theorem Begins.completes (begins : start.Begins index call driven action)
    (ran : start.play moves = some world) (done : world.state? call.plan node = some .succeeded) :
    start.Completes index call.plan moves node := by
  have unstarted : start.state? call.plan node ≠ some .succeeded := by
    rw [state?_eq begins.planned]
    intro succeeded
    obtain ⟨entry, found, state⟩ := Plan.entry_of_state? succeeded
    rw [(begins.built.valid.2.untouched node entry found).1] at state
    cases state
  obtain ⟨earlier, missed, move, later, before, after, rfl, played, stepped, open_, done⟩ :=
    play_change (fun world => world.state? call.plan node = some .succeeded) ran unstarted done
  obtain ⟨active, known, _, last, _, found, _, planned, planned', _, lawful, _, turns⟩ :=
    begins.turns played stepped
  rw [state?_eq planned] at open_
  rw [state?_eq planned'] at done
  obtain ⟨worker, lease, rfl, there⟩ := turns.succeeds lawful.valid lawful.busy open_ done
  refine ⟨earlier, missed, worker, later, before, after, lease, rfl, played, stepped, ?_, ?_, ?_⟩
  · rw [phase?, found]
    exact there
  · rw [state?_eq planned]
    exact lawful.busy worker _ there node rfl
  · rw [state?_eq planned', done]

/-- Whatever order the threads take turns in, whenever cancellation is requested and
whatever the actions do: the action of each node starts once at most; when it starts,
all that the node depends on has succeeded, each in a step in which a worker completed
it; and when the call returns, every node is terminal, those that succeeded or failed
are the ones whose actions started and ended, and the others were skipped. -/
theorem nodes_run_once_in_order (begins : start.Begins index call driven action)
    (ran : start.play moves = some world) :
    (∀ node, world.history.count (.started index node) ≤ 1) ∧
      (∀ earlier before missed move after node, start.play earlier = some before →
        before.step missed move = some after → .started index node ∉ before.history →
        .started index node ∈ after.history → ∀ dep ∈ driven.plan.depsOf node,
          before.state? call.plan dep = some .succeeded ∧
            start.Completes index call.plan earlier dep) ∧
      ∀ final fault, world.calls[index]? = some final → final.stage = .gone fault →
        fault = none ∧ ∀ node < driven.plan.size, ∃ state,
          world.state? call.plan node = some state ∧ state.isTerminal = true ∧
          (state = .succeeded ∨ state = .failed ↔ .started index node ∈ world.history) ∧
          (.started index node ∈ world.history → .ended index node ∈ world.history) ∧
          (state = .skipped ↔ .started index node ∉ world.history) := by
  obtain ⟨owned, follows⟩ := begins.fresh.play ran
  obtain ⟨last, planned, _, keeps⟩ := follows.plans _ driven begins.planned
  refine ⟨?_, ?_, ?_⟩
  · intro node
    obtain ⟨final, found, _, plan, _⟩ := follows.calls index call begins.found
    exact (begins.traced ran found (plan ▸ planned)).once node
  · intro earlier before missed move after node played stepped unstarted started dep member
    obtain ⟨active, known, _, _, events, _, _, planned, _, keeps, lawful, history, turns⟩ :=
      begins.turns played stepped
    rw [history] at started
    obtain ⟨worker, lease, rfl, there⟩ :=
      turns.starts ((List.mem_append.mp started).resolve_left unstarted)
    obtain ⟨entry, present, executing⟩ :=
      Plan.entry_of_state? (lawful.busy worker _ there node rfl)
    rw [← keeps.depsOf, Plan.depsOf_eq present] at member
    have succeeded := lawful.valid.coherent.served node entry present (by simp [executing])
      (by simp [executing]) dep member
    rw [← state?_eq planned] at succeeded
    exact ⟨succeeded, begins.completes played succeeded⟩
  · intro final fault found gone
    obtain ⟨earlier, present, _, plan, _⟩ := follows.origins index final found
    cases Option.some.inj (present.symm.trans begins.found)
    have traced := begins.traced ran found (plan ▸ planned)
    have returns := traced.stage
    simp only [cornerOf, gone] at returns
    refine ⟨returns.1, fun node inside => ?_⟩
    rw [← keeps.size] at inside
    have there := List.getElem?_eq_getElem inside
    have terminal := returns.2 node _ there
    have told := traced.nodes node _ (Plan.state?_eq there)
    refine ⟨_, (state?_eq planned node).trans (Plan.state?_eq there), terminal, ?_⟩
    cases state : last.plan.entries[node].node.state with
    | notReady | ready | executing => simp [state, State.isTerminal] at terminal
    | succeeded | failed =>
      rw [state] at told
      have started := List.count_pos_iff.mp (Nat.lt_of_lt_of_eq Nat.zero_lt_one told.1.symm)
      simp [started, told.2]
    | skipped =>
      rw [state] at told
      have unstarted := List.count_eq_zero.mp told
      simp [unstarted]

private def baking : Plan :=
  (((Plan.empty "baking" 0 true).attach "mix" [] []).attach "bake" [0] []).attach "serve" [1] []

private theorem baking_built : baking.Built := by
  have first : (Plan.empty "baking" 0 true).add "mix" [] [] =
      .ok ((Plan.empty "baking" 0 true).attach "mix" [] []) := rfl
  have second : ((Plan.empty "baking" 0 true).attach "mix" [] []).add "bake" ["mix"] [] =
      .ok (((Plan.empty "baking" 0 true).attach "mix" [] []).attach "bake" [0] []) := rfl
  have third : (((Plan.empty "baking" 0 true).attach "mix" [] []).attach "bake" [0] []).add "serve"
      ["bake"] [] = .ok baking := rfl
  exact .add (.add (.add (.empty "baking" 0 true) first) second) third

/-- The second node fails, so the third is skipped. -/
private def recipe : Action := fun id => if id = "bake" then [.err (.execution "burnt")] else []

private def kitchen : List (Plan × Action × Nat) := [(baking, recipe, 1)]

private def shift : List (Bool × Move) :=
  ([.caller 0, .caller 0, .worker 0 0, .worker 0 0, .caller 0] ++ List.replicate 10 (.worker 0 0) ++
    [.caller 0, .caller 0, .caller 0] : List Move).map (false, ·)

private def returned : Stage → Bool
  | .gone _ => true
  | _ => false

theorem kitchen_in_order : ∃ world final, (opening 1 kitchen).play shift = some world ∧
    world.calls[0]? = some final ∧ final.stage = .gone none ∧
    (∀ node, world.history.count (.started 0 node) ≤ 1) ∧
    world.state? 0 1 = some .failed ∧ .ended 0 1 ∈ world.history ∧
    .started 0 2 ∉ world.history := by
  have begins : (opening 1 kitchen).Begins 0 _ _ recipe :=
    opening_begins (by decide) (fun job member => List.mem_singleton.mp member ▸ baking_built)
      (show kitchen[0]? = some (baking, recipe, 1) from rfl)
  have runs : (((opening 1 kitchen).play shift).bind fun world => world.calls[0]?.map fun final =>
      (returned final.stage, world.state? 0 1, world.state? 0 2)) =
        some (true, some .failed, some .skipped) := by
    decide +kernel
  obtain ⟨world, ran, shown⟩ := Option.bind_eq_some_iff.mp runs
  obtain ⟨final, found, states⟩ := Option.map_eq_some_iff.mp shown
  simp only [Prod.mk.injEq] at states
  obtain ⟨gone, failed, skipped⟩ := states
  have stage : ∃ fault, final.stage = .gone fault := by
    cases stage : final.stage with
    | gone fault => exact ⟨fault, rfl⟩
    | arriving | launching | queueing | reporting | awaiting | aborting | joining =>
      simp [stage, returned] at gone
  obtain ⟨fault, stage⟩ := stage
  obtain ⟨once, _, ends⟩ := nodes_run_once_in_order begins ran
  obtain ⟨rfl, nodes⟩ := ends final fault found stage
  obtain ⟨_, known, _, started, ended, _⟩ := nodes 1 (by decide)
  obtain ⟨_, known', _, _, _, unstarted⟩ := nodes 2 (by decide)
  cases Option.some.inj (failed.symm.trans known)
  cases Option.some.inj (skipped.symm.trans known')
  exact ⟨world, final, ran, found, stage, once, failed, ended (started.mp (Or.inr rfl)),
    unstarted.mp rfl⟩

end World
end Executor
end Foreman
