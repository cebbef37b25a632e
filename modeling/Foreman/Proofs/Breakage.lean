import Foreman.Proofs.Judgements
import Foreman.Proofs.NodeFates

/-! Calls on plans that raise faults instead of completing some of their nodes. A worker
that meets such a fault fails the run and leaves its node behind. All else goes its way:
whoever executes another node completes it, and the failures are handed out once. -/

namespace Foreman

/-- The plan raises a fault instead of completing a broken node, and otherwise keeps
its rules. -/
structure Hooks.Breaks (broken : String → Prop) (hooks : Hooks) : Prop extends
    Hooks.Throwing hooks where
  populate : ∀ tally, hooks.populate tally = none
  select : ∀ tally plan, hooks.select tally plan = none
  complete : ∀ tally node, hooks.complete tally node = none ↔ ¬ broken node.id

namespace Plan

variable {plan before after : Plan} {position : Nat} {broken : String → Prop}

def Has (plan : Plan) (broken : String → Prop) (position : Nat) : Prop :=
  ∃ entry, plan.entries[position]? = some entry ∧ broken entry.node.id

theorem Keeps.has (keeps : before.Keeps after) :
    after.Has broken position ↔ before.Has broken position := by
  constructor
  · intro has
    obtain ⟨entry, found, breaks⟩ := has
    obtain ⟨earlier, present, links⟩ := keeps.back found
    exact ⟨earlier, present, links.id ▸ breaks⟩
  · intro has
    obtain ⟨entry, found, breaks⟩ := has
    obtain ⟨later, present, links⟩ := keeps.entry position entry found
    exact ⟨later, present, links.id.symm ▸ breaks⟩

end Plan

open Executor (Happening)

/-- What the history of a call has of a node, and what the node ended with. -/
def Node.Fared (broken : String → Prop) (index : Nat) (history : List Happening) (position : Nat)
    (node : Node) : Prop :=
  match node.state with
  | .notReady | .ready | .skipped => .selected index position ∉ history
  | .executing => .selected index position ∈ history
  | .succeeded => .selected index position ∈ history ∧ ¬ broken node.id ∧ node.failure = none
  | .failed =>
    .selected index position ∈ history ∧ ¬ broken node.id ∧ node.failure.isSome = true

namespace Node.Fared

variable {broken : String → Prop} {index position : Nat} {history events : List Happening}
  {node first last : Node}

theorem drift (fared : first.Fared broken index history position) (drift : first.Drifts last)
    (id : last.id = first.id) (unselected : .selected index position ∉ events) :
    last.Fared broken index (history ++ events) position := by
  have same : .selected index position ∈ history ++ events ↔ .selected index position ∈ history := by
    simp [unselected]
  rcases drift.state with state | ⟨free, moved⟩
  · simp only [Node.Fared, state, same, id, drift.failure]
    exact fared
  · have untold : .selected index position ∉ history := by
      simp only [Node.Fared] at fared
      cases state : first.state with
      | notReady | ready => simpa only [state] using fared
      | executing | succeeded | failed | skipped => simp [state, State.isUnscheduled] at free
    rcases moved with ready | skipped
    · simp only [Node.Fared, ready, same]
      exact untold
    · simp only [Node.Fared, skipped, same]
      exact untold

theorem selected (fared : node.Fared broken index history position) :
    .selected index position ∈ history ↔
      node.state = .executing ∨ node.state = .succeeded ∨ node.state = .failed := by
  simp only [Node.Fared] at fared
  cases state : node.state with
  | notReady | ready | skipped =>
    simp only [state] at fared
    simp [fared]
  | executing =>
    simp only [state] at fared
    simp [fared]
  | succeeded | failed =>
    simp only [state] at fared
    simp [fared.1]

end Node.Fared

namespace Executor

variable {index worker : Nat} {before polled later : Corner} {phase : Phase} {move : Move}
  {events history : List Happening} {broken : String → Prop} {earlier : List Failure}

/-! What the workers do. -/

def Phase.Blames (broken : String → Prop) (plan : Plan) : Phase → Prop
  | .failing _ node _ => ∃ position, node = some position ∧ plan.Has broken position
  | .hired | .choosing .. | .chosen .. | .acting .. | .completing .. | .retiring _ | .gone _ => True

theorem Phase.Blames.keep {plan after : Plan} (blames : phase.Blames broken plan)
    (keeps : plan.Keeps after) : phase.Blames broken after := by
  cases phase with
  | failing lease node fault =>
    obtain ⟨position, same, has⟩ := blames
    exact ⟨position, same, keeps.has.mpr has⟩
  | hired | choosing | chosen | acting | completing | retiring | gone => trivial

theorem WorkerDeed.blames (deed : WorkerDeed index worker before phase events later)
    (breaks : before.hooks.Breaks broken) (quiet : Quiet before.call.executor) :
    ∃ next, later.call.workers = before.call.workers.set worker next ∧
      next.Blames broken before.plan := by
  cases deed with
  | halt polls | select polls | park polls => cases polls <;> exact ⟨_, rfl, trivial⟩
  | breakdown polls hooked =>
    obtain ⟨tally, plan, fault, raised⟩ := hooked
    rw [breaks.select] at raised
    cases raised
  | drop found hooked =>
    obtain ⟨tally, raised⟩ := hooked
    refine ⟨_, rfl, _, rfl, _, found, Classical.byContradiction fun fine => ?_⟩
    rw [(breaks.complete _ _).mpr fine] at raised
    cases raised
  | stumble raises => exact absurd raises quiet
  | settle | start | refuse | request | instruct | finish | complete | retire | fail =>
    exact ⟨_, rfl, trivial⟩

/-- A step of a worker leaves alone whether the run failed and with which fault, or it is
the last of a failing worker, which aborts the run. -/
theorem WorkerDeed.fails (deed : WorkerDeed index worker before phase events later)
    (there : before.call.workers[worker]? = some phase) (staffed : before.call.Staffed)
    (quiet : Quiet before.call.executor) :
    (∀ lease node fault, phase ≠ .failing lease node fault) ∧
        later.call.workerFailed = before.call.workerFailed ∧
        later.call.pool.failure = before.call.pool.failure ∨
      ∃ lease node fault, phase = .failing lease node fault ∧ later.call.workerFailed = true ∧
        later.call.pool.failure = (before.call.pool.failure <|> some fault) ∧
        later.plan = (before.plan.disown node).abort (.ofFault .plan (some fault)) := by
  cases deed with
  | halt polls | select polls | park polls =>
    cases polls <;> exact Or.inl ⟨by simp, rfl, rfl⟩
  | settle | breakdown | start | refuse | request | instruct | finish | complete | drop | stumble =>
    exact Or.inl ⟨by simp, rfl, rfl⟩
  | retire =>
    refine Or.inl ⟨by simp, rfl, ?_⟩
    simp only [Pool.finish]
    split
    · simp
    · rfl
  | @fail lease node fault escaped lasts =>
    obtain rfl := lasts.resolve_right quiet
    have running : before.call.pool.jobs[worker]? = some .running := by
      rw [staffed.jobs, List.getElem?_map, there]
      rfl
    exact Or.inr ⟨lease, node, escaped, rfl, rfl, by simp [Pool.finish, running], rfl⟩

theorem Corner.Polls.books (polls : before.Polls polled) :
    polled.plan.books = before.plan.books ∨ polled.plan.books = before.plan.cancel.2.books := by
  cases polls with
  | unseen => exact Or.inl rfl
  | seen => exact Or.inr rfl

theorem Corner.Polls.collected (polls : before.Polls polled) :
    polled.plan.collected = before.plan.collected := by
  cases polls with
  | unseen => rfl
  | seen => exact Plan.cancel_collected _

/-- What a step of a worker notes in the books of the plan. -/
theorem WorkerDeed.books (deed : WorkerDeed index worker before phase events later)
    (breaks : before.hooks.Breaks broken) :
    later.plan.books = before.plan.books ∨ later.plan.books = before.plan.cancel.2.books ∨
      ∃ lease node fault, phase = .failing lease node fault ∧
        later.plan.books = (before.plan.abort (.ofFault .plan (some fault))).books := by
  cases deed with
  | settle | start | request | drop | retire | stumble => exact Or.inl rfl
  | halt polls | select polls | park polls => exact polls.books.imp id Or.inl
  | breakdown polls hooked =>
    obtain ⟨tally, plan, fault, raised⟩ := hooked
    rw [breaks.select] at raised
    cases raised
  | refuse | instruct | finish => exact Or.inl (Plan.failAll_touches _ _ _).books
  | complete => exact Or.inl (Plan.books_complete _ _ _)
  | @fail lease node fault =>
    refine Or.inr (Or.inr ⟨lease, node, fault, rfl, ?_⟩)
    cases node <;> rfl

theorem WorkerDeed.collected (deed : WorkerDeed index worker before phase events later)
    (breaks : before.hooks.Breaks broken) : later.plan.collected = before.plan.collected := by
  rcases deed.books breaks with same | same | ⟨_, _, _, _, same⟩
  · exact congrArg (·.2.1) same
  · exact (congrArg (·.2.1) same).trans (Plan.cancel_collected _)
  · exact congrArg (·.2.1) same

/-! What holds of a call all the time. -/

def Corner.Reaches (earlier : List Failure) (corner : Corner) : Stage → Prop
  | .arriving | .launching =>
    corner.call.failures = earlier ∧ corner.plan.collected = false ∧
      corner.call.workerFailed = false
  | .queueing _ | .reporting | .awaiting _ =>
    corner.call.failures = earlier ∧ corner.plan.collected = false
  | .aborting _ => False
  | .joining fault => fault = none ∧ (corner.call.workerFailed = true ∨ corner.plan.Over)
  | .gone fault =>
    fault = corner.call.pool.failure ∧ (corner.call.workerFailed = true ∨ corner.plan.Over)

structure Corner.Endures (broken : String → Prop) (earlier : List Failure) (index : Nat)
    (history : List Happening) (corner : Corner) : Prop where
  hooks : corner.hooks.Breaks broken
  quiet : Quiet corner.call.executor
  crew : ∀ (worker : Nat) (phase : Phase), corner.call.workers[worker]? = some phase →
    phase.Blames broken corner.plan
  /-- In a failed run nothing is selected, and a broken node was left behind. -/
  failed : corner.call.workerFailed = true → corner.plan.Stopped ∧
    ∃ position, corner.plan.Has broken position ∧ corner.plan.state? position = some .executing
  pool : corner.call.workerFailed = corner.call.pool.failure.isSome
  nodes : ∀ (position : Nat) (entry : Entry), corner.plan.entries[position]? = some entry →
    entry.node.Fared broken index history position
  /-- Only a broken node is left behind in the middle of its execution. -/
  left : ∀ (position : Nat) (entry : Entry), corner.plan.entries[position]? = some entry →
    entry.node.state = .executing → entry.node.held = [] →
    broken entry.node.id ∧ corner.call.workerFailed = true
  stage : corner.Reaches earlier corner.call.stage

namespace Corner.Fate

variable {position : Nat} {first last : Node}
  (fate : before.Fate index move events position first last)
include fate

theorem fared (breaks : before.hooks.Breaks broken) (id : last.id = first.id)
    (fared : first.Fared broken index history position) :
    last.Fared broken index (history ++ events) position := by
  have taken (executing : first.state = .executing) :
      .selected index position ∈ history ++ events :=
    List.mem_append_left _ (fared.selected.mpr (Or.inl executing))
  cases fate with
  | drifts drift unselected => exact fared.drift drift id unselected
  | handed _ executing _ _ selected =>
    simp only [Node.Fared, executing]
    exact List.mem_append_right _ selected
  | noted executing still | left _ _ executing still =>
    simp only [Node.Fared, still]
    exact taken executing
  | ended _ _ unhooked executing failure state =>
    obtain ⟨tally, silent⟩ := unhooked
    have fine := (breaks.complete tally first).mp silent
    cases cause : first.failure with
    | none =>
      simp only [cause, Option.isSome_none, Bool.false_eq_true, if_false] at state
      simp only [Node.Fared, state, id]
      exact ⟨taken executing, fine, failure.trans cause⟩
    | some reason =>
      simp only [cause, Option.isSome_some, if_true] at state
      simp only [Node.Fared, state, id]
      exact ⟨taken executing, fine, by rw [failure, cause]; rfl⟩

/-- Nobody completes a broken node. -/
theorem remains (breaks : before.hooks.Breaks broken) (broke : broken first.id)
    (executing : first.state = .executing) : last.state = .executing := by
  cases fate with
  | drifts drift =>
    exact (drift.settled (by simp [executing, State.isUnscheduled])).trans executing
  | handed _ still | noted _ still | left _ _ _ still => exact still
  | ended _ _ unhooked =>
    obtain ⟨tally, silent⟩ := unhooked
    exact absurd broke ((breaks.complete tally first).mp silent)

/-- A node that is executed without locks was so before, or its worker has just left. -/
theorem abandoned (still : last.state = .executing) (free : last.held = []) :
    first.state = .executing ∧ first.held = [] ∨
      ∃ worker lease fault, move = .worker index worker ∧
        before.call.workers[worker]? = some (.failing lease (some position) fault) := by
  cases fate with
  | drifts drift =>
    rcases drift.state with same | ⟨_, ready | skipped⟩
    · exact Or.inl ⟨same ▸ still, drift.held ▸ free⟩
    · simp [ready] at still
    · simp [skipped] at still
  | handed _ _ _ holds => exact absurd free holds
  | noted executing _ held => exact Or.inl ⟨executing, held ▸ free⟩
  | left own there => exact Or.inr ⟨_, _, _, own, there⟩
  | ended _ _ _ _ _ state =>
    rw [state] at still
    split at still <;> cases still

end Corner.Fate

theorem WorkerDeed.reaches (deed : WorkerDeed index worker before phase events later)
    (there : before.call.workers[worker]? = some phase) (staffed : before.call.Staffed)
    (busy : ∀ node, phase.node? = some node → before.plan.state? node = some .executing)
    (endures : before.Endures broken earlier index history) :
    later.Reaches earlier later.call.stage := by
  have breaks := endures.hooks
  obtain ⟨present, _, moves⟩ := deed.moves
  have reaches := endures.stage
  rw [moves.stage]
  have remains (finished : before.call.workerFailed = true ∨ before.plan.Over) :
      later.call.workerFailed = true ∨ later.plan.Over :=
    finished.imp moves.failed fun finished => deed.remains_over finished busy
  have unstarted (early : before.call.stage = .arriving ∨ before.call.stage = .launching) : False := by
    rw [staffed.early early] at there
    cases there
  cases stage : before.call.stage with
  | arriving => exact (unstarted (Or.inl stage)).elim
  | launching => exact (unstarted (Or.inr stage)).elim
  | queueing | reporting | awaiting =>
    rw [stage] at reaches
    exact ⟨moves.failures.trans reaches.1, (deed.collected breaks).trans reaches.2⟩
  | aborting => simp [stage, Corner.Reaches] at reaches
  | joining fault =>
    rw [stage] at reaches
    exact ⟨reaches.1, remains reaches.2⟩
  | gone fault => exact absurd (staffed.emptied fault stage phase (List.mem_of_getElem? there)) present

theorem WorkerDeed.endures (deed : WorkerDeed index worker before phase events later)
    (there : before.call.workers[worker]? = some phase) (valid : before.plan.Valid)
    (staffed : before.call.Staffed)
    (busy : ∀ node, phase.node? = some node → before.plan.state? node = some .executing)
    (endures : before.Endures broken earlier index history) :
    later.Endures broken earlier index (history ++ events) := by
  have kept := deed.kept valid
  have breaks := endures.hooks
  obtain ⟨next, workers, blames⟩ := deed.blames breaks endures.quiet
  obtain ⟨_, _, moves⟩ := deed.moves
  have trouble := deed.fails there staffed endures.quiet
  -- every node of the later plan was there before
  have fates {position : Nat} {new : Entry} (again : later.plan.entries[position]? = some new) :
      ∃ old, before.plan.entries[position]? = some old ∧ new.node.id = old.node.id ∧
        before.Fate index (.worker index worker) events position old.node new.node := by
    obtain ⟨old, found, links⟩ := kept.keeps.back again
    exact ⟨old, found, links.id, deed.fate there valid busy found again⟩
  refine ⟨kept.hooks ▸ breaks, kept.executor ▸ endures.quiet, ?_, ?_, ?_, ?_, ?_, ?_⟩
  · exact crew_moved endures.crew workers (blames.keep kept.keeps)
      fun _ _ _ _ blames => blames.keep kept.keeps
  · intro failed
    rcases trouble with ⟨_, same, _⟩ | ⟨lease, node, fault, rfl, _, _, plan⟩
    · obtain ⟨stopped, position, has, executing⟩ := endures.failed (same ▸ failed)
      refine ⟨?_, position, kept.keeps.has.mpr has, ?_⟩
      · intro position new again
        obtain ⟨old, found, _, fate⟩ := fates again
        exact fate.scheduled (stopped position old found)
      · obtain ⟨old, found, broke⟩ := has
        obtain ⟨new, again, _⟩ := kept.keeps.entry position old found
        have state := Option.some.inj ((Plan.state?_eq found).symm.trans executing)
        rw [Plan.state?_eq again]
        exact congrArg some ((deed.fate there valid busy found again).remains breaks broke state)
    · obtain ⟨position, rfl, has⟩ := endures.crew worker _ there
      rw [plan]
      refine ⟨Plan.abort_stopped _ _, position, plan ▸ kept.keeps.has.mpr has, ?_⟩
      exact (Plan.abort_drifts _ _).state? ((Plan.disown_state? _ _ _).trans (busy position rfl)) rfl
  · rcases trouble with ⟨_, same, pool⟩ | ⟨lease, node, fault, rfl, failed, pool, _⟩
    · rw [same, pool, endures.pool]
    · rw [failed, pool]
      cases before.call.pool.failure <;> rfl
  · intro position new again
    obtain ⟨old, found, id, fate⟩ := fates again
    exact fate.fared breaks id (endures.nodes position old found)
  · intro position new again still free
    obtain ⟨old, found, id, fate⟩ := fates again
    rw [id]
    rcases fate.abandoned still free with ⟨executing, held⟩ | ⟨other, lease, fault, own, failing⟩
    · obtain ⟨broke, failed⟩ := endures.left position old found executing held
      exact ⟨broke, moves.failed failed⟩
    · cases own
      cases Option.some.inj (there.symm.trans failing)
      obtain ⟨_, same, entry, known, broke⟩ := endures.crew worker _ there
      cases same
      cases Option.some.inj (found.symm.trans known)
      rcases trouble with ⟨other, _⟩ | ⟨_, _, _, _, failed, _⟩
      · exact absurd rfl (other _ _ _)
      · exact ⟨broke, failed⟩
  · exact deed.reaches there staffed busy endures

theorem CallerDeed.endures (deed : CallerDeed before before.call.stage later)
    (valid : before.plan.Valid) (endures : before.Endures broken earlier index history) :
    later.Endures broken earlier index history := by
  have kept := deed.kept valid
  have drifts := deed.drifts valid
  have reaches := endures.stage
  generalize before.call.stage = stage at deed reaches
  -- all but the launch leave the workers alone
  have goes (workers : later.call.workers = before.call.workers)
      (failed : later.call.workerFailed = before.call.workerFailed)
      (pool : later.call.pool = before.call.pool)
      (stage : later.Reaches earlier later.call.stage) :
      later.Endures broken earlier index history := by
    refine ⟨kept.hooks ▸ endures.hooks, kept.executor ▸ endures.quiet, ?_, ?_, ?_, ?_, ?_, stage⟩
    · rw [workers]
      exact fun worker phase there => (endures.crew worker phase there).keep drifts.keeps
    · rw [failed]
      intro failed
      obtain ⟨stopped, position, has, executing⟩ := endures.failed failed
      exact ⟨stopped.drift drifts, position, drifts.keeps.has.mpr has, drifts.state? executing rfl⟩
    · rw [failed, pool, endures.pool]
    · intro position new again
      obtain ⟨old, found, links, drift⟩ := drifts.back again
      have unselected : Happening.selected index position ∉ [] := List.not_mem_nil
      have fared := (endures.nodes position old found).drift drift links.id unselected
      rwa [List.append_nil] at fared
    · intro position new again executing free
      obtain ⟨old, found, links, drift⟩ := drifts.back again
      rw [failed, links.id]
      rcases drift.state with same | ⟨_, ready | skipped⟩
      · exact endures.left position old found (same ▸ executing) (drift.held ▸ free)
      · simp [ready] at executing
      · simp [skipped] at executing
  cases deed with
  | register => exact goes rfl rfl rfl reaches
  | launch =>
    obtain ⟨failures, collected, unfailed⟩ := reaches
    refine { endures with crew := ?_, pool := unfailed, stage := ⟨failures, collected⟩ }
    intro worker phase there
    simp only [Corner.withStage, List.getElem?_replicate, Option.ite_none_right_eq_some] at there
    cases there.2
    trivial
  | giveUp raises => exact absurd raises endures.quiet
  | @queue parked polled polls =>
    have collected : polled.plan.populate.collected = polled.plan.collected :=
      congrArg (·.2.1) (Plan.books_populate polled.plan)
    exact goes rfl rfl rfl ⟨reaches.1, collected.trans (polls.collected.trans reaches.2)⟩
  | collapse polls hooked =>
    obtain ⟨tally, fault, raised⟩ := hooked
    rw [endures.hooks.populate] at raised
    cases raised
  | report | wait => exact goes rfl rfl rfl reaches
  | collect done =>
    refine goes rfl rfl rfl ⟨rfl, done.imp id fun none => ?_⟩
    exact (valid.coherent.finished none).drift (Plan.collect_drifts _)
  | abort => exact reaches.elim
  | depart =>
    obtain ⟨rfl, finished⟩ := reaches
    exact goes rfl rfl rfl ⟨rfl, finished⟩

theorem Corner.Endures.elsewhere (endures : before.Endures broken earlier index history)
    (shares : before.Shares later) (foreign : ∀ happening ∈ events, happening.call? ≠ some index) :
    later.Endures broken earlier index (history ++ events) := by
  obtain ⟨hooks, quiet, crew, failed, pool, nodes, left, stage⟩ := endures
  rw [← shares.hooks] at hooks
  simp only [← shares.call, ← shares.plan] at quiet crew failed pool nodes left
  refine ⟨hooks, quiet, crew, failed, pool, ?_, left, ?_⟩
  · intro position entry found
    have unselected : .selected index position ∉ events := fun member => foreign _ member rfl
    exact (nodes position entry found).drift (.refl _) rfl unselected
  · rw [shares.call]
    cases here : before.call.stage with
    | aborting => simp [here, Corner.Reaches] at stage
    | arriving | launching | queueing | reporting | awaiting | joining | gone =>
      simp only [here, Corner.Reaches] at stage
      simp only [Corner.Reaches, shares.call, shares.plan]
      exact stage

namespace World

variable {start world : World} {moves : List (Bool × Move)} {call final : Call}
  {driven last : Driven}

/-- A call that is still to be made, on a plan of its own that was built and is as it
was built. The plan completes all nodes but the broken ones, and the log of the call
raises no fault. -/
structure Attempts (start : World) (index : Nat) (call : Call) (driven : Driven)
    (broken : String → Prop) : Prop where
  fresh : start.Start
  alone : start.Alone index
  found : start.calls[index]? = some call
  planned : start.plans[call.plan]? = some driven
  built : driven.plan.Built
  hooks : driven.hooks.Breaks broken
  quiet : Quiet call.executor

theorem Attempts.place (attempts : start.Attempts index call driven broken)
    (ran : start.play moves = some world) (found : world.calls[index]? = some final) :
    final.plan = call.plan := by
  obtain ⟨earlier, present, _, place, _⟩ := (attempts.fresh.play ran).2.origins index final found
  cases Option.some.inj (attempts.found.symm.trans present)
  exact place

theorem Owned.Lawful.endures (lawful : Owned.Lawful world call driven)
    (turns : (world.cornerOf call driven).Turns index move events later)
    (endures : (world.cornerOf call driven).Endures broken earlier index history) :
    later.Endures broken earlier index (history ++ events) := by
  cases turns with
  | worker there deed =>
    exact deed.endures there lawful.valid lawful.staffed (lawful.busy _ _ there) endures
  | caller deed =>
    rw [List.append_nil]
    exact deed.endures lawful.valid endures
  | elsewhere shares foreign => exact endures.elsewhere shares foreign

private theorem Attempts.endures_start (attempts : start.Attempts index call driven broken) :
    (start.cornerOf call driven).Endures broken call.failures index [] := by
  have unmade := attempts.fresh.unmade index call attempts.found
  have untouched := attempts.built.valid.2.untouched
  refine ⟨attempts.hooks, attempts.quiet, ?_, ?_, ?_, ?_, ?_, ?_⟩
  · simp [cornerOf, unmade.workers]
  · simp [cornerOf, unmade.unfailed]
  · simp [cornerOf, unmade.unfailed, unmade.failure]
  · intro position entry found
    simp only [Node.Fared, (untouched position entry found).1]
    exact List.not_mem_nil
  · intro position entry found executing
    rw [(untouched position entry found).1] at executing
    cases executing
  · simp only [cornerOf, unmade.stage]
    exact ⟨rfl, attempts.built.blank.2.1, unmade.unfailed⟩

theorem Attempts.lawful (attempts : start.Attempts index call driven broken)
    (ran : start.play moves = some world) (found : world.calls[index]? = some final)
    (planned : world.plans[call.plan]? = some last) : Owned.Lawful world final last := by
  rw [← attempts.place ran found] at planned
  exact (attempts.fresh.play ran).1.lawful found planned

theorem Attempts.endures (attempts : start.Attempts index call driven broken)
    (ran : start.play moves = some world) (found : world.calls[index]? = some final)
    (planned : world.plans[call.plan]? = some last) :
    (world.cornerOf final last).Endures broken call.failures index world.history := by
  rw [← attempts.place ran found] at planned
  refine attempts.fresh.sees attempts.alone
    (fun corner history => corner.Endures broken call.failures index history) ran found planned ?_ ?_
  · intro other rival found planned
    cases Option.some.inj (attempts.found.symm.trans found)
    cases Option.some.inj (attempts.planned.symm.trans planned)
    exact attempts.endures_start
  · exact fun _ _ _ _ _ _ _ _ lawful turns endures => lawful.endures turns endures

/-- What holds of such a call at some time and is kept by its steps holds from then on. -/
theorem Attempts.sees_on {middle : World} {earlier : List (Bool × Move)} {active : Call}
    {known : Driven} (attempts : start.Attempts index call driven broken) (Kept : Corner → Prop)
    (played : start.play earlier = some middle) (ran : middle.play moves = some world)
    (found : middle.calls[index]? = some active) (planned : middle.plans[call.plan]? = some known)
    (found_last : world.calls[index]? = some final) (planned_last : world.plans[call.plan]? = some last)
    (initial : Kept (middle.cornerOf active known))
    (step : ∀ (world : World) (active : Call) (known : Driven) (move : Move)
      (events history : List Happening) (later : Corner), Owned.Lawful world active known →
      (world.cornerOf active known).Endures broken call.failures index history →
      (world.cornerOf active known).Turns index move events later →
      Kept (world.cornerOf active known) → Kept later) : Kept (world.cornerOf final last) := by
  rw [← attempts.place (play_trans played ran) found_last] at planned_last
  refine (attempts.fresh.sees_on attempts.alone (fun corner history =>
    corner.Endures broken call.failures index history ∧ Kept corner) played ran found_last
    planned_last ?_ ?_).2
  · intro other rival found' planned'
    cases Option.some.inj (found.symm.trans found')
    rw [attempts.place played found] at planned'
    cases Option.some.inj (planned.symm.trans planned')
    exact ⟨attempts.endures played found planned, initial⟩
  · intro before other rival move events history later _ lawful turns ⟨endures, kept⟩
    exact ⟨lawful.endures turns endures,
      step before other rival move events history later lawful endures turns kept⟩

/-- When the call has ended, only a failed run has a node that is being executed, and
that node is broken. -/
theorem Attempts.abandons (attempts : start.Attempts index call driven broken)
    (ran : start.play moves = some world) (found : world.calls[index]? = some final)
    (planned : world.plans[call.plan]? = some last) {fault : Option Fault}
    (gone : final.stage = .gone fault) {position : Nat} {entry : Entry}
    (present : last.plan.entries[position]? = some entry) (executing : entry.node.state = .executing) :
    broken entry.node.id ∧ final.workerFailed = true := by
  obtain ⟨owned, follows⟩ := attempts.fresh.play ran
  apply (attempts.endures ran found planned).left position entry present executing
  apply Classical.byContradiction
  intro held
  rw [← attempts.place ran found] at planned
  obtain ⟨other, worker, lease, phase, ⟨rival, known, place, there⟩, _, owns⟩ :=
    owned.kept final.plan position entry ((entryAt_eq planned position).trans present) held
  cases (attempts.alone.follows follows) other final rival found known place
  cases Option.some.inj (found.symm.trans known)
  obtain ⟨cause, rfl⟩ :=
    (owned.staffed index final found).emptied fault gone phase (List.mem_of_getElem? there)
  cases owns

def solo (budget workers : Nat) (watches : Bool) (plan : Plan) (hooks : Hooks) (action : Action) :
    World :=
  { locks := (Desk.run {} [.createTree "leases" budget]).locks
    plans := [{ plan, hooks }]
    calls :=
      [{ executor := { workers, root := { tree := 0, place := 0 }, gate := 0, watches }
         plan := 0
         action := some action }] }

theorem solo_attempts {budget workers : Nat} {watches : Bool} {plan : Plan} {hooks : Hooks}
    {action : Action} (positive : 0 < budget) (built : plan.Built) (breaks : hooks.Breaks broken) :
    (solo budget workers watches plan hooks action).Attempts 0
      { executor := { workers, root := { tree := 0, place := 0 }, gate := 0, watches }
        plan := 0
        action := some action } { plan, hooks } broken := by
  have planned {place : Nat} {driven : Driven}
      (found : (solo budget workers watches plan hooks action).plans[place]? = some driven) :
      driven = { plan, hooks } := by
    match place, found with
    | 0, rfl => rfl
  have called {index : Nat} {call : Call}
      (found : (solo budget workers watches plan hooks action).calls[index]? = some call) :
      index = 0 ∧ call.Unmade ∧ call.plan = 0 ∧ call.executor.root = { tree := 0, place := 0 } := by
    match index, found with
    | 0, rfl => exact ⟨rfl, ⟨rfl, rfl, rfl, rfl, rfl⟩, rfl, rfl⟩
  refine ⟨⟨⟨_, rfl⟩, ?_, ?_, ?_, ?_, ?_, ?_, rfl⟩, ?_, rfl, rfl, built, breaks, ?_⟩
  · intro place driven found
    cases planned found
    exact .built built
  · intro place driven found position executing
    cases planned found
    obtain ⟨entry, there, state⟩ := Plan.entry_of_state? executing
    simp [(built.valid.2.untouched position entry there).1] at state
  · intro place driven found
    cases planned found
    exact breaks.toThrowing
  · exact fun index call found => (called found).2.1
  · intro index call found
    rw [(called found).2.2.1]
    exact ⟨_, rfl⟩
  · intro index call found
    rw [(called found).2.2.2]
    exact ⟨{ name := "leases", budget }, congrArg (·[0]?) (opening_tree positive [])⟩
  · exact fun other call rival found present _ => (called present).1
  · exact fun ⟨_, present, _⟩ => by cases present

/-- Steps of the first call: its thread is 0, and its workers come after it. -/
def roster (order : List Nat) : List (Bool × Move) :=
  order.map fun
    | 0 => (false, .caller 0)
    | worker + 1 => (false, .worker 0 worker)

end World
end Executor
end Foreman
