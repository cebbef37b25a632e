import Foreman.Proofs.Executions
import Foreman.Proofs.Judgements
import Foreman.Proofs.PlanFailures
import Mathlib.Data.List.Induction

/-! Which failure a node ends with. While a worker executes a node, nobody else touches
the node's failure, and the worker records there whatever goes wrong: in the log before
and after the action, in the action, and by its end. The first of these failures wins. -/

namespace Foreman

/-- How a node keeps a failure: as it is, but with a detail that names the node unless
there was one. -/
structure Failure.KeptAs (first : Failure) (id : String) (kept : Failure) : Prop where
  same : kept = { first with details := kept.details }
  details : first.details.Ascending → ∀ key, kept.details.lookup key =
    (first.details.lookup key).or (if key = "node_id" then some id else none)

theorem Failure.withDetail_keptAs (failure : Failure) (id : String) :
    failure.KeptAs id (failure.withDetail "node_id" id) :=
  ⟨rfl, (failure.withDetail_detailed "node_id" id).details⟩

/-- The node has ended with the first of its failures, if there was any. -/
def Node.EndsWith (node : Node) : Option Failure → Prop
  | none => node.state = .succeeded ∧ node.failure = none
  | some first => node.state = .failed ∧ ∃ kept, node.failure = some kept ∧ first.KeptAs node.id kept

/-! Whose failures a step leaves alone. -/

namespace Plan

variable {before middle after : Plan} {node : Option Nat}

theorem Spares.trans (left : before.Spares node middle) (keeps : before.Keeps middle)
    (right : middle.Spares node after) : before.Spares node after := by
  intro position entry later other found again
  obtain ⟨between, present, _⟩ := keeps.entry position entry found
  exact (right position between later other present again).trans
    (left position entry between other found present)

theorem disown_spares (plan : Plan) (position node : Option Nat) :
    plan.Spares node (plan.disown position) := by
  intro other entry later _ found again
  rw [disown_lookup, found, Option.map_some] at again
  cases again
  split <;> rfl

end Plan

namespace Executor

variable {index worker : Nat} {before later : Corner} {events : List Happening}

theorem WorkerDeed.spares_others {phase : Phase}
    (deed : WorkerDeed index worker before phase events later) (valid : before.plan.Valid) :
    before.plan.Spares phase.node? later.plan := by
  cases deed with
  | settle | start | request | drop | retire | stumble => exact (Plan.Drifts.refl _).spares
  | refuse | instruct | finish => exact Plan.failAll_spares _ _ _
  | halt polls | park polls => exact polls.drifts.spares
  | breakdown polls => exact (polls.drifts.trans (Plan.abort_drifts _ _)).spares
  | select polls unfailed table selects =>
    exact polls.drifts.spares.trans polls.drifts.keeps
      (Plan.hand_spares (polls.valid valid) selects.found selects.ready)
  | @complete lease node =>
    rcases Plan.complete_cases valid node before.locks with
      ⟨entry, _, _, _, ends⟩ | ⟨_, dropped⟩
    · exact ends.spares
    · simp only [Corner.withPhase, dropped]
      exact Plan.disown_spares _ (some node) _
  | @fail lease node fault escaped lasts =>
    exact (Plan.disown_spares _ _ _).trans (Plan.disown_keeps _ _) (Plan.abort_drifts _ _).spares

theorem CallerDeed.spares_all {stage : Stage} (deed : CallerDeed before stage later)
    (valid : before.plan.Valid) : before.plan.Spares none later.plan := by
  cases deed with
  | register | launch | giveUp | report | wait | depart => exact (Plan.Drifts.refl _).spares
  | queue polls => exact (polls.drifts.trans (polls.valid valid).populate.2.1).spares
  | collapse polls => exact (polls.drifts.trans (Plan.abort_drifts _ _)).spares
  | collect => exact (Plan.collect_drifts _).spares
  | abort => exact (Plan.abort_drifts _ _).spares

def Phase.Executes (lease : Lease) (node : Nat) : Phase → Prop
  | .chosen own position | .acting own position _ _ | .completing own position =>
    own = lease ∧ position = node
  | .hired | .choosing .. | .retiring _ | .failing .. | .gone _ => False

theorem CallerDeed.pool {stage : Stage} (deed : CallerDeed before stage later) :
    later.call.pool = before.call.pool ∨ stage = .launching := by
  cases deed with
  | launch | giveUp => exact Or.inr rfl
  | register | queue | collapse | report | wait | collect | abort | depart => exact Or.inl rfl

namespace World

variable {world after : World} {node : Nat} {call : Call} {driven : Driven} {entry : Entry}
  {phase : Phase}

/-- The worker of a call is in this phase, and its node is like this. -/
structure Stationed (world : World) (index worker node : Nat) (call : Call) (driven : Driven)
    (entry : Entry) (phase : Phase) : Prop where
  found : world.calls[index]? = some call
  planned : world.plans[call.plan]? = some driven
  there : call.workers[worker]? = some phase
  present : driven.plan.entries[node]? = some entry

theorem Stationed.engages {lease : Lease}
    (stationed : world.Stationed index worker node call driven entry phase) (owned : world.Owned)
    (leases : phase.lease? = some lease) (owns : phase.node? = some node) :
    driven.plan.Engages lease entry := by
  obtain ⟨known, holder, planned, present, engages⟩ := owned.engaged index worker call.plan node
    lease ⟨phase, ⟨call, stationed.found, rfl, stationed.there⟩, leases, owns⟩
  cases Option.some.inj (stationed.planned.symm.trans planned)
  cases Option.some.inj (stationed.present.symm.trans present)
  exact engages

/-- What does not change for a worker while it has a node. -/
structure Steadfast (call later : Call) (driven last : Driven) (entry final : Entry) : Prop where
  place : later.plan = call.plan
  executor : later.executor = call.executor
  action : later.action = call.action
  pool : later.pool.name = call.pool.name
  hooks : last.hooks = driven.hooks
  keeps : driven.plan.Keeps last.plan
  links : entry.Links final

theorem Steadfast.refl (call : Call) (driven : Driven) (entry : Entry) :
    Steadfast call call driven driven entry entry :=
  ⟨rfl, rfl, rfl, rfl, rfl, .refl _, .refl _⟩

theorem Steadfast.trans {first middle last : Call} {origin between final : Driven}
    {entry later latest : Entry} (left : Steadfast first middle origin between entry later)
    (right : Steadfast middle last between final later latest) :
    Steadfast first last origin final entry latest :=
  ⟨right.place.trans left.place, right.executor.trans left.executor,
    right.action.trans left.action, right.pool.trans left.pool, right.hooks.trans left.hooks,
    left.keeps.trans right.keeps, left.links.trans right.links⟩

theorem Steadfast.thread {later : Call} {last : Driven} {final : Entry}
    (steadfast : Steadfast call later driven last entry final) (worker : Nat) :
    later.pool.threadName worker = call.pool.threadName worker := by
  simp only [Pool.threadName, steadfast.pool]

private theorem Stationed.shown {other : Nat} {rival : Call} {elsewhere : Driven} {corner : Corner}
    {mine : Option Nat} (stationed : world.Stationed index worker node call driven entry phase)
    (found : world.calls[other]? = some rival) (planned : world.plans[rival.plan]? = some elsewhere)
    (shown : Shows world other rival.plan after corner events)
    (kept : (world.cornerOf rival elsewhere).Kept corner)
    (spares : elsewhere.plan.Spares mine corner.plan)
    (apart : rival.plan = call.plan → mine ≠ some node)
    (crew : other = index → corner.call.workers[worker]? = some phase ∧
      corner.call.pool.name = rival.pool.name) :
    ∃ later last final, after.Stationed index worker node later last final phase ∧
      Steadfast call later driven last entry final ∧ final.node.failure = entry.node.failure := by
  obtain ⟨last, final, known, hooks, keeps, there, links, failure⟩ : ∃ last final,
      after.plans[call.plan]? = some last ∧ last.hooks = driven.hooks ∧
      driven.plan.Keeps last.plan ∧ last.plan.entries[node]? = some final ∧ entry.Links final ∧
      final.node.failure = entry.node.failure := by
    obtain ⟨last, plan, hooks, plans⟩ := shown.plan? planned
    rw [plans]
    split
    next here =>
      cases Option.some.inj ((here ▸ stationed.planned).symm.trans planned)
      obtain ⟨final, there, links⟩ := kept.keeps.entry node entry stationed.present
      refine ⟨last, final, rfl, hooks.trans kept.hooks, plan ▸ kept.keeps, plan ▸ there, links, ?_⟩
      exact spares node entry final (apart here.symm) stationed.present there
    · exact ⟨driven, entry, stationed.planned, rfl, .refl _, stationed.present, .refl _, rfl⟩
  obtain ⟨later, present, place, executor, action, workers, pool⟩ : ∃ later,
      after.calls[index]? = some later ∧ later.plan = call.plan ∧
      later.executor = call.executor ∧ later.action = call.action ∧
      later.workers[worker]? = some phase ∧ later.pool.name = call.pool.name := by
    rw [shown.call? found]
    split
    next here =>
      cases Option.some.inj ((here ▸ stationed.found).symm.trans found)
      obtain ⟨workers, pool⟩ := crew here.symm
      exact ⟨corner.call, rfl, kept.place, kept.executor, kept.action, workers, pool⟩
    · exact ⟨call, stationed.found, rfl, rfl, rfl, stationed.there, rfl⟩
  exact ⟨later, last, final, ⟨present, place ▸ known, workers, there⟩,
    ⟨place, executor, action, pool, hooks, keeps, links⟩, failure⟩

/-- Whoever else makes a step leaves a worker where it is, and its node with the
failure it has. -/
theorem Stationed.foreign {move : Move}
    (stationed : world.Stationed index worker node call driven entry phase) (owned : world.Owned)
    (owns : phase.node? = some node) (turn : world.Turn move after)
    (foreign : move ≠ .worker index worker) :
    ∃ later last final, after.Stationed index worker node later last final phase ∧
      Steadfast call later driven last entry final ∧ final.node.failure = entry.node.failure := by
  obtain ⟨lease, leased⟩ := Phase.lease_of_node owns
  have mine : world.Owns index worker lease call.plan node :=
    ⟨phase, ⟨call, stationed.found, rfl, stationed.there⟩, leased, owns⟩
  cases turn with
  | @worker other rival theirs elsewhere busy events corner after found planned there deed shown =>
    have valid := owned.valid _ _ planned
    refine stationed.shown found planned shown (deed.kept valid) (deed.spares_others valid) ?_ ?_
    · intro same owns
      obtain ⟨lease', leased⟩ := Phase.lease_of_node owns
      obtain ⟨rfl, rfl⟩ := owned.sole mine ⟨busy, ⟨theirs, found, same, there⟩, leased, owns⟩
      exact foreign rfl
    · rintro rfl
      cases Option.some.inj (stationed.found.symm.trans found)
      obtain ⟨_, next, moves⟩ := deed.moves
      have differs : rival ≠ worker := fun same => foreign (congrArg _ same)
      refine ⟨?_, ?_⟩
      · rw [moves.workers]
        exact (List.getElem?_set_ne differs).trans stationed.there
      · rcases moves.pool with ⟨fault, _, pool⟩ | ⟨_, pool⟩
        · exact (congrArg Pool.name pool).trans (finish_name _ _ _)
        · exact congrArg Pool.name pool
  | @caller other theirs elsewhere corner after found planned deed shown =>
    have valid := owned.valid _ _ planned
    refine stationed.shown found planned shown (deed.kept valid) (deed.spares_all valid) (by simp) ?_
    rintro rfl
    cases Option.some.inj (stationed.found.symm.trans found)
    have early : call.stage ≠ .launching := by
      intro launching
      have crew := (owned.staffed _ _ found).early (Or.inr launching)
      have there := stationed.there
      simp [crew] at there
    refine ⟨?_, congrArg Pool.name (deed.pool.resolve_right early)⟩
    rcases deed.crew with same | ⟨launching, _⟩
    · exact (congrArg (·[worker]?) same).trans stationed.there
    · exact absurd launching early
  | outside foreign outside =>
    exact ⟨call, driven, entry, ⟨outside.calls ▸ stationed.found, outside.plans ▸ stationed.planned,
      stationed.there, stationed.present⟩, .refl .., rfl⟩

/-- A worker that gets on with its node records there what it meets with. -/
theorem Stationed.proceeds {lease : Lease} {account : List Occurrence}
    (stationed : world.Stationed index worker node call driven entry phase)
    (proceeds : world.Proceeds index worker node call driven lease entry.node.id account phase after) :
    ∃ later last final next events,
      after.Stationed index worker node later last final next ∧
      Steadfast call later driven last entry final ∧
      Progress entry.node.id (call.pool.threadName worker) call.action lease node
        (account ++ world.occurrences index worker) next ∧
      final.node.failure = entry.node.failure.or
        ((Occurrence.failures (world.occurrences index worker)).head?.map
          (·.withDetail "node_id" entry.node.id)) ∧
      after.log = world.log ++
        Occurrence.lines call.executor.sink driven.plan.name (world.occurrences index worker) ∧
      after.history = world.history ++ events ∧
      (.started index node ∈ events ↔
        .invoked ∈ world.occurrences index worker ∧ call.action.isSome = true) := by
  have occurrences : world.occurrences index worker =
      world.phaseOccurrences index worker call driven phase := by
    simp only [World.occurrences, stationed.found, stationed.planned, stationed.there]
  obtain ⟨corner, next, events, goes, stride, progress, begun⟩ := proceeds
  rw [← occurrences] at stride progress begun
  obtain ⟨notes, call_eq⟩ := goes.call
  obtain ⟨last, plan, hooks, plans⟩ := stride.shown.plan? stationed.planned
  have found := (stride.shown.call? stationed.found index).trans (if_pos rfl)
  have planned := (plans call.plan).trans (if_pos rfl)
  -- in the plan only the failure of the node can have changed
  have plan : last.plan = driven.plan.failAll node
      (Occurrence.failures (world.occurrences index worker)) := by
    rw [plan]
    exact congrArg (Plan.failAll · node _) goes.plan
  have present : last.plan.entries[node]? = some
      { entry with
        node.failure := entry.node.failure <|>
          (Occurrence.failures (world.occurrences index worker)).head?.map
            (·.withDetail "node_id" entry.node.id) } := by
    rw [plan, Plan.failAll_lookup, stationed.present, Option.map_some, if_pos rfl]
  have inside := (List.getElem?_eq_some_iff.mp stationed.there).1
  have there : (corner.call.workers.set worker next)[worker]? = some next := by
    rw [call_eq]
    simp [cornerOf, inside]
  have place : corner.call.plan = call.plan := by rw [call_eq]; rfl
  have executor : corner.call.executor = call.executor := by rw [call_eq]; rfl
  have action : corner.call.action = call.action := by rw [call_eq]; rfl
  have pool : corner.call.pool.name = call.pool.name := by rw [call_eq]; rfl
  refine ⟨_, last, _, next, events, ⟨found, ?_, there, present⟩, ?_, progress, ?_, stride.log,
    stride.shown.history, begun⟩
  · exact (congrArg (after.plans[·]?) place).trans planned
  · refine ⟨place, executor, action, pool, hooks.trans goes.hooks, ?_, ⟨rfl, rfl, rfl, rfl, id⟩⟩
    rw [plan]
    exact Plan.failAll_keeps _ _ _
  · cases entry.node.failure <;> rfl

/-- What somebody who watches a worker gathers from its own steps in a run. -/
def gather {α : Type} (look : World → World → List α) (index worker : Nat) (world : World) :
    List (Bool × Move) → List α
  | [] => []
  | (missed, move) :: rest =>
    match world.step missed move with
    | none => []
    | some after =>
      (if move = .worker index worker then look world after else []) ++
        after.gather look index worker rest

/-- What a worker meets with in a run for the nodes that it executes. -/
def account (world : World) (index worker : Nat) (moves : List (Bool × Move)) : List Occurrence :=
  world.gather (fun before _ => before.occurrences index worker) index worker moves

def written (world : World) (index worker : Nat) (moves : List (Bool × Move)) : List Line :=
  world.gather (fun before after => after.log.drop before.log.length) index worker moves

def happened (world : World) (index worker : Nat) (moves : List (Bool × Move)) : List Happening :=
  world.gather (fun before after => after.history.drop before.history.length) index worker moves

theorem gather_concat {α : Type} (look : World → World → List α) {start : World}
    {moves : List (Bool × Move)} {missed : Bool} {move : Move} (played : start.play moves = some world)
    (stepped : world.step missed move = some after) :
    start.gather look index worker (moves ++ [(missed, move)]) =
      start.gather look index worker moves ++
        if move = .worker index worker then look world after else [] := by
  induction moves generalizing start with
  | nil =>
    cases played
    simp [gather, stepped]
  | cons first rest ih =>
    obtain ⟨next, went, played⟩ := Option.bind_eq_some_iff.mp played
    simp only [List.cons_append, gather, went, ih played, List.append_assoc]

/-- The run has come to this account of the node, whose worker is still at it. -/
def Underway (world : World) (index worker node : Nat) (call : Call) (driven : Driven)
    (entry : Entry) (lease : Lease) (account : List Occurrence) (lines : List Line)
    (happened : List Happening) : Prop :=
  ∃ later last final phase,
    world.Stationed index worker node later last final phase ∧
    Steadfast call later driven last entry final ∧
    Progress entry.node.id (call.pool.threadName worker) call.action lease node account phase ∧
    final.node.failure = (Occurrence.failures account).head?.map
      (·.withDetail "node_id" entry.node.id) ∧
    lines = Occurrence.lines call.executor.sink driven.plan.name account ∧
    (.started index node ∈ happened ↔ .invoked ∈ account ∧ call.action.isSome = true)

/-- A worker is done with its node, which has ended. The failure that came first is the
node's, and its locks are free again. -/
structure Attributed (index worker node : Nat) (call : Call) (driven : Driven) (entry : Entry)
    (lease : Lease) (account : List Occurrence) (lines : List Line) (happened : List Happening)
    (before after : World) : Prop where
  executed : Executed entry.node.id (call.pool.threadName worker) call.action account
  invoked : .invoked ∈ account ↔
    .logged (.nodeStarted entry.node.id (call.pool.threadName worker)) none ∈ account
  told : (∃ fault,
      .logged (.nodeCompleted entry.node.id (call.pool.threadName worker) 0) fault ∈ account) ↔
    ∃ failure, .ended (.returned failure) ∈ account
  /-- The log tells what the worker gave to it. -/
  lines : lines = Occurrence.lines call.executor.sink driven.plan.name account
  /-- The history tells that the action was invoked, if there is one. -/
  begun : .started index node ∈ happened ↔ .invoked ∈ account ∧ call.action.isSome = true
  faults : ∀ occurrence ∈ account, ∀ fault, occurrence.fault? = some fault →
    ∃ failure, occurrence.failure? = some failure ∧ failure.category = .execution ∧
      failure.code = 5002
  executing : ∃ last, before.entryAt call.plan node = some last ∧ last.node.state = .executing
  ended : ∃ final, after.entryAt call.plan node = some final ∧ final.node.held = [] ∧
    final.node.EndsWith (Occurrence.failures account).head?
  locked : ∀ lock ∈ .lease lease :: entry.node.resources.map driven.plan.resourceLock,
    before.locks.isLocked lock = true
  freed : ∀ lock ∈ .lease lease :: entry.node.resources.map driven.plan.resourceLock,
    after.locks.isLocked lock = false
  onward : after.phase? index worker = some (.choosing lease none)

/-- The completion of a node ends it with the failure that it has, and gives back all
that its worker locked for it. -/
theorem Stationed.completes {later : Call} {last : Driven} {final : Entry} {lease : Lease}
    {account : List Occurrence} {lines : List Line} {happened : List Happening} {missed : Bool}
    (owned : world.Owned)
    (stationed : world.Stationed index worker node later last final (.completing lease node))
    (steadfast : Steadfast call later driven last entry final) (plain : driven.hooks = {})
    (executed : Executed entry.node.id (call.pool.threadName worker) call.action account)
    (failure : final.node.failure = (Occurrence.failures account).head?.map
      (·.withDetail "node_id" entry.node.id))
    (wrote : lines = Occurrence.lines call.executor.sink driven.plan.name account)
    (begun : .started index node ∈ happened ↔ .invoked ∈ account ∧ call.action.isSome = true)
    (stepped : world.step missed (.worker index worker) = some after) :
    Attributed index worker node call driven entry lease account lines happened world after := by
  have engages := stationed.engages owned rfl rfl
  obtain ⟨found, planned, there, present⟩ := stationed
  have place := steadfast.place
  have held : final.node.held =
      .lease lease :: entry.node.resources.map driven.plan.resourceLock := by
    rw [engages.held, steadfast.links.resources, steadfast.keeps.resourceLock]
  obtain ⟨events, corner, deed, shown⟩ := owned.orderly.works stepped found planned there
  cases deed with
  | drop known hooked =>
    obtain ⟨tally, raises⟩ := hooked
    simp [cornerOf, steadfast.hooks, plain] at raises
  | complete unhooked =>
    have valid := owned.valid _ _ planned
    have ends := (Plan.complete_executing valid present engages.executing world.locks).2
    obtain ⟨closed, there', kept, empty, state⟩ := ends.own
    have id : closed.node.id = entry.node.id := by
      obtain ⟨other, again, links⟩ := ends.keeps.entry node final present
      cases Option.some.inj (there'.symm.trans again)
      exact links.id.trans steadfast.links.id
    refine ⟨executed, executed.invoked_iff, executed.completed_iff, wrote, begun,
      fun occurrence _ fault raised => Occurrence.failure_of_fault raised,
      ⟨final, place ▸ (entryAt_eq planned node).trans present, engages.executing⟩,
      ⟨closed, ?_, empty, ?_⟩, ?_, ?_, ?_⟩
    · rw [entryAt_shown planned shown, if_pos place.symm]
      exact there'
    · rw [failure] at kept state
      cases first : (Occurrence.failures account).head? with
      | none =>
        simp only [first, Option.map_none, Option.isSome_none, Bool.false_eq_true, if_false] at kept state
        exact ⟨state, kept⟩
      | some first' =>
        simp only [first, Option.map_some, Option.isSome_some, if_true] at kept state
        exact ⟨state, _, kept, id ▸ Failure.withDetail_keptAs first' _⟩
    · rw [← held]
      exact owned.locked later.plan node final ((entryAt_eq planned node).trans present)
    · intro lock member
      rw [← held] at member
      have locks := shown.locks.trans (Plan.complete_locks present world.locks)
      rw [locks, Bool.eq_false_iff]
      intro locked
      exact (Locks.isLocked_unlockAll.mp locked).1 member
    · have inside := (List.getElem?_eq_some_iff.mp there).1
      have present := (shown.call? found index).trans (if_pos rfl)
      simp [phase?, present, Corner.withPhase, cornerOf, inside]

/-- A step of the worker that goes on with its node carries the account on. -/
private theorem Underway.proceeds {later : Call} {last : Driven} {final : Entry} {phase : Phase}
    {lease : Lease} {account : List Occurrence} {lines : List Line} {happened : List Happening}
    (stationed : world.Stationed index worker node later last final phase)
    (steadfast : Steadfast call later driven last entry final)
    (failure : final.node.failure = (Occurrence.failures account).head?.map
      (·.withDetail "node_id" entry.node.id))
    (wrote : lines = Occurrence.lines call.executor.sink driven.plan.name account)
    (begun : .started index node ∈ happened ↔ .invoked ∈ account ∧ call.action.isSome = true)
    (proceeds : world.Proceeds index worker node later last lease final.node.id account phase
      after) :
    after.Underway index worker node call driven entry lease
      (account ++ world.occurrences index worker) (lines ++ after.log.drop world.log.length)
      (happened ++ after.history.drop world.history.length) := by
  obtain ⟨later', last', final', next, events, stationed', steadfast', progress', failure', log,
    history, begun'⟩ := stationed.proceeds proceeds
  rw [steadfast.links.id, steadfast.thread, steadfast.action] at progress'
  rw [steadfast.action] at begun'
  rw [steadfast.links.id, failure] at failure'
  refine ⟨later', last', final', next, stationed', steadfast.trans steadfast', progress', ?_, ?_, ?_⟩
  · rw [failure', Occurrence.failures_append, List.head?_append, Option.map_or]
  · rw [log, List.drop_left, wrote, steadfast.executor, steadfast.keeps.name,
      Occurrence.lines_append]
  · rw [history, List.drop_left, List.mem_append, List.mem_append, begun, begun', or_and_right]

/-- A step on the way: somebody else's, the worker's own, or the completion of the node. -/
theorem Underway.step {lease : Lease} {account : List Occurrence} {lines : List Line}
    {happened : List Happening} {missed : Bool} {move : Move} (owned : world.Owned)
    (underway : world.Underway index worker node call driven entry lease account lines happened)
    (plain : driven.hooks = {}) (stepped : world.step missed move = some after) :
    after.Underway index worker node call driven entry lease
        (account ++ if move = .worker index worker then world.occurrences index worker else [])
        (lines ++ if move = .worker index worker then after.log.drop world.log.length else [])
        (happened ++
          if move = .worker index worker then after.history.drop world.history.length else []) ∨
      move = .worker index worker ∧
        Attributed index worker node call driven entry lease account lines happened world after := by
  obtain ⟨later, last, final, phase, stationed, steadfast, progress, failure, wrote, begun⟩ := underway
  have owns : phase.lease? = some lease ∧ phase.node? = some node := by
    cases progress <;> exact ⟨rfl, rfl⟩
  by_cases own : move = .worker index worker
  · subst own
    simp only [if_true]
    have present := stationed.present
    have advanced : world.advanceWorker missed index worker later last phase = some after := by
      simpa only [World.step, stepWorker, stationed.found, stationed.planned, stationed.there]
        using stepped
    have executing := (stationed.engages owned owns.1 owns.2).executing
    cases progress with
    | chosen =>
      have running : final.node.state.isTerminal = false := by simp [executing, State.isTerminal]
      simp only [advanceWorker, Plan.node?_eq present, Option.map_some, Option.some.injEq] at advanced
      subst advanced
      exact Or.inl (.proceeds stationed steadfast failure wrote begun
        (start_proceeds stationed.found stationed.planned present running))
    | acting request given conducts =>
      have valid := owned.valid _ _ stationed.planned
      have started := (valid.begun present (by simp [executing])).started
      simp only [advanceWorker, Plan.node?_eq present, Option.bind_some] at advanced
      refine Or.inl (.proceeds stationed steadfast failure wrote begun
        (act_proceeds stationed.found stationed.planned present started ?_ advanced))
      rw [steadfast.links.id, steadfast.thread, steadfast.action]
      exact .acting request given conducts
    | completing executed =>
      exact Or.inr ⟨trivial, stationed.completes owned steadfast plain executed failure wrote begun stepped⟩
  · left
    obtain ⟨later', last', final', stationed', steadfast', same⟩ :=
      stationed.foreign owned owns.2 (step_turn owned.orderly stepped) own
    simp only [if_neg own, List.append_nil]
    exact ⟨later', last', final', phase, stationed', steadfast.trans steadfast', progress,
      same.trans failure, wrote, begun⟩

/-- A worker that was handed an unfailed node is still at it, or it has completed it. -/
private theorem Stationed.run {start chosen : World} {earlier moves : List (Bool × Move)}
    {lease : Lease} (fresh : start.Start) (led : start.play earlier = some chosen)
    (stationed : chosen.Stationed index worker node call driven entry (.chosen lease node))
    (plain : driven.hooks = {}) (unfailed : entry.node.failure = none)
    (ran : chosen.play moves = some world) :
    world.Underway index worker node call driven entry lease (chosen.account index worker moves)
        (chosen.written index worker moves) (chosen.happened index worker moves) ∨
      ∃ past missed rest before after, moves = past ++ (missed, .worker index worker) :: rest ∧
        chosen.play past = some before ∧ before.step missed (.worker index worker) = some after ∧
        Attributed index worker node call driven entry lease (chosen.account index worker past)
          (chosen.written index worker past) (chosen.happened index worker past) before after := by
  induction moves using List.reverseRecOn generalizing world with
  | nil =>
    cases ran
    exact Or.inl ⟨call, driven, entry, _, stationed, .refl .., .chosen, unfailed,
      by simp [written, account, gather, Occurrence.lines], by simp [happened, account, gather]⟩
  | append_singleton moves last ih =>
    obtain ⟨missed, move⟩ := last
    obtain ⟨before, played, stepped⟩ := play_last ran
    rcases ih played with underway | ⟨past, missed', rest, at_, after, rfl, split⟩
    · have owned := (fresh.play (play_trans led played)).1
      rcases underway.step owned plain stepped with goes | ⟨rfl, attributed⟩
      · left
        simpa only [account, written, happened, gather_concat _ played stepped] using goes
      · exact Or.inr ⟨moves, missed, [], before, world, rfl, played, stepped, attributed⟩
    · exact Or.inr ⟨past, missed', rest ++ [(missed, move)], at_, after, by simp, split⟩

/-- **The failure of a node.** Whatever an action does, whenever the log raises faults and
whoever else makes steps: a worker that was handed an unfailed node goes on to execute it
and completes it in one step. Then the account of its own steps tells that it invoked the
action just if the start was logged, that it gave the end to the log just if the action
returned, and with which failure the node ended: the first one, if there was any. -/
theorem node_failure_attributed {start chosen : World} {earlier moves : List (Bool × Move)}
    {lease : Lease} (fresh : start.Start) (led : start.play earlier = some chosen)
    (stationed : chosen.Stationed index worker node call driven entry (.chosen lease node))
    (plain : driven.hooks = {}) (unfailed : entry.node.failure = none)
    (ran : chosen.play moves = some world) :
    (∃ phase, world.phase? index worker = some phase ∧ phase.Executes lease node) ∨
      ∃ past missed rest before after, moves = past ++ (missed, .worker index worker) :: rest ∧
        chosen.play past = some before ∧ before.step missed (.worker index worker) = some after ∧
        Attributed index worker node call driven entry lease (chosen.account index worker past)
          (chosen.written index worker past) (chosen.happened index worker past) before after := by
  refine (stationed.run fresh led plain unfailed ran).imp_left fun underway => ?_
  obtain ⟨later, last, final, phase, stationed, _, progress, _⟩ := underway
  refine ⟨phase, by simp [phase?, stationed.found, stationed.there], ?_⟩
  generalize chosen.account index worker moves = account at progress
  cases progress <;> exact ⟨rfl, rfl⟩

private def edition : Plan := (Plan.empty "edition" 0 true).attach "typeset" [] ["case"]

private theorem edition_built : edition.Built := by
  have only : (Plan.empty "edition" 0 true).add "typeset" [] ["case"] = .ok edition := rfl
  exact .add (.empty "edition" 0 true) only

private def smudged : Failure := { Failure.execution "smudged" with details := [("cause", "ink")] }

private def typesetting : Action := fun _ => [.fail smudged, .err (.execution "torn")]

private def full : Sink := fun _ event =>
  match event with
  | .nodeCompleted .. => some (.runtime "log full")
  | _ => none

private def typesetter : Call :=
  { executor := { workers := 1, root := { tree := 0, place := 0 }, gate := 0, sink := some full }
    plan := 0
    action := some typesetting }

private def workshop : World :=
  { opening 1 [(edition, typesetting, 1)] with calls := [typesetter] }

private theorem workshop_start : workshop.Start := by
  have start : (opening 1 [(edition, typesetting, 1)]).Start :=
    opening_start Nat.one_pos (by simp [edition_built])
  have called {index : Nat} {call : Call} (found : workshop.calls[index]? = some call) :
      call = typesetter := by
    match index, found with
    | 0, rfl => rfl
  refine ⟨start.table, start.reached, start.idle, start.throwing, ?_, ?_, ?_, rfl⟩
  · intro index call found
    cases called found
    exact ⟨rfl, rfl, rfl, rfl, rfl⟩
  · intro index call found
    cases called found
    exact ⟨_, rfl⟩
  · intro index call found
    cases called found
    exact ⟨{ name := "leases", budget := 1 },
      congrArg (·[0]?) (opening_tree Nat.one_pos [(edition, typesetting, 1)])⟩

private def intake : List (Bool × Move) :=
  List.replicate 3 (false, .caller 0) ++ List.replicate 2 (false, .worker 0 0)

private def typesets : List (Bool × Move) := List.replicate 4 (false, .worker 0 0)

private def handed (world : World) : Option (Lease × Nat × Option Failure) :=
  (world.calls[0]?).bind fun call => (world.plans[call.plan]?).bind fun driven =>
    (call.workers[0]?).bind fun phase => (driven.plan.entries[0]?).bind fun entry =>
      match phase with
      | .chosen lease node => some (lease, node, entry.node.failure)
      | _ => none

private def settled? (world : World) : Option (Option (State × Option Failure) × Bool) :=
  (world.phase? 0 0).bind fun phase =>
    match phase with
    | .choosing lease none =>
      some ((world.entryAt 0 0).map fun entry => (entry.node.state, entry.node.failure),
        world.locks.isLocked (.lease lease))
    | _ => none

theorem typesetter_attributed : ∃ chosen world call driven entry lease,
    workshop.Start ∧ workshop.play intake = some chosen ∧
    chosen.Stationed 0 0 0 call driven entry (.chosen lease 0) ∧ driven.hooks = {} ∧
    entry.node.failure = none ∧ chosen.play typesets = some world ∧
    (world.entryAt 0 0).map (fun entry => (entry.node.state, entry.node.failure)) =
      some (.failed, some { smudged with details := [("cause", "ink"), ("node_id", "typeset")] }) ∧
    ∃ past missed rest before after, typesets = past ++ (missed, .worker 0 0) :: rest ∧
      chosen.play past = some before ∧ before.step missed (.worker 0 0) = some after ∧
      Attributed 0 0 0 call driven entry lease (chosen.account 0 0 past)
        (chosen.written 0 0 past) (chosen.happened 0 0 past) before after := by
  have opens : (workshop.play intake).bind handed = some ({ tree := 0, place := 1 }, 0, none) := by
    decide +kernel
  have ends : (workshop.play (intake ++ typesets)).bind settled? = some (some (.failed,
      some { smudged with details := [("cause", "ink"), ("node_id", "typeset")] }), false) := by
    decide +kernel
  obtain ⟨chosen, led, opens⟩ := Option.bind_eq_some_iff.mp opens
  obtain ⟨world, ran, ends⟩ := Option.bind_eq_some_iff.mp ends
  rw [play_append, led, Option.bind_some] at ran
  obtain ⟨call, found, opens⟩ := Option.bind_eq_some_iff.mp opens
  obtain ⟨driven, planned, opens⟩ := Option.bind_eq_some_iff.mp opens
  obtain ⟨phase, there, opens⟩ := Option.bind_eq_some_iff.mp opens
  obtain ⟨entry, present, opens⟩ := Option.bind_eq_some_iff.mp opens
  have plain : driven.hooks = {} := by
    have follows := (workshop_start.play led).2
    obtain ⟨later, found', _, place, _⟩ := follows.calls 0 typesetter rfl
    obtain ⟨known, planned', hooks, _⟩ := follows.plans 0 { plan := edition } rfl
    cases Option.some.inj (found.symm.trans found')
    rw [place] at planned
    cases Option.some.inj (planned.symm.trans planned')
    exact hooks
  split at opens
  next lease node =>
    simp only [Option.some.injEq, Prod.mk.injEq] at opens
    obtain ⟨rfl, rfl, unfailed⟩ := opens
    have stationed : chosen.Stationed 0 0 0 call driven entry _ := ⟨found, planned, there, present⟩
    refine ⟨chosen, world, call, driven, entry, _, workshop_start, led, stationed, plain, unfailed,
      ran, ?_, ?_⟩
    · obtain ⟨phase, at_, ends⟩ := Option.bind_eq_some_iff.mp ends
      split at ends
      · exact (Prod.mk.inj (Option.some.inj ends)).1
      · cases ends
    · refine (node_failure_attributed workshop_start led stationed plain unfailed ran).resolve_left ?_
      rintro ⟨phase, at_, executes⟩
      obtain ⟨phase', at', ends⟩ := Option.bind_eq_some_iff.mp ends
      cases Option.some.inj (at_.symm.trans at')
      split at ends
      · exact executes
      · cases ends
  · cases opens

end World
end Executor
end Foreman
