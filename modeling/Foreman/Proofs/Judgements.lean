import Foreman.Proofs.Blame
import Foreman.Proofs.PlanBooks
import Foreman.Proofs.Traces

/-! What actions make of their nodes. While nobody asks for cancellation, a node that
was executed ends with the failure that its action records, and the call hands out
the failures of its nodes once they are all terminal. -/

namespace Foreman

open Executor

/-- The failure that is left when all these instructions were followed. -/
def Executor.verdict (rest : List Instruction) : Option Failure :=
  rest.findSome? Instruction.failure?

/-- The failure that the action of a node leaves, by the id of the node. -/
def Executor.judgement (action : Action) (id : String) : Option Failure :=
  (verdict (action id)).map (·.withDetail "node_id" id)

def Node.Judged (action : Action) (node : Node) : Prop :=
  match node.state with
  | .notReady | .ready | .skipped => node.failure = none
  | .executing => True
  | .succeeded => node.failure = none ∧ judgement action node.id = none
  | .failed => node.failure.isSome = true ∧ node.failure = judgement action node.id

namespace Plan

variable {plan before after : Plan} {position : Nat} {entry : Entry} {action : Action}
  {node : Option Nat} {lease : Lease}

def Judged (action : Action) (plan : Plan) : Prop :=
  ∀ (position : Nat) (entry : Entry), plan.entries[position]? = some entry →
    entry.node.Judged action

def Spares (before : Plan) (node : Option Nat) (after : Plan) : Prop :=
  ∀ (position : Nat) (entry later : Entry), node ≠ some position →
    before.entries[position]? = some entry → after.entries[position]? = some later →
    later.node.failure = entry.node.failure

theorem Drifts.spares (drifts : before.Drifts after) : before.Spares node after :=
  fun position entry later _ found again => (drifts.node position entry later found again).failure

private theorem judged_drift {first last : Node} (judged : first.Judged action)
    (drift : first.Drifts last) (id : last.id = first.id) : last.Judged action := by
  have failure := drift.failure
  rcases drift.state with same | ⟨free, moved⟩
  · simp only [Node.Judged, same, failure, id]
    exact judged
  · have none : first.failure = none := by
      simp only [Node.Judged] at judged
      cases state : first.state with
      | notReady | ready =>
        simp only [state] at judged
        exact judged
      | executing | succeeded | failed | skipped => simp [state, State.isUnscheduled] at free
    rcases moved with ready | skipped
    · simp only [Node.Judged, ready, failure, none]
    · simp only [Node.Judged, skipped, failure, none]

theorem Judged.drift (judged : before.Judged action) (drifts : before.Drifts after) :
    after.Judged action := by
  intro position entry found
  obtain ⟨earlier, present, links, drift⟩ := drifts.back found
  exact judged_drift (judged position earlier present) drift links.id

theorem Judged.hand (judged : plan.Judged action) (valid : plan.Valid)
    (found : plan.entries[position]? = some entry) (ready : entry.node.state = .ready) :
    (plan.hand lease position entry).Judged action := by
  have lookup := (Replaces.hand valid.coherent lease found ready).lookup
  intro other later present
  rw [lookup] at present
  split at present
  · cases present
    trivial
  · exact judged other later present

theorem hand_spares (valid : plan.Valid) (found : plan.entries[position]? = some entry)
    (ready : entry.node.state = .ready) : plan.Spares node (plan.hand lease position entry) := by
  have lookup := (Replaces.hand valid.coherent lease found ready).lookup
  intro other earlier later _ present again
  rw [lookup] at again
  split at again
  next own =>
    cases again
    cases Option.some.inj (found.symm.trans (own ▸ present))
    rfl
  · rw [Option.some.inj (present.symm.trans again)]

theorem failAll_spares (plan : Plan) (position : Nat) (failures : List Failure) :
    plan.Spares (some position) (plan.failAll position failures) := by
  intro other earlier later differs present again
  rw [failAll_lookup, present, Option.map_some, if_neg fun same => differs (congrArg some same)]
    at again
  rw [Option.some.inj again]

theorem failAll_touches (plan : Plan) (position : Nat) (failures : List Failure) :
    plan.Touches (plan.failAll position failures) :=
  .foldl (fun _ _ => ⟨_, _, _, rfl⟩) failures plan

theorem Judged.failAll (judged : plan.Judged action)
    (executing : plan.state? position = some .executing) (failures : List Failure) :
    (plan.failAll position failures).Judged action := by
  intro other entry found
  rw [failAll_lookup] at found
  obtain ⟨earlier, present, rfl⟩ := Option.map_eq_some_iff.mp found
  split
  next same =>
    subst same
    have state := Option.some.inj ((state?_eq present).symm.trans executing)
    simp only [Node.Judged, state]
  · exact judged other earlier present

theorem Ends.spares (ends : before.Ends position entry after) :
    before.Spares (some position) after := by
  intro other earlier later differs present again
  exact (ends.others other earlier later (fun same => differs (same ▸ rfl)) present again).failure

theorem Judged.ends (judged : before.Judged action) (found : before.entries[position]? = some entry)
    (ends : before.Ends position entry after)
    (fitting : entry.node.failure = judgement action entry.node.id) : after.Judged action := by
  intro other later again
  obtain ⟨earlier, present, links⟩ := ends.keeps.back again
  by_cases own : other = position
  · subst own
    cases Option.some.inj (found.symm.trans present)
    obtain ⟨closed, known, failure, _, state⟩ := ends.own
    cases Option.some.inj (known.symm.trans again)
    cases failed : entry.node.failure with
    | none =>
      simp only [failed, Option.isSome_none, Bool.false_eq_true, if_false] at state
      simp only [Node.Judged, state, links.id]
      exact ⟨failure.trans failed, fitting.symm.trans failed⟩
    | some reason =>
      simp only [failed, Option.isSome_some, if_true] at state
      simp only [Node.Judged, state, links.id]
      exact ⟨by simp [failure, failed], failure.trans fitting⟩
  · exact judged_drift (judged other earlier present)
      (ends.others other earlier later own present again) links.id

theorem complete_touches (rule : plan.continueOnFailure = true) (position : Nat) (locks : Locks) :
    plan.Touches (plan.complete position locks).1 := by
  unfold complete
  split
  · exact .refl plan
  next entry found =>
    have cleared : plan.Touches (plan.modifyNode position fun node => { node with held := [] }) :=
      ⟨_, _, _, rfl⟩
    have marked (state : State) : plan.Touches
        ((plan.modifyNode position fun node => { node with held := [] }).markTerminal position state) :=
      ⟨_, _, _, rfl⟩
    simp only
    split
    · unfold finish
      split
      · have kept : ((plan.modifyNode position fun node =>
            { node with held := [] }).markTerminal position .failed).continueOnFailure = true := rule
        simp only [kept, if_true]
        exact (marked .failed).trans (.foldl skip_touches _ _)
      · exact (marked .succeeded).trans (.foldl meet_touches _ _)
    · exact cleared

end Plan

namespace Executor

variable {index worker : Nat} {before polled later : Corner} {phase next : Phase}
  {events history : List Happening} {action : Action} {earlier : List Failure} {plan after : Plan}
  {lease : Lease}

/-- The failure of the node of a worker in this phase, together with those that its
action is still to record, is the one that its action leaves. -/
def Phase.Judged (action : Action) (plan : Plan) (phase : Phase) : Prop :=
  ∀ (position : Nat) (entry : Entry), phase.node? = some position →
    plan.entries[position]? = some entry →
    match phase with
    | .chosen .. => entry.node.failure = none
    | .acting _ _ rest _ =>
      (entry.node.failure <|> (verdict rest).map (·.withDetail "node_id" entry.node.id)) =
        judgement action entry.node.id
    | .completing .. => entry.node.failure = judgement action entry.node.id
    | .hired | .choosing .. | .retiring _ | .failing .. | .gone _ => True

theorem Phase.Judged.outlasts {node : Option Nat} (judged : phase.Judged action plan)
    (keeps : plan.Keeps after) (spares : plan.Spares node after)
    (apart : ∀ position, phase.node? = some position → node ≠ some position) :
    phase.Judged action after := by
  intro position entry owns found
  obtain ⟨old, present, links⟩ := keeps.back found
  have same := spares position old entry (apart position owns) present found
  have before := judged position old owns present
  simp only [same, links.id]
  exact before

theorem Phase.Judged.chosen {position : Nat} {entry : Entry} (judged : plan.Judged action)
    (valid : plan.Valid) (found : plan.entries[position]? = some entry)
    (ready : entry.node.state = .ready) :
    (Phase.chosen lease position).Judged action (plan.hand lease position entry) := by
  have unfailed := judged position entry found
  simp only [Node.Judged, ready] at unfailed
  have handed := (Plan.Replaces.hand valid.coherent lease found ready).lookup position
  rw [if_pos rfl] at handed
  intro _ other own found'
  cases own
  cases Option.some.inj (handed.symm.trans found')
  exact unfailed

theorem Phase.Judged.start {position : Nat} {entry : Entry}
    (judged : (Phase.chosen lease position).Judged action plan)
    (found : plan.entries[position]? = some entry) :
    (Phase.acting lease position (action entry.node.id) none).Judged action plan := by
  intro _ other own found'
  cases own
  cases Option.some.inj (found.symm.trans found')
  have none := judged position entry rfl found
  simp only [none, judgement]
  rfl

/-- The failure that an instruction records is first unless there was one. -/
theorem Phase.Judged.instruct {position : Nat} {instruction : Instruction}
    {rest : List Instruction} {request : Option Request}
    (judged : (Phase.acting lease position (instruction :: rest) none).Judged action plan) :
    (Phase.acting lease position rest request).Judged action
      (plan.failAll position instruction.failure?.toList) := by
  intro _ later own found
  cases own
  rw [Plan.failAll_lookup] at found
  obtain ⟨old, present, rfl⟩ := Option.map_eq_some_iff.mp found
  have before := judged position old rfl present
  simp only [if_pos, verdict, List.findSome?_cons] at before ⊢
  rw [← before]
  cases instruction.failure? <;> cases old.node.failure <;> rfl

theorem Phase.Judged.finish {position : Nat} {rest : List Instruction} {failures : List Failure}
    (judged : (Phase.acting lease position rest none).Judged action plan)
    (same : failures = (rest.head?.bind Instruction.failure?).toList)
    (ends : rest = [] ∨ failures ≠ []) :
    (Phase.completing lease position).Judged action (plan.failAll position failures) := by
  intro _ later own found
  cases own
  rw [Plan.failAll_lookup] at found
  obtain ⟨old, present, rfl⟩ := Option.map_eq_some_iff.mp found
  have before := judged position old rfl present
  simp only [if_pos]
  rw [← before]
  rcases ends with rfl | ends
  · subst same
    simp [verdict]
  · cases rest with
    | nil => exact absurd same ends
    | cons instruction rest =>
      subst same
      simp only [List.head?_cons, Option.bind_some] at ends ⊢
      cases failure : instruction.failure? with
      | none => simp [failure] at ends
      | some reason => simp [verdict, failure]

/-- Actions decide about their nodes: about those that ended and those that are in the
hands of workers. -/
structure Corner.Decided (action : Action) (corner : Corner) : Prop where
  nodes : corner.plan.Judged action
  crew : ∀ (worker : Nat) (phase : Phase), corner.call.workers[worker]? = some phase →
    phase.Judged action corner.plan

def Corner.Reports (earlier : List Failure) (corner : Corner) : Stage → Prop
  | .arriving | .launching | .queueing _ | .reporting | .awaiting _ =>
    corner.call.failures = earlier ∧ corner.plan.collected = false
  | .aborting _ => True
  | .joining _ | .gone _ => corner.call.failures = earlier ++ corner.plan.nodeFailures

structure Corner.Judged (action : Action) (earlier : List Failure) (corner : Corner) : Prop where
  rule : corner.plan.continueOnFailure = true
  unbroken : corner.plan.failures = []
  nodes : corner.plan.Judged action
  blamed : corner.plan.Blamed
  crew : ∀ (worker : Nat) (phase : Phase), corner.call.workers[worker]? = some phase →
    phase.Judged action corner.plan
  stage : corner.Reports earlier corner.call.stage

theorem Corner.Judged.decided (judged : before.Judged action earlier) : before.Decided action :=
  ⟨judged.nodes, judged.crew⟩

theorem Corner.Polls.uncanceled (polls : before.Polls polled) (never : before.canceled = false) :
    polled = before := by
  cases polls with
  | unseen => rfl
  | seen canceled => exact absurd (never.symm.trans canceled) (by decide)

/-- A plan whose nodes are all terminal stays just as it is. -/
private theorem WorkerDeed.still (deed : WorkerDeed index worker before phase events later)
    (plain : before.Plain action) (never : before.canceled = false)
    (told : phase.Told index history) (finished : before.plan.Over)
    (busy : ∀ node, phase.node? = some node → before.plan.state? node = some .executing) :
    later.plan = before.plan := by
  have unowned (node : Nat) : phase.node? ≠ some node := by
    intro owns
    obtain ⟨entry, found, executing⟩ := Plan.entry_of_state? (busy node owns)
    have terminal := finished node entry found
    simp [executing, State.isTerminal] at terminal
  cases deed with
  | settle | retire | stumble => rfl
  | halt polls | park polls => rw [← polls.uncanceled never]; rfl
  | breakdown polls hooked => exact absurd hooked plain.selects
  | select polls unfailed table selects =>
    have terminal := finished.drift polls.drifts _ _ selects.found
    simp [selects.ready, State.isTerminal] at terminal
  | start | refuse | request | instruct | finish | complete | drop => exact absurd rfl (unowned _)
  | fail => exact told.elim

private theorem WorkerDeed.reports (deed : WorkerDeed index worker before phase events later)
    (plain : before.Plain action) (never : before.canceled = false)
    (told : phase.Told index history) (returns : before.Returns before.call.stage)
    (reports : before.Reports earlier before.call.stage)
    (failures : later.call.failures = before.call.failures)
    (collected : later.plan.collected = before.plan.collected)
    (busy : ∀ node, phase.node? = some node → before.plan.state? node = some .executing) :
    later.Reports earlier before.call.stage := by
  cases here : before.call.stage with
  | aborting => trivial
  | arriving | launching | queueing | reporting | awaiting =>
    rw [here] at reports
    exact ⟨failures.trans reports.1, collected.trans reports.2⟩
  | joining | gone =>
    rw [here] at reports returns
    simp only [Corner.Reports, deed.still plain never told returns.2 busy, failures]
    exact reports

theorem WorkerDeed.decided (deed : WorkerDeed index worker before phase events later)
    (there : before.call.workers[worker]? = some phase) (plain : before.Plain action)
    (valid : before.plan.Valid) (never : before.canceled = false)
    (told : phase.Told index history) (decided : before.Decided action)
    (busy : ∀ node, phase.node? = some node → before.plan.state? node = some .executing)
    (sole : ∀ rival other node, before.call.workers[rival]? = some other →
      phase.node? = some node → other.node? = some node → rival = worker) :
    later.Decided action := by
  have keeps := (deed.kept valid).keeps
  have own := decided.crew worker phase there
  have goes {next : Phase} (workers : later.call.workers = before.call.workers.set worker next)
      (nodes : later.plan.Judged action) (spares : before.plan.Spares phase.node? later.plan)
      (fits : next.Judged action later.plan) : later.Decided action := by
    refine ⟨nodes, crew_moved decided.crew workers fits ?_⟩
    intro rival other differs there' judged
    apply judged.outlasts keeps spares
    intro position owns same
    exact differs (sole rival other position there' same owns)
  -- most steps leave the plan as it is
  have quietly {next : Phase} (workers : later.call.workers = before.call.workers.set worker next)
      (plan : later.plan = before.plan) (fits : next.Judged action before.plan) :
      later.Decided action := by
    refine goes workers (plan ▸ decided.nodes) ?_ (plan ▸ fits)
    rw [plan]
    exact (Plan.Drifts.refl _).spares
  cases deed with
  | settle | retire => exact quietly rfl rfl (by intro _ _ none; cases none)
  | halt polls | park polls =>
    cases polls.uncanceled never
    exact quietly rfl rfl (by intro _ _ none; cases none)
  | breakdown polls hooked => exact absurd hooked plain.selects
  | @select lease parked polled node entry pass final polls unfailed table selects =>
    cases polls.uncanceled never
    exact goes rfl (decided.nodes.hand valid selects.found selects.ready)
      (Plan.hand_spares valid selects.found selects.ready)
      (.chosen decided.nodes valid selects.found selects.ready)
  | @start lease node entry action' found given =>
    cases Option.some.inj (plain.action.symm.trans given)
    exact quietly rfl rfl (own.start found)
  | refuse reason => exact absurd reason plain.starts
  | request => exact quietly rfl rfl own
  | @instruct lease node instruction rest request =>
    exact goes rfl (decided.nodes.failAll (busy node rfl) _) (Plan.failAll_spares _ _ _)
      own.instruct
  | @finish lease node rest failures final =>
    have fits := final.resolve_left (by simp [never])
    obtain ⟨same, some_⟩ := fits.resolve_left plain.quiet
    exact goes rfl (decided.nodes.failAll (busy node rfl) _) (Plan.failAll_spares _ _ _)
      (own.finish same some_)
  | @complete lease node =>
    obtain ⟨entry, found, executing⟩ := Plan.entry_of_state? (busy node rfl)
    have ends := (Plan.complete_executing valid found executing before.locks).2
    exact goes rfl (decided.nodes.ends found ends (own node entry rfl found)) ends.spares
      (by intro _ _ none; cases none)
  | drop found hooked => exact absurd hooked plain.completes
  | stumble raises => exact absurd raises plain.quiet
  | fail => exact told.elim

theorem WorkerDeed.judged (deed : WorkerDeed index worker before phase events later)
    (there : before.call.workers[worker]? = some phase) (plain : before.Plain action)
    (valid : before.plan.Valid) (never : before.canceled = false)
    (traced : before.Traced index history) (judged : before.Judged action earlier)
    (busy : ∀ node, phase.node? = some node → before.plan.state? node = some .executing)
    (sole : ∀ rival other node, before.call.workers[rival]? = some other →
      phase.node? = some node → other.node? = some node → rival = worker) :
    later.Judged action earlier := by
  have told := traced.crew worker phase there
  have decided := deed.decided there plain valid never told judged.decided busy sole
  have goes (stage : later.call.stage = before.call.stage)
      (failures : later.call.failures = before.call.failures)
      (touches : before.plan.Touches later.plan) (blamed : later.plan.Blamed) :
      later.Judged action earlier := by
    have books : later.plan.failures = before.plan.failures ∧
        later.plan.collected = before.plan.collected := by
      obtain ⟨_, _, _, same⟩ := touches
      rw [same]
      exact ⟨rfl, rfl⟩
    refine ⟨(deed.kept valid).keeps.rule.trans judged.rule, books.1.trans judged.unbroken,
      decided.nodes, blamed, decided.crew, ?_⟩
    rw [stage]
    exact deed.reports plain never told traced.stage judged.stage failures books.2 busy
  cases deed with
  | settle | retire | start | request => exact goes rfl rfl (.refl _) judged.blamed
  | halt polls | park polls =>
    cases polls.uncanceled never
    exact goes rfl rfl (.refl _) judged.blamed
  | breakdown polls hooked => exact absurd hooked plain.selects
  | select polls unfailed table selects =>
    cases polls.uncanceled never
    exact goes rfl rfl ⟨_, _, _, rfl⟩ (judged.blamed.hand valid selects.found selects.ready)
  | refuse reason => exact absurd reason plain.starts
  | instruct | finish =>
    exact goes rfl rfl (Plan.failAll_touches _ _ _) (judged.blamed.failAll _ _)
  | @complete lease node =>
    obtain ⟨entry, found, executing⟩ := Plan.entry_of_state? (busy node rfl)
    exact goes rfl rfl (Plan.complete_touches judged.rule _ _)
      (judged.blamed.complete valid judged.rule found executing _)
  | drop found hooked => exact absurd hooked plain.completes
  | stumble raises => exact absurd raises plain.quiet
  | fail => exact told.elim

theorem CallerDeed.decided (deed : CallerDeed before before.call.stage later)
    (plain : before.Plain action) (valid : before.plan.Valid)
    (returns : before.Returns before.call.stage) (decided : before.Decided action) :
    later.Decided action := by
  generalize before.call.stage = stage at deed returns
  -- the plan with its nodes has only drifted
  have drifts (drifts : before.plan.Drifts later.plan)
      (workers : later.call.workers = before.call.workers) : later.Decided action := by
    refine ⟨decided.nodes.drift drifts, ?_⟩
    intro worker phase there
    rw [workers] at there
    exact (decided.crew worker phase there).outlasts drifts.keeps
      (show before.plan.Spares none later.plan from drifts.spares) fun _ _ => by simp
  cases deed with
  | register | report | wait | depart => exact ⟨decided.nodes, decided.crew⟩
  | launch =>
    refine ⟨decided.nodes, ?_⟩
    intro worker phase there position entry owns
    simp only [Corner.withStage, List.getElem?_replicate, Option.ite_none_right_eq_some] at there
    cases there.2
    cases owns
  | giveUp raises => exact absurd raises plain.quiet
  | queue polls =>
    exact drifts (polls.drifts.trans (polls.valid valid).populate.2.1) rfl
  | collapse polls hooked => exact absurd hooked plain.populates
  | collect => exact drifts (Plan.collect_drifts _) rfl
  | abort => exact returns.elim

theorem CallerDeed.judged (deed : CallerDeed before before.call.stage later)
    (plain : before.Plain action) (valid : before.plan.Valid) (never : before.canceled = false)
    (traced : before.Traced index history) (judged : before.Judged action earlier) :
    later.Judged action earlier := by
  have returns := traced.stage
  have reports := judged.stage
  have rule := (deed.kept valid).keeps.rule.trans judged.rule
  obtain ⟨nodes, crew⟩ := deed.decided plain valid returns judged.decided
  generalize before.call.stage = stage at deed returns reports
  cases deed with
  | register | launch | report | wait | depart =>
    exact ⟨rule, judged.unbroken, nodes, judged.blamed, crew, reports⟩
  | giveUp raises => exact absurd raises plain.quiet
  | queue polls =>
    cases polls.uncanceled never
    have books := Plan.books_populate before.plan
    exact ⟨rule, (congrArg (·.2.2) books).trans judged.unbroken, nodes,
      judged.blamed.populate valid, crew, reports.1, (congrArg (·.2.1) books).trans reports.2⟩
  | collapse polls hooked => exact absurd hooked plain.populates
  | collect =>
    have collects : before.plan.collect = (before.plan.nodeFailures ++ [],
        { before.plan with collected := true, failures := [] }) := by
      simp [Plan.collect, reports.2, judged.unbroken]
    refine ⟨rule, ?_, nodes, ?_, crew, ?_⟩
    · simp [Corner.withStage, collects]
    · simp only [Corner.withStage, collects]
      exact judged.blamed
    · simp only [Corner.withStage, Corner.Reports, collects, reports.1, List.append_nil]
      rfl
  | abort => exact returns.elim

theorem Corner.Decided.elsewhere (decided : before.Decided action) (shares : before.Shares later) :
    later.Decided action := by
  refine ⟨shares.plan ▸ decided.nodes, ?_⟩
  rw [shares.call, shares.plan]
  exact decided.crew

theorem Corner.Judged.elsewhere (judged : before.Judged action earlier)
    (shares : before.Shares later) : later.Judged action earlier := by
  obtain ⟨nodes, crew⟩ := judged.decided.elsewhere shares
  obtain ⟨rule, unbroken, _, blamed, _, stage⟩ := judged
  refine ⟨shares.plan ▸ rule, shares.plan ▸ unbroken, nodes, shares.plan ▸ blamed, crew, ?_⟩
  rw [shares.call]
  cases here : before.call.stage with
  | aborting => trivial
  | arriving | launching | queueing | reporting | awaiting | joining | gone =>
    simp only [here, Corner.Reports] at stage
    simp only [Corner.Reports, shares.call, shares.plan]
    exact stage

theorem Corner.Turns.uncanceled {move : Move} (turns : before.Turns index move events later)
    (valid : before.plan.Valid) (never : later.canceled = false) : before.canceled = false := by
  cases canceled : before.canceled with
  | false => rfl
  | true => exact absurd (never.symm.trans ((turns.kept valid).canceled canceled)) (by decide)

namespace World

variable {start world : World} {moves : List (Bool × Move)} {call final : Call} {driven last : Driven}

private theorem Begins.decided_start (begins : start.Begins index call driven action) :
    (start.cornerOf call driven).Decided action := by
  refine ⟨?_, by simp [cornerOf, (begins.fresh.unmade index call begins.found).workers]⟩
  intro position entry found
  simp only [Node.Judged, (begins.built.valid.2.untouched position entry found).1]
  exact begins.built.blank.2.2 position entry found

/-- While nobody asks for cancellation, actions decide about their nodes. -/
theorem Begins.decided (begins : start.Begins index call driven action)
    (ran : start.play moves = some world) (found : world.calls[index]? = some final)
    (planned : world.plans[final.plan]? = some last) (never : world.token.canceled = false) :
    (world.cornerOf final last).Plain action ∧ (world.cornerOf final last).Decided action := by
  refine (begins.sees (fun corner _ => corner.canceled = false → corner.Plain action ∧
    corner.Decided action) ran found planned (fun _ => ⟨begins.plain, begins.decided_start⟩)
      ?_).2 never
  intro world call' driven move events history later lawful plain traced turns kept never
  have before := turns.uncanceled lawful.valid never
  have decided := (kept before).2
  refine ⟨plain.keep (turns.kept lawful.valid), ?_⟩
  cases turns with
  | worker there deed =>
    exact deed.decided there plain lawful.valid before (traced.crew _ _ there) decided
      (lawful.busy _ _ there) fun rival other node => lawful.sole _ rival _ other node there
  | caller deed => exact deed.decided plain lawful.valid traced.stage decided
  | elsewhere shares => exact decided.elsewhere shares

/-- What actions decide about their nodes the call reports, if it goes on after failures. -/
theorem Begins.judged (begins : start.Begins index call driven action)
    (rule : driven.plan.continueOnFailure = true) (ran : start.play moves = some world)
    (found : world.calls[index]? = some final) (planned : world.plans[final.plan]? = some last)
    (never : world.token.canceled = false) :
    (world.cornerOf final last).Judged action call.failures := by
  refine (begins.sees (fun corner _ => corner.canceled = false → corner.Judged action call.failures)
    ran found planned (fun _ => ?_) ?_).2 never
  · obtain ⟨failures, collected, _⟩ := begins.built.blank
    obtain ⟨nodes, crew⟩ := begins.decided_start
    refine ⟨rule, failures, nodes, begins.built.valid.2.open.blamed, crew, ?_⟩
    simp only [cornerOf, (begins.fresh.unmade index call begins.found).stage]
    exact ⟨rfl, collected⟩
  · intro world call' driven move events history later lawful plain traced turns kept never
    have before := turns.uncanceled lawful.valid never
    cases turns with
    | worker there deed =>
      exact deed.judged there plain lawful.valid before traced (kept before) (lawful.busy _ _ there)
        fun rival other node => lawful.sole _ rival _ other node there
    | caller deed => exact deed.judged plain lawful.valid before traced (kept before)
    | elsewhere shares => exact (kept before).elsewhere shares

end World
end Executor
end Foreman
