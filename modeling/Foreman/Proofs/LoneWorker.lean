import Mathlib.Data.List.Induction
import Foreman.Proofs.Lineup
import Foreman.Proofs.LocksLeft
import Foreman.Proofs.RunProgress

/-! Calls with one worker. Whatever order the threads take turns in, the worker comes to the
nodes in the order in which Kahn's algorithm pops them. -/

namespace Foreman

open Executor

namespace Plan

variable {plan before after : Plan} {lease : Lease} {pass later : Pass} {node : Nat} {entry : Entry}
  {action : Action} {phase next : Option Phase} {started : List Nat} {locks : Locks}

/-- While no resource is locked the first node of the queue is selected. -/
theorem Selects.head (selects : plan.Selects lease pass node entry later)
    (single : ∀ (node : Nat) (entry : Entry), plan.entries[node]? = some entry →
      entry.node.resources.Nodup)
    (free : ∀ name, ¬ pass.locks.isLocked (plan.resourceLock name)) :
    ∃ rest, plan.queue = node :: rest := by
  obtain ⟨earlier, rest, queue, blocked⟩ := selects.first
  cases earlier with
  | nil => exact ⟨rest, queue⟩
  | cons other earlier =>
    exfalso
    rcases blocked other List.mem_cons_self with repeated | ⟨lock, member, held⟩
    · apply repeated
      rw [wanted_nodup]
      cases found : plan.entries[other]? with
      | none => simp [resourcesOf, node?, found]
      | some entry =>
        rw [resourcesOf_eq found]
        exact single other entry found
    · obtain ⟨name, _, rfl⟩ := mem_wanted.mp member
      exact free name held

end Plan

namespace Executor

/-- The nodes of a call in the order in which their actions started. -/
def startedNodes (history : List Happening) (call : Nat) : List Nat :=
  history.filterMap fun
    | .started other node => if other = call then some node else none
    | _ => none

/-- The node whose action the worker has started but which is still to be completed. -/
def Phase.begun? : Phase → Option Nat
  | .acting _ node _ _ | .completing _ node => some node
  | .hired | .choosing .. | .chosen .. | .retiring _ | .failing .. | .gone _ => none

theorem Phase.node_of_begun {phase : Phase} {node : Nat} (begun : phase.begun? = some node) :
    phase.node? = some node := by
  cases phase with
  | hired | choosing | chosen | retiring | failing | gone => cases begun
  | acting | completing => exact begun

variable {index worker : Nat} {before polled later : Corner} {phase next : Phase}
  {events history : List Happening} {action : Action} {node : Nat}

theorem startedNodes_append (history events : List Happening) (index : Nat) :
    startedNodes (history ++ events) index =
      startedNodes history index ++ startedNodes events index :=
  List.filterMap_append

theorem startedNodes_silent (silent : ∀ node, .started index node ∉ events) :
    startedNodes events index = [] := by
  rw [startedNodes, List.filterMap_eq_nil_iff]
  intro happening member
  cases happening with
  | selected | ended | raised => rfl
  | started other node =>
    have differs : other ≠ index := fun same => silent node (same ▸ member)
    simp [differs]

/-- The plan of a call with one worker is as far as so many rounds of Kahn's algorithm, and so
are the actions that have started, but for that of the node in hand. -/
structure Corner.AfterRounds (action : Action) (index : Nat) (history : List Happening)
    (corner : Corner) (rounds : Nat) : Prop where
  abreast : corner.plan.Abreast ((corner.plan.chart action).rounds rounds)
    (corner.call.workers.head?.bind (·.node?))
  started : startedNodes history index = ((corner.plan.chart action).rounds rounds).popped ++
    (corner.call.workers.head?.bind (·.begun?)).toList

def Corner.Paced (action : Action) (index : Nat) (history : List Happening) (corner : Corner) :
    Prop :=
  ∃ rounds, corner.AfterRounds action index history rounds

private theorem Corner.Paced.goes (paced : before.Paced action index history)
    (there : before.call.workers = [phase]) (workers : later.call.workers = [next])
    (keeps : before.plan.Keeps later.plan) (silent : ∀ node, .started index node ∉ events)
    (same : ∀ progress, before.plan.Abreast progress phase.node? →
      later.plan.Abreast progress next.node?)
    (begun : next.begun? = phase.begun?) : later.Paced action index (history ++ events) := by
  obtain ⟨rounds, abreast, started⟩ := paced
  simp only [there, List.head?_cons, Option.bind_some] at abreast started
  refine ⟨rounds, ?_, ?_⟩
  · simp only [workers, List.head?_cons, Option.bind_some, keeps.chart]
    exact same _ abreast
  · simp only [workers, List.head?_cons, Option.bind_some, keeps.chart, begun, startedNodes_append,
      startedNodes_silent silent, List.append_nil]
    exact started

private theorem Corner.Paced.starts (paced : before.Paced action index history)
    (there : before.call.workers = [phase]) (workers : later.call.workers = [next])
    (plan : later.plan = before.plan) (hand : next.node? = phase.node?)
    (idle : phase.begun? = none) (begun : next.begun? = some node) :
    later.Paced action index (history ++ [.started index node]) := by
  obtain ⟨rounds, abreast, started⟩ := paced
  simp only [there, List.head?_cons, Option.bind_some, idle, Option.toList_none, List.append_nil]
    at abreast started
  refine ⟨rounds, ?_, ?_⟩
  · simp only [workers, List.head?_cons, Option.bind_some, plan, hand]
    exact abreast
  · simp only [workers, List.head?_cons, Option.bind_some, plan, begun, startedNodes_append, started]
    simp [startedNodes]

/-- The worker completes the node in hand, which ends the round. -/
private theorem Corner.Paced.completes (paced : before.Paced action index history)
    (there : before.call.workers = [phase]) (workers : later.call.workers = [next])
    (keeps : before.plan.Keeps later.plan) (begun : phase.begun? = some node)
    (free : next.node? = none) (idle : next.begun? = none)
    (popped : ∀ progress, before.plan.Abreast progress (some node) →
      later.plan.Abreast ((before.plan.chart action).pop progress) none) :
    later.Paced action index history := by
  obtain ⟨rounds, abreast, started⟩ := paced
  simp only [there, List.head?_cons, Option.bind_some, begun, Phase.node_of_begun begun]
    at abreast started
  refine ⟨rounds + 1, ?_, ?_⟩
  · simp only [workers, List.head?_cons, Option.bind_some, keeps.chart, free]
    exact popped _ abreast
  · simp only [workers, List.head?_cons, Option.bind_some, keeps.chart, idle, Option.toList_none,
      List.append_nil]
    rw [Chart.rounds, Chart.pop_popped abreast.queue, started]
    rfl

private theorem set_only {worker : Nat} (there : before.call.workers[worker]? = some phase)
    (lone : before.call.workers.length ≤ 1) :
    before.call.workers = [phase] ∧ ∀ next, before.call.workers.set worker next = [next] := by
  match workers : before.call.workers with
  | [] => simp [workers] at there
  | _ :: _ :: _ => simp [workers] at lone
  | [other] =>
    rw [workers] at there
    cases worker with
    | zero =>
      cases there
      exact ⟨rfl, fun _ => rfl⟩
    | succ worker => simp at there

theorem WorkerDeed.paced (deed : WorkerDeed index worker before phase events later)
    (there : before.call.workers[worker]? = some phase) (lone : before.call.workers.length ≤ 1)
    (plain : before.Plain action) (valid : before.plan.Valid) (never : before.canceled = false)
    (told : phase.Told index history) (decided : before.Decided action)
    (busy : ∀ node, phase.node? = some node → before.plan.state? node = some .executing)
    (single : ∀ (node : Nat) (entry : Entry), before.plan.entries[node]? = some entry →
      entry.node.resources.Nodup)
    (free : phase.node? = none → ∀ name, ¬ before.locks.isLocked (before.plan.resourceLock name))
    (paced : before.Paced action index history) : later.Paced action index (history ++ events) := by
  have keeps := (deed.kept valid).keeps
  have judged := decided.crew worker phase there
  obtain ⟨only, sets⟩ := set_only there lone
  -- most steps leave the plan and the node in hand as they are
  have quietly {next : Phase} (workers : later.call.workers = before.call.workers.set worker next)
      (silent : ∀ node, .started index node ∉ events) (plan : later.plan = before.plan)
      (node : next.node? = phase.node?) (begun : next.begun? = phase.begun?) :
      later.Paced action index (history ++ events) :=
    paced.goes only (workers.trans (sets next)) keeps silent
      (fun _ abreast => plan ▸ node ▸ abreast) begun
  cases deed with
  | settle | retire => exact quietly rfl (by simp) rfl rfl rfl
  | halt polls | park polls =>
    cases polls.uncanceled never
    exact quietly rfl (by simp) rfl rfl rfl
  | breakdown polls hooked => exact absurd hooked plain.selects
  | @select lease parked polled node entry pass final polls unfailed table selects =>
    cases polls.uncanceled never
    obtain ⟨rest, head⟩ := selects.head single (table ▸ free rfl)
    exact paced.goes only (sets _) keeps (by simp)
      (fun _ abreast => abreast.hand valid selects.found selects.ready head) rfl
  | start found given => exact paced.starts only (sets _) rfl rfl rfl rfl
  | refuse reason => exact absurd reason plain.starts
  | request later kept raised foreign =>
    have silent (node : Nat) : .started index node ∉ events := fun member => by
      cases foreign _ member
    exact quietly rfl silent rfl rfl rfl
  | instruct | finish =>
    exact paced.goes only (sets _) keeps (by simp) (fun _ abreast => abreast.failAll _ _) rfl
  | @complete lease node =>
    obtain ⟨entry, found, executing⟩ := Plan.entry_of_state? (busy node rfl)
    rw [List.append_nil]
    exact paced.completes only (sets _) keeps rfl rfl rfl fun _ abreast =>
      abreast.complete valid found executing (judged node entry rfl found) before.locks
  | drop found hooked => exact absurd hooked plain.completes
  | stumble raises => exact absurd raises plain.quiet
  | fail => exact told.elim

theorem CallerDeed.paced (deed : CallerDeed before before.call.stage later)
    (plain : before.Plain action) (valid : before.plan.Valid) (never : before.canceled = false)
    (returns : before.Returns before.call.stage)
    (early : before.call.stage = .launching → before.call.workers = [])
    (paced : before.Paced action index history) : later.Paced action index history := by
  have keeps := (deed.kept valid).keeps
  obtain ⟨rounds, abreast, started⟩ := paced
  generalize before.call.stage = stage at deed returns early
  cases deed with
  | register | report | wait | depart => exact ⟨rounds, abreast, started⟩
  | launch =>
    have nobody {β : Type} (f : Phase → Option β) (free : f .hired = none) (count : Nat) :
        (List.replicate count Phase.hired).head?.bind f = none := by
      cases count with
      | zero => rfl
      | succ count => exact free
    simp only [early rfl, List.head?_nil, Option.bind_none] at abreast started
    refine ⟨rounds, ?_, ?_⟩
    · simp only [Corner.withStage, nobody (·.node?) rfl]
      exact abreast
    · simp only [Corner.withStage, nobody (·.begun?) rfl]
      exact started
  | giveUp raises => exact absurd raises plain.quiet
  | queue polls =>
    cases polls.uncanceled never
    refine ⟨rounds, ?_, ?_⟩
    · rw [keeps.chart]
      exact abreast.populate valid
    · rw [keeps.chart]
      exact started
  | collapse polls hooked => exact absurd hooked plain.populates
  | collect =>
    refine ⟨rounds, ?_, ?_⟩
    · rw [keeps.chart]
      exact abreast.collect
    · rw [keeps.chart]
      exact started
  | abort => exact returns.elim

theorem Corner.Paced.elsewhere (paced : before.Paced action index history)
    (shares : before.Shares later) (foreign : ∀ happening ∈ events, happening.call? ≠ some index) :
    later.Paced action index (history ++ events) := by
  have silent (node : Nat) : .started index node ∉ events := fun member => foreign _ member rfl
  obtain ⟨rounds, abreast, started⟩ := paced
  refine ⟨rounds, ?_, ?_⟩
  · rw [shares.plan, shares.call]
    exact abreast
  · rw [shares.plan, shares.call, startedNodes_append, startedNodes_silent silent, List.append_nil]
    exact started

/-- The node in hand is the next to be popped. -/
theorem Corner.Paced.so_far (paced : before.Paced action index history) :
    startedNodes history index <+: (before.plan.chart action).order := by
  obtain ⟨rounds, abreast, started⟩ := paced
  rw [started]
  cases begun : before.call.workers.head?.bind (·.begun?) with
  | none =>
    rw [Option.toList_none, List.append_nil]
    exact Chart.rounds_within _ rounds
  | some node =>
    obtain ⟨phase, first, begun⟩ := Option.bind_eq_some_iff.mp begun
    have queue := abreast.queue
    rw [first, Option.bind_some, Phase.node_of_begun begun] at queue
    rw [Option.toList_some, ← Chart.pop_popped queue]
    exact Chart.rounds_within _ (rounds + 1)

theorem Corner.Paced.in_the_end (paced : before.Paced action index history)
    (valid : before.plan.Valid) (finished : before.plan.Over)
    (idle : ∀ phase ∈ before.call.workers, phase.node? = none) :
    startedNodes history index = (before.plan.chart action).order := by
  obtain ⟨rounds, abreast, started⟩ := paced
  have nobody : before.call.workers.head?.bind (·.node?) = none := by
    rw [Option.bind_eq_none_iff]
    exact fun phase first => idle phase (List.mem_of_head? first)
  have unbegun : before.call.workers.head?.bind (·.begun?) = none := by
    rw [Option.bind_eq_none_iff]
    intro phase first
    rw [Option.eq_none_iff_forall_ne_some]
    intro node begun
    have owns := Phase.node_of_begun begun
    simp [idle phase (List.mem_of_head? first)] at owns
  have empty := abreast.queue
  rw [nobody, finished.lineup valid] at empty
  rw [started, unbegun, Option.toList_none, List.append_nil]
  exact Chart.order_eq empty

namespace World

variable {start world : World} {moves : List (Bool × Move)} {call final : Call}
  {driven last : Driven}

/-- The call has one worker, and nobody else uses the tree of its leases or the resources of
its plan, of which no node lists one twice. -/
structure Solitary (start : World) (index : Nat) (call : Call) (driven : Driven) : Prop where
  workers : call.executor.workers = 1
  tree : ∀ (other : Nat) (rival : Call), start.calls[other]? = some rival →
    rival.executor.root.tree = call.executor.root.tree → other = index
  unleased : ∀ lease : Lease, lease.tree = call.executor.root.tree →
    ¬ start.locks.isLocked (.lease lease)
  reserved : start.Reserved index driven.plan.scope
  single : ∀ (node : Nat) (entry : Entry), driven.plan.entries[node]? = some entry →
    entry.node.resources.Nodup

theorem Solitary.alert (solitary : start.Solitary index call driven)
    (begins : start.Begins index call driven action) (ran : start.play moves = some world)
    (found : world.calls[index]? = some final) (planned : world.plans[final.plan]? = some last) :
    (world.cornerOf final last).Alert := by
  refine begins.fresh.alert_alone begins.alone ?_ ran found planned
  intro other known node entry present there
  cases Option.some.inj (begins.found.symm.trans present)
  cases Option.some.inj (begins.planned.symm.trans there)
  exact solitary.single node entry

theorem Solitary.lone (solitary : start.Solitary index call driven)
    (begins : start.Begins index call driven action) (ran : start.play moves = some world)
    (found : world.calls[index]? = some final) : final.executor = call.executor ∧
      final.workers.length ≤ 1 := by
  obtain ⟨owned, follows⟩ := begins.fresh.play ran
  obtain ⟨first, present, executor, _⟩ := follows.origins index final found
  cases Option.some.inj (begins.found.symm.trans present)
  refine ⟨executor, ?_⟩
  rcases (owned.staffed index final found).crew with none | one
  · simp [none]
  · exact Nat.le_of_eq (by rw [one, executor, solitary.workers])

/-- Nothing that the worker may need is taken while it owns no node. -/
theorem Solitary.uncontended (solitary : start.Solitary index call driven)
    (begins : start.Begins index call driven action) (ran : start.play moves = some world)
    (found : world.calls[index]? = some final) (planned : world.plans[final.plan]? = some last)
    (idle : ∀ phase ∈ final.workers, phase.node? = none) :
    ¬ (world.cornerOf final last).Contended := by
  obtain ⟨owned, follows⟩ := begins.fresh.play ran
  have unowned : ¬ ∃ worker lease place node, world.Owns index worker lease place node := by
    rintro ⟨worker, lease, place, node, phase, ⟨other, present, _, there⟩, _, owns⟩
    cases Option.some.inj (found.symm.trans present)
    simp [idle phase (List.mem_of_getElem? there)] at owns
  obtain ⟨first, present, executor, place, _⟩ := follows.origins index final found
  cases Option.some.inj (begins.found.symm.trans present)
  rintro (⟨lease, tree, locked⟩ | ⟨name, locked⟩)
  · have mine : lease.tree = call.executor.root.tree := executor ▸ tree
    obtain ⟨other, worker, own, place, node, known, owns, _, cause⟩ :=
      begins.fresh.engaged ran (solitary.unleased lease mine) locked
    rcases cause with same | ⟨name, same⟩
    · cases same
      obtain ⟨_, _, rival, there, same⟩ := owned.leased _ _ _ owns.leases
      obtain ⟨earlier, there, executor, _⟩ := follows.origins other rival there
      cases solitary.tree other earlier there (executor ▸ same.symm.trans mine)
      exact unowned ⟨worker, _, place, node, owns⟩
    · cases same
  · obtain ⟨later, planned', _, keeps⟩ := follows.plans _ _ begins.planned
    rw [← place] at planned'
    cases Option.some.inj (planned.symm.trans planned')
    simp only [cornerOf, keeps.resourceLock] at locked
    exact unowned (solitary.reserved.owned begins.fresh ran locked)

theorem Begins.paced (begins : start.Begins index call driven action)
    (solitary : start.Solitary index call driven) (ran : start.play moves = some world)
    (found : world.calls[index]? = some final) (planned : world.plans[final.plan]? = some last)
    (never : world.token.canceled = false) :
    (world.cornerOf final last).Paced action index world.history := by
  induction moves using List.reverseRecOn generalizing world final last with
  | nil =>
    cases ran
    cases Option.some.inj (begins.found.symm.trans found)
    cases Option.some.inj (begins.planned.symm.trans planned)
    refine ⟨0, ?_, ?_⟩
    · simp only [cornerOf, (begins.fresh.unmade index call found).workers]
      exact begins.built.valid.2.abreast action
    · simp only [cornerOf, (begins.fresh.unmade index call found).workers, begins.fresh.history]
      rfl
  | append_singleton moves step ih =>
    obtain ⟨missed, move⟩ := step
    obtain ⟨before, played, stepped⟩ := play_last ran
    obtain ⟨active, later, known, last', events, sight⟩ :=
      begins.fresh.sight begins.alone begins.found played stepped
    cases Option.some.inj (found.symm.trans sight.found_after)
    cases Option.some.inj (planned.symm.trans (sight.plan_after ▸ sight.planned_after))
    have there : before.plans[active.plan]? = some known := sight.plan ▸ sight.planned
    have never' := sight.turns.uncanceled sight.lawful.valid never
    obtain ⟨plain, decided⟩ := begins.decided played sight.found there never'
    have traced := begins.traced played sight.found there
    have paced := ih played sight.found there never'
    have lone := (solitary.lone begins played sight.found).2
    rw [sight.history]
    have turns := sight.turns
    cases turns with
    | worker at_ deed =>
      have only : active.workers = [_] := (set_only at_ lone).1
      refine deed.paced at_ lone plain sight.lawful.valid never' (traced.crew _ _ at_) decided
        (sight.lawful.busy _ _ at_) (solitary.alert begins played sight.found there).single ?_ paced
      intro idle name locked
      have free : ∀ phase ∈ active.workers, phase.node? = none := by
        intro phase member
        rw [only, List.mem_singleton] at member
        exact member ▸ idle
      exact solitary.uncontended begins played sight.found there free (Or.inr ⟨name, locked⟩)
    | caller deed =>
      rw [List.append_nil]
      exact deed.paced plain sight.lawful.valid never' traced.stage
        (fun launching => sight.lawful.staffed.early (Or.inr launching)) paced
    | elsewhere shares foreign => exact paced.elsewhere shares foreign

/-- **One worker.** A call whose log raises no faults works with one worker on a plan of which
no node lists a resource twice, and nobody else uses the tree of its leases. Whatever order
the threads take turns in, while nobody asks for cancellation: the nodes whose actions have
started are the first of those that Kahn's algorithm pops from a queue that is first in,
first out, and in that order. When the call has ended they are all of them, and also when
no thread can go on and no action waits for others. -/
theorem lone_worker_in_order (begins : start.Begins index call driven action)
    (solitary : start.Solitary index call driven) (ran : start.play moves = some world)
    (found : world.calls[index]? = some final) (never : world.token.canceled = false) :
    startedNodes world.history index <+: (driven.plan.chart action).order ∧
      (final.Ended ∨ world.Stuck →
        startedNodes world.history index = (driven.plan.chart action).order) := by
  obtain ⟨owned, follows⟩ := begins.fresh.play ran
  obtain ⟨last, planned⟩ := owned.planned index final found
  have lawful := owned.lawful found planned
  have paced := begins.paced solitary ran found planned never
  have chart : last.plan.chart action = driven.plan.chart action := by
    obtain ⟨_, present, _, place, _⟩ := follows.origins index final found
    cases Option.some.inj (begins.found.symm.trans present)
    obtain ⟨_, known, _, keeps⟩ := follows.plans _ _ begins.planned
    cases Option.some.inj (planned.symm.trans (place ▸ known))
    exact keeps.chart action
  rw [← chart]
  refine ⟨paced.so_far, fun finished => ?_⟩
  have ended : final.Ended := by
    refine finished.elim id fun stuck => ?_
    have idle : ∀ phase ∈ final.workers, phase.node? = none := by
      intro phase member
      obtain ⟨worker, there⟩ := List.getElem?_of_mem member
      rcases stuck.parked owned ⟨final, found, rfl, there⟩ with ⟨fault, rfl⟩ | ⟨lease, rfl⟩ <;> rfl
    apply stuck.ended owned found planned (solitary.alert begins ran found planned)
      (solitary.uncontended begins ran found planned idle)
    rw [(solitary.lone begins ran found).1, solitary.workers]
    exact Nat.one_pos
  obtain ⟨fault, gone⟩ := ended
  have returns := (begins.traced ran found planned).stage
  simp only [cornerOf, gone] at returns
  apply paced.in_the_end lawful.valid returns.2
  intro phase member
  obtain ⟨fault, rfl⟩ := lawful.staffed.emptied fault gone phase member
  rfl

private def clothing : Plan :=
  ((((Plan.empty "clothing" 0 true).attach "spin" [] []).attach "weave" [0, 0] ["loom"]).attach
    "dye" [] ["vat"]).attach "sew" [1, 2] ["loom"]

private theorem clothing_built : clothing.Built := by
  have first : (Plan.empty "clothing" 0 true).add "spin" [] [] =
      .ok ((Plan.empty "clothing" 0 true).attach "spin" [] []) := rfl
  have second : ((Plan.empty "clothing" 0 true).attach "spin" [] []).add "weave" ["spin", "spin"]
      ["loom"] = .ok (((Plan.empty "clothing" 0 true).attach "spin" [] []).attach "weave" [0, 0]
        ["loom"]) := rfl
  have third : (((Plan.empty "clothing" 0 true).attach "spin" [] []).attach "weave" [0, 0]
      ["loom"]).add "dye" [] ["vat"] = .ok ((((Plan.empty "clothing" 0 true).attach "spin" []
        []).attach "weave" [0, 0] ["loom"]).attach "dye" [] ["vat"]) := rfl
  have fourth : ((((Plan.empty "clothing" 0 true).attach "spin" [] []).attach "weave" [0, 0]
      ["loom"]).attach "dye" [] ["vat"]).add "sew" ["weave", "dye"] ["loom"] = .ok clothing := rfl
  exact .add (.add (.add (.add (.empty "clothing" 0 true) first) second) third) fourth

private def weaver : Action := fun id => if id = "weave" then [.err (.execution "torn")] else []

private def weaving : Call :=
  { executor := { workers := 1, root := { tree := 0, place := 0 }, gate := 0 }
    plan := 0
    action := some weaver }

private def workday : List (Bool × Move) :=
  let caller (count : Nat) : List (Bool × Move) := List.replicate count (false, .caller 0)
  let worker (count : Nat) : List (Bool × Move) := List.replicate count (false, .worker 0 0)
  caller 2 ++ worker 2 ++ caller 3 ++ worker 14 ++ caller 2

private def closing? (world : World) : Option Bool :=
  (world.calls[0]?).bind fun final =>
    match final.stage with
    | .gone _ => some world.token.canceled
    | _ => none

theorem clothing_in_order : ∃ world final,
    (opening 1 [(clothing, weaver, 1)]).play workday = some world ∧
    world.calls[0]? = some final ∧ final.Ended ∧ startedNodes world.history 0 = [0, 2, 1] := by
  have runs : ((opening 1 [(clothing, weaver, 1)]).play workday).bind closing? = some false := by
    decide +kernel
  have order : (clothing.chart weaver).order = [0, 2, 1] := by decide +kernel
  obtain ⟨world, ran, shown⟩ := Option.bind_eq_some_iff.mp runs
  obtain ⟨final, found, shown⟩ := Option.bind_eq_some_iff.mp shown
  have begins : (opening 1 [(clothing, weaver, 1)]).Begins 0 weaving { plan := clothing } weaver :=
    opening_begins (by decide) (fun job member => List.mem_singleton.mp member ▸ clothing_built)
      (show [(clothing, weaver, 1)][0]? = some (clothing, weaver, 1) from rfl)
  have only {index : Nat} {call : Call}
      (found : (opening 1 [(clothing, weaver, 1)]).calls[index]? = some call) : index = 0 := by
    match index, found with
    | 0, _ => rfl
  have unlocked := opening_unlocked (show 0 < 1 by decide) [(clothing, weaver, 1)]
  have single : ∀ entry ∈ clothing.entries, entry.node.resources.Nodup := by decide
  have solitary : (opening 1 [(clothing, weaver, 1)]).Solitary 0 weaving { plan := clothing } :=
    { workers := rfl
      tree := fun _ _ present _ => only present
      unleased := fun lease _ => unlocked (.lease lease)
      reserved := ⟨fun _ _ _ present _ _ => only present, fun name => unlocked _⟩
      single := fun node entry found => single entry (List.mem_of_getElem? found) }
  split at shown
  next fault stage =>
    have uncanceled := Option.some.inj shown
    have ended : final.Ended := ⟨fault, stage⟩
    refine ⟨world, final, ran, found, ended, ?_⟩
    exact ((lone_worker_in_order begins solitary ran found uncanceled).2 (Or.inl ended)).trans order
  · cases shown

end World
end Executor
end Foreman
