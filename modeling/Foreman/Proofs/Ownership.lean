import Foreman.Proofs.Staffing

/-! Who owns what. Every worker has a lease of its own, and a worker that owns a node
holds the node's locks: its own lease and the resources of the node. Nodes keep
locks only while a worker owns them, and no two nodes keep the same lock. -/

namespace Foreman

/-- The node is being executed and keeps the locks that it was selected with. -/
structure Plan.Engages (plan : Plan) (lease : Lease) (entry : Entry) : Prop where
  executing : entry.node.state = .executing
  held : entry.node.held = .lease lease :: entry.node.resources.map plan.resourceLock

namespace Executor.World

variable {world after : World} {index worker place : Nat} {call : Call} {driven : Driven}
  {phase next : Phase} {lease : Lease} {events : List Happening} {later : Corner}

def At (world : World) (index worker place : Nat) (phase : Phase) : Prop :=
  ∃ call, world.calls[index]? = some call ∧ call.plan = place ∧ call.workers[worker]? = some phase

def Leases (world : World) (index worker : Nat) (lease : Lease) : Prop :=
  ∃ place phase, world.At index worker place phase ∧ phase.lease? = some lease

def Owns (world : World) (index worker : Nat) (lease : Lease) (place node : Nat) : Prop :=
  ∃ phase, world.At index worker place phase ∧ phase.lease? = some lease ∧ phase.node? = some node

def entryAt (world : World) (place node : Nat) : Option Entry :=
  world.plans[place]?.bind (·.plan.entries[node]?)

theorem Owns.leases {node : Nat} (owns : world.Owns index worker lease place node) :
    world.Leases index worker lease := by
  obtain ⟨phase, there, has, _⟩ := owns
  exact ⟨place, phase, there, has⟩

/-- What holds of calls, plans and locks by themselves. -/
structure Settled (world : World) : Prop where
  sound : world.locks.Sound
  valid : ∀ (place : Nat) (driven : Driven), world.plans[place]? = some driven → driven.plan.Valid
  throwing : ∀ (place : Nat) (driven : Driven), world.plans[place]? = some driven →
    driven.hooks.Throwing
  staffed : ∀ (index : Nat) (call : Call), world.calls[index]? = some call → call.Staffed
  planned : ∀ (index : Nat) (call : Call), world.calls[index]? = some call →
    ∃ driven, world.plans[call.plan]? = some driven
  rooted : ∀ (index : Nat) (call : Call), world.calls[index]? = some call →
    ∃ tree, world.locks.tree? call.executor.root = some tree

structure Owned (world : World) : Prop extends Settled world where
  leased : ∀ (index worker : Nat) (lease : Lease), world.Leases index worker lease →
    world.locks.Has lease ∧ lease.place ≠ 0 ∧
      ∃ call, world.calls[index]? = some call ∧ lease.tree = call.executor.root.tree
  apart : ∀ (index worker other rival : Nat) (lease : Lease), world.Leases index worker lease →
    world.Leases other rival lease → other = index ∧ rival = worker
  engaged : ∀ (index worker place node : Nat) (lease : Lease),
    world.Owns index worker lease place node →
    ∃ driven entry, world.plans[place]? = some driven ∧ driven.plan.entries[node]? = some entry ∧
      driven.plan.Engages lease entry
  kept : ∀ (place node : Nat) (entry : Entry), world.entryAt place node = some entry →
    entry.node.held ≠ [] → ∃ index worker lease, world.Owns index worker lease place node
  locked : ∀ (place node : Nat) (entry : Entry), world.entryAt place node = some entry →
    ∀ lock ∈ entry.node.held, world.locks.isLocked lock
  disjoint : ∀ (place node site rival : Nat) (entry other : Entry),
    world.entryAt place node = some entry → world.entryAt site rival = some other →
    ∀ lock ∈ entry.node.held, lock ∈ other.node.held → site = place ∧ rival = node

theorem entryAt_eq (planned : world.plans[place]? = some driven) (node : Nat) :
    world.entryAt place node = driven.plan.entries[node]? := by
  simp [entryAt, planned]

theorem Owned.orderly (owned : world.Owned) : world.Orderly := by
  refine ⟨owned.valid, owned.throwing, ?_⟩
  intro index worker node call driven phase found planned there owns
  obtain ⟨lease, has⟩ := Phase.lease_of_node owns
  obtain ⟨other, entry, again, present, engages⟩ :=
    owned.engaged index worker call.plan node lease ⟨phase, ⟨call, found, rfl, there⟩, has, owns⟩
  cases Option.some.inj (planned.symm.trans again)
  rw [Plan.state?_eq present, engages.executing]

/-! What a step does to calls, plans and locks by themselves. -/

theorem Settled.shown (settled : world.Settled) (found : world.calls[index]? = some call)
    (planned : world.plans[call.plan]? = some driven)
    (shown : Shows world index call.plan after later events)
    (kept : (world.cornerOf call driven).Kept later) (staffed : later.call.Staffed) :
    after.Settled := by
  obtain ⟨driven', plan, hooks, plans⟩ := shown.plan? planned
  refine ⟨?_, ?_, ?_, ?_, ?_, ?_⟩
  · rw [shown.locks]
    exact kept.steady.sound settled.sound
  · intro other value present
    rw [plans] at present
    split at present
    · cases present
      exact plan ▸ kept.valid
    · exact settled.valid other value present
  · intro other value present
    rw [plans] at present
    split at present
    · cases present
      rw [hooks, kept.hooks]
      exact settled.throwing _ _ planned
    · exact settled.throwing other value present
  · intro other value present
    rw [shown.call? found] at present
    split at present
    · cases present
      exact staffed
    · exact settled.staffed other value present
  · intro other value present
    have there (site : Nat) (known : ∃ driven, world.plans[site]? = some driven) :
        ∃ driven, after.plans[site]? = some driven := by
      rw [plans]
      split
      · exact ⟨_, rfl⟩
      · exact known
    rw [shown.call? found] at present
    split at present
    · cases present
      exact there _ ⟨driven, kept.place ▸ planned⟩
    · exact there _ (settled.planned other value present)
  · intro other value present
    have there (root : Lease) (known : ∃ tree, world.locks.tree? root = some tree) :
        ∃ tree, after.locks.tree? root = some tree := by
      obtain ⟨tree, known⟩ := known
      obtain ⟨later, found, _⟩ := kept.steady.grows.trees _ _ known
      exact ⟨later, shown.locks ▸ found⟩
    rw [shown.call? found] at present
    split at present
    · cases present
      exact there _ (kept.executor ▸ settled.rooted _ _ found)
    · exact there _ (settled.rooted other value present)

theorem Settled.turn {move : Move} (settled : world.Settled) (turn : world.Turn move after) :
    after.Settled := by
  cases turn with
  | @worker _ _ _ _ _ _ _ _ found planned there deed shown =>
    have valid := settled.valid _ _ planned
    exact settled.shown found planned shown (deed.kept valid)
      (deed.staffed there valid (settled.staffed _ _ found))
  | @caller _ _ _ _ _ found planned deed shown =>
    exact settled.shown found planned shown (deed.kept (settled.valid _ _ planned))
      (deed.staffed rfl (settled.staffed _ _ found))
  | outside foreign outside =>
    refine ⟨outside.locks ▸ settled.sound, ?_, ?_, ?_, ?_, ?_⟩
    · rw [outside.plans]
      exact settled.valid
    · rw [outside.plans]
      exact settled.throwing
    · rw [outside.calls]
      exact settled.staffed
    · rw [outside.calls, outside.plans]
      exact settled.planned
    · rw [outside.calls, outside.locks]
      exact settled.rooted

/-! What a step does to who owns what. -/

theorem At.same {site : Nat} (there : world.At index worker place phase)
    (again : world.At index worker site next) : site = place ∧ next = phase := by
  obtain ⟨call, found, rfl, present⟩ := there
  obtain ⟨other, found', rfl, present'⟩ := again
  cases Option.some.inj (found.symm.trans found')
  exact ⟨rfl, Option.some.inj (present'.symm.trans present)⟩

theorem at_shown (found : world.calls[index]? = some call)
    (there : call.workers[worker]? = some phase)
    (shown : Shows world index call.plan after later events) (place_ : later.call.plan = call.plan)
    (workers : later.call.workers = call.workers.set worker next) (other rival site : Nat)
    (somewhere : Phase) :
    after.At other rival site somewhere ↔
      if other = index ∧ rival = worker then site = call.plan ∧ somewhere = next
      else world.At other rival site somewhere := by
  have inside := (List.getElem?_eq_some_iff.mp there).1
  simp only [At, shown.call? found]
  by_cases same : other = index
  · subst same
    simp only [if_pos, true_and, Option.some.injEq, exists_eq_left', place_, workers, found]
    by_cases own : rival = worker
    · subst own
      simp [inside, eq_comm]
    · simp [own, Ne.symm own]
  · simp [same]

theorem entryAt_shown (planned : world.plans[call.plan]? = some driven)
    (shown : Shows world index call.plan after later events) (site node : Nat) :
    after.entryAt site node =
      if site = call.plan then later.plan.entries[node]? else world.entryAt site node := by
  obtain ⟨driven', plan, _, plans⟩ := shown.plan? planned
  rw [entryAt, plans]
  split
  · rw [Option.bind_some, plan]
  · rfl

/-- Nobody comes to own a node or ceases to, and no lock changes. At most one worker
gets a lease, which is new. -/
structure Rests (world : World) (index worker : Nat) (after : World) : Prop where
  leases : ∀ (other rival : Nat) (lease : Lease), after.Leases other rival lease →
    world.Leases other rival lease ∨
      other = index ∧ rival = worker ∧ ¬ world.locks.Has lease ∧ after.locks.Has lease ∧
        lease.place ≠ 0 ∧ ∃ call, after.calls[index]? = some call ∧ lease.tree = call.executor.root.tree
  owns : ∀ (other rival : Nat) (lease : Lease) (place node : Nat),
    after.Owns other rival lease place node ↔ world.Owns other rival lease place node
  executors : ∀ (other : Nat) (call : Call), world.calls[other]? = some call →
    ∃ later, after.calls[other]? = some later ∧ later.executor = call.executor
  plans : ∀ (place : Nat) (driven : Driven), world.plans[place]? = some driven →
    ∃ later, after.plans[place]? = some later ∧ driven.plan.Calm later.plan
  origins : ∀ (place : Nat) (later : Driven), after.plans[place]? = some later →
    ∃ driven, world.plans[place]? = some driven ∧ driven.plan.Calm later.plan
  alike : world.locks.Alike after.locks
  grows : world.locks.Grows after.locks

private theorem Rests.entry (rests : world.Rests index worker after) {site node : Nat} {entry : Entry}
    (found : after.entryAt site node = some entry) :
    ∃ earlier, world.entryAt site node = some earlier ∧ entry.node.held = earlier.node.held := by
  obtain ⟨driven, planned, present⟩ := Option.bind_eq_some_iff.mp found
  obtain ⟨old, planned', calm⟩ := rests.origins site driven planned
  obtain ⟨earlier, present', _, held, _⟩ := calm.back present
  exact ⟨earlier, (entryAt_eq planned' node).trans present', held⟩

theorem Owned.rests (owned : world.Owned) (settled : after.Settled)
    (rests : world.Rests index worker after) : after.Owned := by
  refine { settled with
    leased := ?_, apart := ?_, engaged := ?_, kept := ?_, locked := ?_, disjoint := ?_ }
  · intro other rival lease leases
    rcases rests.leases other rival lease leases with old | ⟨rfl, _, _, has, root⟩
    · obtain ⟨has, child, call, found, tree⟩ := owned.leased other rival lease old
      obtain ⟨later, found, same⟩ := rests.executors other call found
      exact ⟨has.grow rests.grows, child, later, found, same ▸ tree⟩
    · exact ⟨has, root⟩
  · intro first mine second yours lease leases again
    rcases rests.leases first mine lease leases with old | ⟨rfl, rfl, fresh, _⟩
    · rcases rests.leases second yours lease again with older | ⟨_, _, fresh, _⟩
      · exact owned.apart first mine second yours lease old older
      · exact absurd (owned.leased first mine lease old).1 fresh
    · rcases rests.leases second yours lease again with old | ⟨rfl, rfl, _⟩
      · exact absurd (owned.leased second yours lease old).1 fresh
      · exact ⟨rfl, rfl⟩
  · intro other rival site node lease owns
    obtain ⟨driven, entry, planned, present, engages⟩ :=
      owned.engaged other rival site node lease ((rests.owns ..).mp owns)
    obtain ⟨later, planned', calm⟩ := rests.plans site driven planned
    obtain ⟨entry', present', links, held, executing⟩ := calm.ahead present
    refine ⟨later, entry', planned', present', executing.mpr engages.executing, ?_⟩
    rw [held, engages.held, links.resources, calm.keeps.resourceLock]
  · intro site node entry found held
    obtain ⟨earlier, present, same⟩ := rests.entry found
    obtain ⟨other, rival, lease, owns⟩ := owned.kept site node earlier present (same ▸ held)
    exact ⟨other, rival, lease, (rests.owns ..).mpr owns⟩
  · intro site node entry found lock member
    obtain ⟨earlier, present, same⟩ := rests.entry found
    exact (rests.alike lock).mpr (owned.locked site node earlier present lock (same ▸ member))
  · intro place node site rival entry other found again lock member shared
    obtain ⟨earlier, present, same⟩ := rests.entry found
    obtain ⟨earlier', present', same'⟩ := rests.entry again
    exact owned.disjoint place node site rival earlier earlier' present present' lock
      (same ▸ member) (same' ▸ shared)

/-- Of all nodes only the one that a worker owns keeps the worker's lease. -/
theorem Owned.holder (owned : world.Owned) {site node : Nat} {entry : Entry}
    (found : world.entryAt site node = some entry) (held : .lease lease ∈ entry.node.held)
    (leases : world.Leases index worker lease) : world.Owns index worker lease site node := by
  obtain ⟨other, rival, lease', owns⟩ :=
    owned.kept site node entry found (List.ne_nil_of_mem held)
  obtain ⟨driven, entry', planned, present, engages⟩ := owned.engaged other rival site node lease' owns
  cases Option.some.inj ((entryAt_eq planned node).symm.trans found |>.symm.trans present)
  rw [engages.held] at held
  rcases List.mem_cons.mp held with same | resource
  · cases same
    obtain ⟨rfl, rfl⟩ := owned.apart index worker other rival lease leases owns.leases
    exact owns
  · obtain ⟨name, _, same⟩ := List.mem_map.mp resource
    cases same

/-- A node has one owner. -/
theorem Owned.sole (owned : world.Owned) {other rival site node : Nat} {lease' : Lease}
    (owns : world.Owns index worker lease site node)
    (again : world.Owns other rival lease' site node) : other = index ∧ rival = worker := by
  obtain ⟨driven, entry, planned, present, engages⟩ := owned.engaged _ _ _ _ _ owns
  obtain ⟨driven', entry', planned', present', engages'⟩ := owned.engaged _ _ _ _ _ again
  cases Option.some.inj (planned.symm.trans planned')
  cases Option.some.inj (present.symm.trans present')
  have same := engages.held.symm.trans engages'.held
  cases (List.cons.inj same).1
  exact owned.apart _ _ _ _ _ owns.leases again.leases

structure Advances (world : World) (index worker : Nat) (call : Call) (driven : Driven)
    (lease : Lease) (phase next : Phase) (events : List Happening) (later : Corner)
    (after : World) : Prop where
  found : world.calls[index]? = some call
  planned : world.plans[call.plan]? = some driven
  there : call.workers[worker]? = some phase
  has : phase.lease? = some lease
  shown : Shows world index call.plan after later events
  kept : (world.cornerOf call driven).Kept later
  workers : later.call.workers = call.workers.set worker next
  same : ∀ lease', next.lease? = some lease' → lease' = lease

section
variable (step : world.Advances index worker call driven lease phase next events later after)
include step

private theorem Advances.here : world.At index worker call.plan phase :=
  ⟨call, step.found, rfl, step.there⟩

private theorem Advances.mine : world.Leases index worker lease :=
  ⟨call.plan, phase, step.here, step.has⟩

private theorem Advances.at {other rival site : Nat} {somewhere : Phase} :
    after.At other rival site somewhere ↔
      if other = index ∧ rival = worker then site = call.plan ∧ somewhere = next
      else world.At other rival site somewhere :=
  at_shown step.found step.there step.shown step.kept.place step.workers other rival site somewhere

private theorem Advances.leases {other rival : Nat} {lease' : Lease}
    (leases : after.Leases other rival lease') : world.Leases other rival lease' := by
  obtain ⟨site, somewhere, at_, has⟩ := leases
  rw [step.at] at at_
  split at at_
  next own =>
    obtain ⟨rfl, rfl⟩ := own
    obtain ⟨rfl, rfl⟩ := at_
    rw [step.same lease' has]
    exact step.mine
  · exact ⟨site, somewhere, at_, has⟩

private theorem Advances.leased (owned : world.Owned) {other rival : Nat} {lease' : Lease}
    (leases : after.Leases other rival lease') :
    after.locks.Has lease' ∧ lease'.place ≠ 0 ∧
      ∃ call, after.calls[other]? = some call ∧ lease'.tree = call.executor.root.tree := by
  obtain ⟨has, child, call', present, tree⟩ := owned.leased other rival lease' (step.leases leases)
  refine ⟨step.shown.locks ▸ has.grow step.kept.steady.grows, child, ?_⟩
  rw [step.shown.call? step.found]
  split
  next same =>
    subst same
    cases Option.some.inj (present.symm.trans step.found)
    exact ⟨later.call, rfl, step.kept.executor ▸ tree⟩
  · exact ⟨call', present, tree⟩

private theorem Advances.owns {other rival site position : Nat} {lease' : Lease} :
    after.Owns other rival lease' site position ↔
      if other = index ∧ rival = worker then
        site = call.plan ∧ next.lease? = some lease' ∧ next.node? = some position
      else world.Owns other rival lease' site position := by
  simp only [Owns, step.at]
  split
  · constructor
    · intro holds
      obtain ⟨somewhere, ⟨rfl, rfl⟩, has, owns⟩ := holds
      exact ⟨rfl, has, owns⟩
    · intro holds
      obtain ⟨rfl, has, owns⟩ := holds
      exact ⟨next, ⟨rfl, rfl⟩, has, owns⟩
  · rfl

variable {node : Option Nat} (handles : driven.plan.Handles node later.plan)
include handles

private theorem Advances.entry {site position : Nat} {entry : Entry}
    (other : site = call.plan → node ≠ some position)
    (found : after.entryAt site position = some entry) :
    ∃ earlier, world.entryAt site position = some earlier ∧ entry.node.held = earlier.node.held := by
  rw [entryAt_shown step.planned step.shown] at found
  split at found
  next same =>
    subst same
    obtain ⟨earlier, present, _⟩ := handles.keeps.back found
    exact ⟨earlier, (entryAt_eq step.planned position).trans present,
      (handles.others position earlier entry (other rfl) present found).1⟩
  · exact ⟨entry, found, rfl⟩

private theorem Advances.engaged (owned : world.Owned) {index' rival site position : Nat}
    {lease' : Lease} (other : site = call.plan → node ≠ some position)
    (owns : world.Owns index' rival lease' site position) :
    ∃ driven entry, after.plans[site]? = some driven ∧ driven.plan.entries[position]? = some entry ∧
      driven.plan.Engages lease' entry := by
  obtain ⟨plan, entry, known, found, engages⟩ := owned.engaged _ _ _ _ _ owns
  obtain ⟨driven', same, _, plans⟩ := step.shown.plan? step.planned
  by_cases here : site = call.plan
  · subst here
    cases Option.some.inj (known.symm.trans step.planned)
    obtain ⟨entry', present, links⟩ := handles.keeps.entry position entry found
    obtain ⟨held, executing⟩ := handles.others position entry entry' (other rfl) found present
    refine ⟨driven', entry', (plans _).trans (if_pos rfl), same ▸ present,
      executing.mpr engages.executing, ?_⟩
    rw [held, engages.held, links.resources, same, handles.keeps.resourceLock]
  · exact ⟨plan, entry, (plans site).trans ((if_neg here).trans known), found, engages⟩

end

section
variable (step : world.Advances index worker call driven lease phase next events later after)
include step

private theorem Advances.own {position : Nat} :
    after.entryAt call.plan position = later.plan.entries[position]? :=
  (entryAt_shown step.planned step.shown call.plan position).trans (if_pos rfl)

/-- A worker without a node is handed one that nobody owned. -/
theorem Owned.hands (owned : world.Owned) (settled : after.Settled) {node : Nat}
    (idle : phase.node? = none) (keeps : next.lease? = some lease) (gets : next.node? = some node)
    (handles : driven.plan.Handles (some node) later.plan)
    (unowned : driven.plan.state? node ≠ some .executing)
    (engages : ∃ entry, later.plan.entries[node]? = some entry ∧ later.plan.Engages lease entry)
    (grows : ∀ lock, world.locks.isLocked lock → later.locks.isLocked lock)
    (takes : ∀ entry, later.plan.entries[node]? = some entry → ∀ lock ∈ entry.node.held,
      later.locks.isLocked lock ∧ (lock = .lease lease ∨ ¬ world.locks.isLocked lock)) :
    after.Owned := by
  -- a node that somebody owned is not the one that is handed over
  have elsewhere {other rival site position : Nat} {lease' : Lease}
      (owns : world.Owns other rival lease' site position) :
      site = call.plan → some node ≠ some position := by
    intro here same
    subst here
    cases same
    obtain ⟨plan, entry, planned, present, engaged⟩ := owned.engaged _ _ _ _ _ owns
    cases Option.some.inj (step.planned.symm.trans planned)
    exact unowned ((Plan.state?_eq present).trans (congrArg some engaged.executing))
  have busy {other rival site position : Nat} {lease' : Lease}
      (owns : world.Owns other rival lease' site position) : ¬ (other = index ∧ rival = worker) := by
    intro same
    obtain ⟨rfl, rfl⟩ := same
    obtain ⟨somewhere, at_, _, owns⟩ := owns
    rw [(step.here.same at_).2, idle] at owns
    cases owns
  -- what the node gets was free, and the worker's lease was kept by no node
  have free {site position : Nat} {entry handed : Entry} {lock : Lock}
      (present : world.entryAt site position = some entry)
      (gained : later.plan.entries[node]? = some handed) (member : lock ∈ handed.node.held) :
      lock ∉ entry.node.held := by
    intro shared
    rcases (takes handed gained lock member).2 with rfl | unlocked
    · exact busy (owned.holder present shared step.mine) ⟨rfl, rfl⟩
    · exact unlocked (owned.locked site position entry present lock shared)
  refine { settled with
    leased := ?_, apart := ?_, engaged := ?_, kept := ?_, locked := ?_, disjoint := ?_ }
  · exact fun _ _ _ leases => step.leased owned leases
  · exact fun _ _ _ _ _ left right => owned.apart _ _ _ _ _ (step.leases left) (step.leases right)
  · intro other rival site position lease' owns
    rw [step.owns] at owns
    split at owns
    · obtain ⟨rfl, has, gets'⟩ := owns
      cases Option.some.inj (keeps.symm.trans has)
      cases Option.some.inj (gets.symm.trans gets')
      obtain ⟨driven', same, _, plans⟩ := step.shown.plan? step.planned
      obtain ⟨entry, present, engages⟩ := engages
      exact ⟨driven', entry, (plans _).trans (if_pos rfl), same ▸ present, same ▸ engages⟩
    · exact step.engaged handles owned (elsewhere owns) owns
  · intro site position entry found held
    by_cases own : site = call.plan ∧ position = node
    · obtain ⟨rfl, rfl⟩ := own
      exact ⟨index, worker, lease, step.owns.mpr (by rw [if_pos ⟨rfl, rfl⟩]; exact ⟨rfl, keeps, gets⟩)⟩
    · obtain ⟨earlier, present, same⟩ := step.entry handles
        (fun here same => own ⟨here, (Option.some.inj same).symm⟩) found
      obtain ⟨other, rival, lease', owns⟩ := owned.kept site position earlier present (same ▸ held)
      exact ⟨other, rival, lease', step.owns.mpr (by rwa [if_neg (busy owns)])⟩
  · intro site position entry found lock member
    rw [step.shown.locks]
    by_cases own : site = call.plan ∧ position = node
    · obtain ⟨rfl, rfl⟩ := own
      exact (takes entry (step.own ▸ found) lock member).1
    · obtain ⟨earlier, present, same⟩ := step.entry handles
        (fun here same => own ⟨here, (Option.some.inj same).symm⟩) found
      exact grows lock (owned.locked site position earlier present lock (same ▸ member))
  · intro site position field rival entry other found again lock member shared
    by_cases own : site = call.plan ∧ position = node
    · by_cases too : field = call.plan ∧ rival = node
      · exact ⟨too.1.trans own.1.symm, too.2.trans own.2.symm⟩
      · obtain ⟨rfl, rfl⟩ := own
        obtain ⟨earlier, present, same⟩ := step.entry handles
          (fun here same => too ⟨here, (Option.some.inj same).symm⟩) again
        exact absurd (same ▸ shared) (free present (step.own ▸ found) member)
    · obtain ⟨earlier, present, same⟩ := step.entry handles
        (fun here same => own ⟨here, (Option.some.inj same).symm⟩) found
      by_cases too : field = call.plan ∧ rival = node
      · obtain ⟨rfl, rfl⟩ := too
        exact absurd (same ▸ member) (free present (step.own ▸ again) shared)
      · obtain ⟨earlier', present', same'⟩ := step.entry handles
          (fun here same => too ⟨here, (Option.some.inj same).symm⟩) again
        exact owned.disjoint _ _ _ _ _ _ present present' lock (same ▸ member) (same' ▸ shared)

/-- A worker gives back the locks of its node, if it has one, and owns none then. -/
theorem Owned.releases (owned : world.Owned) (settled : after.Settled) (idle : next.node? = none)
    (handles : driven.plan.Handles phase.node? later.plan)
    (empty : ∀ node entry, phase.node? = some node → later.plan.entries[node]? = some entry →
      entry.node.held = [])
    (frees : ∀ lock, world.locks.isLocked lock → lock ∉ driven.plan.heldBy phase.node? →
      lock ≠ .lease lease → later.locks.isLocked lock) : after.Owned := by
  have busy {other rival site position : Nat} {lease' : Lease}
      (owns : after.Owns other rival lease' site position) :
      ¬ (other = index ∧ rival = worker) ∧ world.Owns other rival lease' site position := by
    rw [step.owns] at owns
    split at owns
    · rw [idle] at owns
      cases owns.2.2
    next other' => exact ⟨other', owns⟩
  -- the node of the worker keeps nothing, and it was the worker's alone
  have nothing {site position : Nat} {entry : Entry} {lock : Lock}
      (found : after.entryAt site position = some entry) (member : lock ∈ entry.node.held) :
      site = call.plan → phase.node? ≠ some position := by
    intro same owns
    subst same
    have present := empty position entry owns (step.own ▸ found)
    rw [present] at member
    cases member
  have elsewhere {other rival site position : Nat} {lease' : Lease}
      (different : ¬ (other = index ∧ rival = worker))
      (owns : world.Owns other rival lease' site position) :
      site = call.plan → phase.node? ≠ some position := by
    intro same mine
    subst same
    exact different (owned.sole ⟨phase, step.here, step.has, mine⟩ owns)
  refine { settled with
    leased := ?_, apart := ?_, engaged := ?_, kept := ?_, locked := ?_, disjoint := ?_ }
  · exact fun _ _ _ leases => step.leased owned leases
  · exact fun _ _ _ _ _ left right => owned.apart _ _ _ _ _ (step.leases left) (step.leases right)
  · intro other rival site position lease' owns
    obtain ⟨different, owns⟩ := busy owns
    exact step.engaged handles owned (elsewhere different owns) owns
  · intro site position entry found held
    obtain ⟨lock, member⟩ := List.exists_mem_of_ne_nil _ held
    have other := nothing found member
    obtain ⟨earlier, present, same⟩ := step.entry handles other found
    obtain ⟨index', rival, lease', owns⟩ := owned.kept site position earlier present (same ▸ held)
    refine ⟨index', rival, lease', step.owns.mpr ?_⟩
    rw [if_neg]
    · exact owns
    · intro same
      obtain ⟨rfl, rfl⟩ := same
      obtain ⟨somewhere, at_, _, mine⟩ := owns
      obtain ⟨rfl, rfl⟩ := step.here.same at_
      exact other rfl mine
  · intro site position entry found lock member
    have other := nothing found member
    obtain ⟨earlier, present, same⟩ := step.entry handles other found
    have held : lock ∈ earlier.node.held := same ▸ member
    rw [step.shown.locks]
    apply frees lock (owned.locked site position earlier present lock held)
    · intro given
      cases mine : phase.node? with
      | none =>
        rw [mine] at given
        cases given
      | some node =>
        obtain ⟨plan, entry', planned, present', _⟩ :=
          owned.engaged _ _ _ _ _ ⟨phase, step.here, step.has, mine⟩
        cases Option.some.inj (step.planned.symm.trans planned)
        rw [mine, Plan.heldBy_eq present'] at given
        obtain ⟨rfl, rfl⟩ := owned.disjoint _ _ _ _ _ _ ((entryAt_eq planned node).trans present')
          present lock given held
        exact other rfl mine
    · intro same
      subst same
      obtain ⟨somewhere, at_, _, mine⟩ := owned.holder present held step.mine
      obtain ⟨rfl, rfl⟩ := step.here.same at_
      exact other rfl mine
  · intro site position field rival entry other found again lock member shared
    obtain ⟨earlier, present, same⟩ := step.entry handles (nothing found member) found
    obtain ⟨earlier', present', same'⟩ := step.entry handles (nothing again shared) again
    exact owned.disjoint _ _ _ _ _ _ present present' lock (same ▸ member) (same' ▸ shared)

end

end Executor.World
end Foreman
