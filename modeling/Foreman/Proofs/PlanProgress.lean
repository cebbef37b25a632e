import Foreman.Proofs.LockOwnership

/-! Progress of a plan that nobody is at work on. A lease with a permit to spare gets
a ready node unless every ready node names some resource twice; such a node is never
selected, since the second request for the resource is refused like that of a rival. -/

namespace Foreman

namespace Plan

variable {plan before after : Plan} {node : Nat} {entry : Entry} {lease : Lease} {locks : Locks}
  {owed owed' : Nat → Nat} {stale stale' : Nat → Prop}

/-! Open nodes. -/

def isOpen (plan : Plan) (node : Nat) : Bool :=
  plan.entries[node]?.any fun entry => !entry.node.state.isTerminal

theorem isOpen_eq (found : plan.entries[node]? = some entry) :
    plan.isOpen node = !entry.node.state.isTerminal := by
  simp [isOpen, found]

theorem isOpen_entry (open_ : plan.isOpen node = true) :
    ∃ entry, plan.entries[node]? = some entry ∧ entry.node.state.isTerminal = false := by
  simpa [isOpen, Option.any_eq_true] using open_

theorem Coherent.remaining_le (coherent : plan.Coherent owed stale) :
    plan.remaining ≤ plan.size := by
  rw [coherent.remaining]
  exact Int.ofNat_le.mpr List.countP_le_length

theorem Moves.isOpen (moves : before.Moves after) (keeps : before.Keeps after)
    (later : after.isOpen node = true) : before.isOpen node = true := by
  obtain ⟨entry, found, open_⟩ := isOpen_entry later
  obtain ⟨earlier, present, _⟩ := keeps.back found
  rw [isOpen_eq present]
  rcases moves node earlier entry present found with same | moved
  · rw [← same, open_]
    rfl
  · cases source : earlier.node.state with
    | notReady | ready | executing => rfl
    | succeeded | failed | skipped => simp [source, State.canMoveTo] at moved

theorem Coherent.remaining_lt (left : before.Coherent owed stale) (right : after.Coherent owed' stale')
    (keeps : before.Keeps after) (lasts : ∀ other, after.isOpen other = true → before.isOpen other = true)
    (was : before.isOpen node = true) (ended : after.isOpen node = false) :
    after.remaining < before.remaining := by
  have counts (plan : Plan) : plan.entries.countP (fun entry => !entry.node.state.isTerminal) =
      ((List.range plan.size).filter plan.isOpen).length := by
    rw [← countP_places plan.entries, ← List.countP_eq_length_filter]
    rfl
  have fresh : node ∉ (List.range after.size).filter after.isOpen := by
    rw [List.mem_filter, ended]
    simp
  have inside : node < before.size := by
    obtain ⟨entry, found, _⟩ := isOpen_entry was
    exact (List.getElem?_eq_some_iff.mp found).1
  have fewer : (node :: (List.range after.size).filter after.isOpen).length ≤
      ((List.range before.size).filter before.isOpen).length := by
    apply List.Nodup.length_le_of_subset
    · exact List.nodup_cons.mpr ⟨fresh, List.nodup_range.filter _⟩
    · intro other member
      rcases List.mem_cons.mp member with rfl | member
      · exact List.mem_filter.mpr ⟨List.mem_range.mpr inside, was⟩
      · obtain ⟨place, open_⟩ := List.mem_filter.mp member
        exact List.mem_filter.mpr ⟨keeps.size ▸ place, lasts other open_⟩
  rw [left.remaining, right.remaining, counts, counts]
  rw [List.length_cons] at fewer
  omega

/-! Selections while nobody holds a resource of the plan. -/

/-- Only names that are given twice keep the resources of a node from being taken
together, if nobody holds any of them. -/
private theorem blocked_iff (found : plan.entries[node]? = some entry)
    (free : ∀ name, ¬ locks.isLocked (plan.resourceLock name)) :
    locks.Blocked (plan.wanted node) ↔ ¬ entry.node.resources.Nodup := by
  constructor
  · rintro (repeated | ⟨lock, member, held⟩)
    · rwa [wanted_nodup, resourcesOf_eq found] at repeated
    · rw [wanted_eq found] at member
      obtain ⟨name, _, rfl⟩ := List.mem_map.mp member
      exact absurd held (free name)
  · exact fun repeated => Or.inl fun plain => repeated (resourcesOf_eq found ▸ wanted_nodup.mp plain)

/-- A lease that is granted gets a node if and only if some ready node names no
resource twice. -/
theorem Valid.select_iff (valid : plan.Valid) (free : ∀ name, ¬ locks.isLocked (plan.resourceLock name))
    (granted : locks.ask (.lease lease) ≠ .refused) :
    (∃ node, (plan.select lease { locks }).1 = .ok (some node)) ↔
      ∃ entry ∈ plan.entries, entry.node.state = .ready ∧ entry.node.resources.Nodup := by
  have selection : Selection plan lease { locks } (plan.select lease { locks }) :=
    select_selection valid.coherent lease rfl
  generalize plan.select lease { locks } = result at selection
  cases selection with
  | some node entry later selects =>
    have plain : entry.node.resources.Nodup := by
      apply Decidable.of_not_not
      intro repeated
      rcases (blocked_iff selects.found free).mpr repeated with twice | ⟨lock, member, held⟩
      · exact twice selects.distinct
      · exact selects.free lock member held
    exact ⟨fun _ => ⟨entry, List.mem_of_getElem? selects.found, selects.ready, plain⟩, fun _ => ⟨node, rfl⟩⟩
  | none later starved idles =>
    constructor
    · rintro ⟨node, chosen⟩
      cases chosen
    · rintro ⟨entry, member, ready, plain⟩
      obtain ⟨node, found⟩ := List.mem_iff_getElem?.mp member
      have queued := (valid.coherent.queued node).mpr (ready ▸ state?_eq found)
      rcases starved with empty | refused | blocked
      · rw [empty] at queued
        cases queued
      · exact absurd refused granted
      · exact absurd plain ((blocked_iff found free).mp (blocked node queued))

theorem Valid.selects (valid : plan.Valid) (chosen : (plan.select lease { locks }).1 = .ok (some node)) :
    ∃ entry later, plan.Selects lease { locks } node entry later ∧
      plan.select lease { locks } = (.ok (some node), plan.hand lease node entry, later) := by
  have selection : Selection plan lease { locks } (plan.select lease { locks }) :=
    select_selection valid.coherent lease rfl
  generalize plan.select lease { locks } = result at selection chosen
  cases selection with
  | none later starved idles => cases chosen
  | some node entry later selects =>
    cases chosen
    exact ⟨entry, later, selects, rfl⟩

/-- A node that is handed over, fails or not and is completed leaves fewer open. -/
private theorem Valid.served (valid : plan.Valid) (found : plan.entries[node]? = some entry)
    (ready : entry.node.state = .ready) (failures : List Failure) (locks : Locks) :
    let later := (((plan.hand lease node entry).failAll node failures).complete node locks).1
    plan.Keeps later ∧ later.started = true ∧ later.remaining < plan.remaining := by
  have replaces := Replaces.hand valid.coherent lease found ready
  have handed : (plan.hand lease node entry).Valid := valid.hand found ready
  have failed := handed.failAll node failures
  have present : ((plan.hand lease node entry).failAll node failures).state? node = some .executing := by
    rw [failAll_state?, replaces.state?, if_pos rfl]
    rfl
  obtain ⟨between, there, executing⟩ := entry_of_state? present
  obtain ⟨done, ends⟩ := complete_executing failed there executing locks
  obtain ⟨last, final, _, _, state⟩ := ends.own
  have settled : last.node.state.isTerminal = true := by
    rw [state]
    split <;> rfl
  have noted := failAll_keeps (plan.hand lease node entry) node failures
  have keeps := (replaces.keeps.trans noted).trans ends.keeps
  refine ⟨keeps, (done.begun final fun waits => ?_).started, ?_⟩
  · simp [waits, State.isTerminal] at settled
  · refine valid.coherent.remaining_lt done.coherent keeps ?_ (?_ : plan.isOpen node = true) ?_
    · intro other later
      have before := (complete_moves failed node locks).isOpen ends.keeps later
      have earlier := (moves_of_state? (failAll_state? _ node failures)).isOpen noted before
      exact (hand_moves valid.coherent lease found ready).isOpen replaces.keeps earlier
    · simp [isOpen_eq found, ready, State.isTerminal]
    · simp [isOpen_eq final, settled]

/-- A node is ready in a plan that has begun and is not over, while none is being
executed. -/
theorem Valid.exists_ready (valid : plan.Valid) (started : plan.started = true)
    (open_ : plan.remaining ≠ 0) (idle : ∀ node, plan.state? node ≠ some .executing) :
    ∃ entry ∈ plan.entries, entry.node.state = .ready := by
  have begun := valid.begun_of_started started
  have some_ : plan.queue ≠ [] := fun empty =>
    open_ (valid.coherent.exhausted begun.enumerated empty idle)
  obtain ⟨node, member⟩ := List.exists_mem_of_ne_nil _ some_
  obtain ⟨entry, found, ready⟩ := entry_of_state? ((valid.coherent.queued node).mp member)
  exact ⟨entry, List.mem_of_getElem? found, ready⟩

end Plan

namespace Floor

variable {floor after : Floor} {place node : Nat} {plan : Plan} {entry : Entry} {lease : Lease}
  {tree : LeaseTree}

theorem Kept.idle_iff (kept : floor.Kept) (found : floor.plans[place]? = some plan) :
    (∀ node, plan.state? node ≠ some .executing) ↔ ∀ ticket ∈ floor.out, ticket.place ≠ place := by
  constructor
  · rintro idle ticket out rfl
    obtain ⟨names, sent⟩ := kept.sent ticket out
    rw [engaged?_eq found, Plan.engaged?_iff] at sent
    obtain ⟨entry, present, executing, _⟩ := sent
    exact idle ticket.node (by rw [Plan.state?_eq present, executing])
  · intro absent node busy
    obtain ⟨entry, present, executing⟩ := Plan.entry_of_state? busy
    obtain ⟨_, lease, out, _⟩ := kept.runs ⟨plan, found, present, executing⟩
    exact absent _ out rfl

/-- A lease that has no node, of a tree with a permit left. -/
structure Spare (floor : Floor) (lease : Lease) (tree : LeaseTree) : Prop where
  free : ¬ floor.locks.isLocked (.lease lease)
  planted : floor.locks.tree? lease = some tree
  inside : lease.place < tree.leases.length
  room : tree.locked < tree.budget

theorem Spare.granted (spare : floor.Spare lease tree) :
    floor.locks.ask (.lease lease) ≠ .refused := by
  intro refused
  have full := Locks.ask_lease_refused spare.planted spare.inside refused
  exact absurd spare.room (Nat.not_lt.mpr full)

/-- A lease is as free as before once the same nodes are out again. -/
theorem Spare.last (spare : floor.Spare lease tree) (kept : floor.Kept) (later : after.Kept)
    (same : after.out = floor.out) (grows : floor.locks.Grows after.locks) :
    ∃ grown, after.Spare lease grown := by
  obtain ⟨grown, found, budget, longer⟩ := grows.trees _ tree spare.planted
  refine ⟨grown, ?_, found, Nat.lt_of_lt_of_le spare.inside longer, ?_⟩
  · rw [later.lease_locked, same, ← kept.lease_locked]
    exact spare.free
  · rw [later.locked_out found, same, ← kept.locked_out spare.planted, budget]
    exact spare.room

theorem Kept.resources_free (kept : floor.Kept) (found : floor.plans[place]? = some plan)
    (idle : ∀ node, plan.state? node ≠ some .executing) (name : String) :
    ¬ floor.locks.isLocked (plan.resourceLock name) := by
  rw [kept.resource_locked found]
  rintro ⟨node, entry, ⟨other, again, present, executing⟩, _⟩
  cases Option.some.inj (found.symm.trans again)
  exact idle node (by rw [Plan.state?_eq present, executing])

/-! The sequential loop. -/

/-- One round of the loop: a node is selected, its action records failures or none,
and it is completed. -/
def round (floor : Floor) (outcome : Nat → List Failure) (place : Nat) (lease : Lease) :
    Option Floor :=
  match floor.select place lease with
  | some (some node, selected) =>
    (selected.play ((outcome node).map fun failure => .tend place (.fail node failure))).bind
      (·.complete place node)
  | _ => none

def rounds (floor : Floor) (outcome : Nat → List Failure) (place : Nat) (lease : Lease) :
    Nat → Option Floor
  | 0 => some floor
  | count + 1 => (floor.round outcome place lease).bind (·.rounds outcome place lease count)

private theorem play_failures (found : floor.plans[place]? = some plan) (node : Nat)
    (failures : List Failure) :
    ∃ after, floor.play (failures.map fun failure => .tend place (.fail node failure)) = some after ∧
      after.plans[place]? = some (plan.failAll node failures) ∧ after.out = floor.out := by
  induction failures generalizing floor plan with
  | nil => exact ⟨floor, rfl, found, rfl⟩
  | cons failure rest ih =>
    have inside := (List.getElem?_eq_some_iff.mp found).1
    have step : floor.step (.tend place (.fail node failure)) =
        some { floor with plans := floor.plans.set place (plan.failNode node failure) } := by
      simp [Floor.step, found, Plan.Operation.isClerical, Plan.Session.perform]
    have noted : (floor.plans.set place (plan.failNode node failure))[place]? =
        some (plan.failNode node failure) := by simp [inside]
    rw [List.map_cons, play, step, Option.bind_some]
    exact ih noted

private theorem complete_found (found : floor.plans[place]? = some plan)
    (node : Nat) : ∃ after, floor.complete place node = some after ∧
      after.plans[place]? = some (plan.complete node floor.locks).1 ∧
      after.out = floor.out.filter fun ticket => ¬ (ticket.place = place ∧ ticket.node = node) := by
  have inside := (List.getElem?_eq_some_iff.mp found).1
  simp only [complete, found, Option.map_some]
  exact ⟨_, rfl, by simp [inside], rfl⟩

/-- A round sends a node out and gets it back, after which fewer nodes of the plan are
open and the same nodes as before are out. -/
private theorem Kept.round (kept : floor.Kept) (found : floor.plans[place]? = some plan)
    (outcome : Nat → List Failure) (started : plan.started = true) (open_ : plan.remaining ≠ 0)
    (idle : ∀ node, plan.state? node ≠ some .executing)
    (plain : ∀ entry ∈ plan.entries, entry.node.resources.Nodup)
    (spare : floor.Spare lease tree) :
    ∃ after later, floor.round outcome place lease = some after ∧ after.Kept ∧
      after.out = floor.out ∧ floor.locks.Grows after.locks ∧ after.plans[place]? = some later ∧
      plan.Keeps later ∧ later.started = true ∧ later.remaining < plan.remaining := by
  have valid := (kept.plans place plan found).1
  obtain ⟨ready, member, state⟩ := valid.exists_ready started open_ idle
  obtain ⟨node, chosen⟩ := (valid.select_iff (kept.resources_free found idle) spare.granted).mpr
    ⟨ready, member, state, plain ready member⟩
  obtain ⟨entry, pass, selects, chosen⟩ := valid.selects chosen
  have allowed : ∀ ticket ∈ floor.out, ticket.lease ≠ lease := fun ticket out same =>
    spare.free (kept.lease_locked.mpr ⟨ticket, out, same⟩)
  have selected : ∃ sent, floor.select place lease = some (some node, sent) ∧
      sent.plans = floor.plans.set place (plan.hand lease node entry) ∧
      sent.out = ⟨lease, place, node⟩ :: floor.out := by
    simp only [Floor.select, found, Option.bind_some, if_pos allowed, chosen]
    exact ⟨_, rfl, rfl, rfl⟩
  obtain ⟨sent, selected, plans, out⟩ := selected
  have stepped : floor.step (.select place lease) = some sent := by
    rw [Floor.step, selected]
    rfl
  obtain ⟨away, took⟩ := kept.step stepped
  have inside := (List.getElem?_eq_some_iff.mp found).1
  have handed : sent.plans[place]? = some (plan.hand lease node entry) := by simp [plans, inside]
  obtain ⟨noted, played, failed, same⟩ := play_failures handed node (outcome node)
  obtain ⟨still, kept'⟩ := away.play played
  obtain ⟨after, completed, later, back⟩ := complete_found failed node
  obtain ⟨home, gave⟩ := still.complete completed
  have absent := (kept.idle_iff found).mp idle
  have returned : after.out = floor.out := by
    rw [back, same, out, List.filter_cons_of_neg (by simp)]
    apply List.filter_eq_self.mpr
    exact fun ticket member => decide_eq_true fun here => absent ticket member here.1
  refine ⟨after, _, ?_, home, returned, (took.grows.trans kept'.grows).trans gave.grows, later,
    valid.served selects.found selects.ready (outcome node) _⟩
  simp only [Floor.round, selected, played, Option.bind_some, completed]

/-- The loop needs no more rounds than nodes are open. -/
private theorem Kept.rounds (kept : floor.Kept) (found : floor.plans[place]? = some plan)
    (outcome : Nat → List Failure) (started : plan.started = true) (idle : ∀ node, plan.state? node ≠ some .executing)
    (plain : ∀ entry ∈ plan.entries, entry.node.resources.Nodup) (spare : floor.Spare lease tree)
    (limit : Nat) (within : plan.remaining ≤ limit) :
    ∃ count ≤ limit, ∃ last ended, floor.rounds outcome place lease count = some last ∧
      last.plans[place]? = some ended ∧ ended.allComplete = true := by
  induction limit generalizing floor plan tree with
  | zero =>
    have none : plan.remaining = 0 := by
      have counted := (kept.plans place plan found).1.coherent.remaining
      omega
    exact ⟨0, Nat.le_refl 0, floor, plan, rfl, found, by simp [Plan.allComplete, none]⟩
  | succ limit ih =>
    by_cases done : plan.remaining = 0
    · exact ⟨0, Nat.zero_le _, floor, plan, rfl, found, by simp [Plan.allComplete, done]⟩
    · obtain ⟨after, later, made, still, same, grows, present, keeps, begun, fewer⟩ :=
        kept.round found outcome started done idle plain spare
      obtain ⟨grown, spare⟩ := spare.last kept still same grows
      have idle := (still.idle_iff present).mpr (same ▸ (kept.idle_iff found).mp idle)
      have plain : ∀ entry ∈ later.entries, entry.node.resources.Nodup := by
        intro entry member
        obtain ⟨node, there⟩ := List.mem_iff_getElem?.mp member
        obtain ⟨earlier, before, links⟩ := keeps.back there
        rw [links.resources]
        exact plain earlier (List.mem_of_getElem? before)
      obtain ⟨count, bound, last, ended, played, found, finished⟩ :=
        ih still present begun idle plain spare (by omega)
      refine ⟨count + 1, Nat.succ_le_succ bound, last, ended, ?_, found, finished⟩
      rw [Floor.rounds, made, Option.bind_some, played]

/-- Take any floor, a plan on it that has begun and that nobody is at work on, and a
lease that has no node, of a tree with a permit left. The lease gets a node if and only
if some ready node names no resource twice. If no node of the plan does, then it gets a
node while one remains; and whatever the actions record, as many rounds of the loop as
there are nodes are enough to complete all. -/
theorem plan_goes_on {acts : List Act} (played : play {} acts = some floor)
    (found : floor.plans[place]? = some plan) (started : plan.started = true)
    (idle : ∀ entry ∈ plan.entries, entry.node.state ≠ .executing)
    (planted : floor.locks.tree? lease = some tree) (inside : lease.place < tree.leases.length)
    (room : tree.locked < tree.budget) (free : ¬ floor.locks.isLocked (.lease lease)) :
    ((∃ node, (plan.select lease { locks := floor.locks }).1 = .ok (some node)) ↔
      ∃ entry ∈ plan.entries, entry.node.state = .ready ∧ entry.node.resources.Nodup) ∧
    ((∀ entry ∈ plan.entries, entry.node.resources.Nodup) →
      (plan.hasRemaining = true →
        ∃ node, (plan.select lease { locks := floor.locks }).1 = .ok (some node)) ∧
      ∀ outcome : Nat → List Failure, ∃ count ≤ plan.size, ∃ last ended,
        floor.rounds outcome place lease count = some last ∧
          last.plans[place]? = some ended ∧ ended.allComplete = true) := by
  have kept := (empty_kept.play played).1
  have valid := (kept.plans place plan found).1
  have spare : floor.Spare lease tree := ⟨free, planted, inside, room⟩
  have idle : ∀ node, plan.state? node ≠ some .executing := by
    intro node busy
    obtain ⟨entry, present, executing⟩ := Plan.entry_of_state? busy
    exact idle entry (List.mem_of_getElem? present) executing
  have chosen := valid.select_iff (kept.resources_free found idle) spare.granted
  refine ⟨chosen, fun plain => ⟨fun remains => ?_, fun outcome => ?_⟩⟩
  · have open_ : plan.remaining ≠ 0 := by simpa [Plan.hasRemaining] using remains
    obtain ⟨entry, member, ready⟩ := valid.exists_ready started open_ idle
    exact chosen.mpr ⟨entry, member, ready, plain entry member⟩
  · exact kept.rounds found outcome started idle plain spare plan.size valid.coherent.remaining_le

private def trading : List Act :=
  [ .plant "staff" 1, .enter "shop" true, .hire ⟨0, 0⟩, .tend 0 (.add "mill" [] ["stone"]),
    .tend 0 (.add "bake" ["mill"] ["oven", "stone"]), .tend 0 (.add "sell" ["bake", "bake"] []),
    .tend 0 .populate ]

private def shop : Floor := (play {} trading).getD {}

theorem shop_goes_on : ∃ plan, play {} trading = some shop ∧ shop.plans[0]? = some plan ∧
    plan.hasRemaining = true ∧
    (∃ node, (plan.select ⟨0, 1⟩ { locks := shop.locks }).1 = .ok (some node)) ∧
    ∃ count ≤ plan.size, ∃ last ended,
      shop.rounds (fun node => if node = 1 then [.internal "burnt"] else []) 0 ⟨0, 1⟩ count =
        some last ∧ last.plans[0]? = some ended ∧ ended.allComplete = true := by
  have played : play {} trading = some shop := by decide +kernel
  have found : shop.plans[0]? = some shop.plans[0]! := by decide +kernel
  have planted : shop.locks.tree? ⟨0, 1⟩ = some shop.locks.trees[0]! := by decide +kernel
  have goes := plan_goes_on played found (by decide +kernel) (by decide +kernel) planted
    (by decide +kernel) (by decide +kernel) (by decide +kernel)
  have open_ : shop.plans[0]!.hasRemaining = true := by decide +kernel
  obtain ⟨selects, ends⟩ := goes.2 (by decide +kernel)
  exact ⟨_, played, found, open_, selects open_, ends _⟩

/-- A node that asks for its table twice is in its own way. -/
private def kneading : List Act :=
  [ .plant "staff" 1, .enter "shop" true, .hire ⟨0, 0⟩,
    .tend 0 (.add "knead" [] ["table", "table"]), .tend 0 .populate ]

/-- It stays ready, with its lease unlocked and a permit left, and no selection
returns it. -/
theorem kneading_never_begins : ∃ floor plan tree, play {} kneading = some floor ∧
    floor.plans[0]? = some plan ∧ plan.started = true ∧ plan.hasRemaining = true ∧
    (∀ entry ∈ plan.entries, entry.node.state = .ready) ∧
    floor.locks.tree? ⟨0, 1⟩ = some tree ∧ tree.locked < tree.budget ∧
    ¬ floor.locks.isLocked (.lease ⟨0, 1⟩) ∧
    (plan.select ⟨0, 1⟩ { locks := floor.locks }).1.toOption = some none := by
  have played : play {} kneading = some ((play {} kneading).getD {}) := by decide +kernel
  have found : ((play {} kneading).getD {}).plans[0]? =
      some ((play {} kneading).getD {}).plans[0]! := by decide +kernel
  have planted : ((play {} kneading).getD {}).locks.tree? ⟨0, 1⟩ =
      some ((play {} kneading).getD {}).locks.trees[0]! := by decide +kernel
  exact ⟨_, _, _, played, found, by decide +kernel, by decide +kernel, by decide +kernel, planted,
    by decide +kernel, by decide +kernel, by decide +kernel⟩

end Floor
end Foreman
