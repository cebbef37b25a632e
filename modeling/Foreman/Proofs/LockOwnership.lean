import Foreman.Proofs.FloorActs
import Mathlib.Algebra.GroupWithZero.Nat

/-! Who owns the locks of a floor. A lease is locked while a node that it was
selected for is being executed, a resource while a node that needs it is, and the
tree counts exactly the nodes that are being executed. -/

namespace Foreman

def Plan.busy (plan : Plan) : Nat := plan.entries.countP (·.node.state = .executing)

namespace Floor

variable {floor : Floor} {place node : Nat} {plan : Plan} {lease : Lease} {entry : Entry}

/-! Who owns what. -/

def Runs (floor : Floor) (place node : Nat) (entry : Entry) : Prop :=
  ∃ plan, floor.plans[place]? = some plan ∧ plan.entries[node]? = some entry ∧
    entry.node.state = .executing

theorem Kept.runs (kept : floor.Kept) (runs : floor.Runs place node entry) :
    floor.locksOf place node = entry.node.held ∧
      ∃ lease, ⟨lease, place, node⟩ ∈ floor.out ∧
        entry.node.held = .lease lease :: entry.node.resources.map (.resource place) := by
  obtain ⟨plan, found, present, executing⟩ := runs
  obtain ⟨engaged, out⟩ := kept.ticket found present executing
  exact ⟨locksOf_eq engaged, out⟩

/-- A lock is locked while a node holds it that is being executed. -/
theorem Kept.locked_iff (kept : floor.Kept) (lock : Lock) :
    floor.locks.isLocked lock ↔
      ∃ place node entry, floor.Runs place node entry ∧ lock ∈ entry.node.held := by
  rw [kept.locked]
  constructor
  · rintro ⟨ticket, out, holds⟩
    obtain ⟨names, sent⟩ := kept.sent ticket out
    obtain ⟨plan, found, engaged⟩ := Option.bind_eq_some_iff.mp sent
    obtain ⟨entry, present, executing, _, held⟩ := Plan.engaged?_iff.mp engaged
    rw [locksOf_eq sent, ← held] at holds
    exact ⟨ticket.place, ticket.node, entry, ⟨plan, found, present, executing⟩, holds⟩
  · rintro ⟨place, node, entry, runs, holds⟩
    obtain ⟨held, lease, out, _⟩ := kept.runs runs
    exact ⟨_, out, held ▸ holds⟩

/-- No two nodes hold one lock. -/
theorem Kept.holder (kept : floor.Kept) {lock : Lock} {place' node' : Nat} {rival : Entry}
    (runs : floor.Runs place node entry) (holds : lock ∈ entry.node.held)
    (other : floor.Runs place' node' rival) (again : lock ∈ rival.node.held) :
    place = place' ∧ node = node' := by
  obtain ⟨held, lease, out, _⟩ := kept.runs runs
  obtain ⟨held', lease', out', _⟩ := kept.runs other
  have same := kept.apart _ out _ out' lock (held ▸ holds) (held' ▸ again)
  exact ⟨congrArg Ticket.place same, congrArg Ticket.node same⟩

/-! The count of the tree. -/

def spots (floor : Floor) : List (Nat × Nat) :=
  (List.range floor.plans.length).flatMap fun place =>
    ((List.range ((floor.plans[place]?.map (·.size)).getD 0)).filter fun node =>
      (floor.engaged? place node).isSome).map (place, ·)

private theorem mem_spots {spot : Nat × Nat} :
    spot ∈ floor.spots ↔ (floor.engaged? spot.1 spot.2).isSome := by
  obtain ⟨place, node⟩ := spot
  simp only [spots, List.mem_flatMap, List.mem_map, List.mem_filter, List.mem_range, Prod.mk.injEq]
  constructor
  · rintro ⟨_, _, _, ⟨_, engaged⟩, rfl, rfl⟩
    exact engaged
  · intro engaged
    obtain ⟨⟨names, held⟩, some_⟩ := Option.isSome_iff_exists.mp engaged
    obtain ⟨plan, found, busy⟩ := Option.bind_eq_some_iff.mp some_
    obtain ⟨entry, present, _⟩ := Plan.engaged?_iff.mp busy
    have inside := (List.getElem?_eq_some_iff.mp found).1
    have within := (List.getElem?_eq_some_iff.mp present).1
    exact ⟨place, inside, node, ⟨by simpa [found, Plan.size] using within, engaged⟩, rfl, rfl⟩

private theorem spots_nodup (floor : Floor) : floor.spots.Nodup := by
  rw [spots, List.Nodup, List.pairwise_flatMap]
  constructor
  · intro place _
    rw [List.pairwise_map]
    apply List.Pairwise.imp _ (List.nodup_range.filter _)
    intro first second differs same
    exact differs (Prod.mk.inj same).2
  · apply List.nodup_range.imp
    intro first second differs spot member other member' same
    obtain ⟨_, _, rfl⟩ := List.mem_map.mp member
    obtain ⟨_, _, rfl⟩ := List.mem_map.mp member'
    exact differs (Prod.mk.inj same).1

private theorem length_spots (floor : Floor) :
    floor.spots.length = (floor.plans.map (·.busy)).sum := by
  rw [spots, List.length_flatMap]
  congr 1
  apply List.ext_getElem (by simp)
  intro place inside _
  rw [List.length_map, List.length_range] at inside
  have found := List.getElem?_eq_getElem inside
  simp only [List.getElem_map, List.getElem_range, List.length_map, found, Option.map_some,
    Option.getD_some, engaged?_eq found, ← List.countP_eq_length_filter, Plan.busy]
  rw [← countP_places (floor.plans[place]).entries]
  apply List.countP_congr
  intro node _
  cases present : (floor.plans[place]).entries[node]? with
  | none => simp [Plan.engaged?, present]
  | some entry => by_cases busy : entry.node.state = .executing <;> simp [Plan.engaged?, present, busy]

/-- A tree counts the nodes that are out with its leases. -/
theorem Kept.locked_out (kept : floor.Kept) {index : Nat} {tree : LeaseTree}
    (found : floor.locks.trees[index]? = some tree) :
    tree.locked = (floor.out.filter (·.lease.tree = index)).length := by
  have sound := kept.sound.trees index tree found
  let own := floor.out.filter (·.lease.tree = index)
  rw [LeaseTree.locked_eq_length sound (own.map (·.lease.place)), List.length_map]
  · rw [List.Nodup, List.pairwise_map]
    apply List.Pairwise.imp_of_mem _ (kept.distinct.filter _)
    intro ticket rival member member' differs same
    obtain ⟨out, here⟩ := List.mem_filter.mp member
    obtain ⟨again, there⟩ := List.mem_filter.mp member'
    have leases : rival.lease = ticket.lease := by
      cases left : rival.lease
      cases right : ticket.lease
      simp_all
    have holds := kept.holds_lease again
    rw [leases] at holds
    exact differs (kept.apart ticket out rival again _ (kept.holds_lease out) holds)
  · intro place
    have shown : floor.locks.isLocked (.lease ⟨index, place⟩) ↔ tree.isLocked place :=
      Locks.isLocked_tree found
    rw [← shown, kept.lease_locked, List.mem_map]
    constructor
    · rintro ⟨ticket, member, rfl⟩
      obtain ⟨out, here⟩ := List.mem_filter.mp member
      exact ⟨ticket, out, by simp [← of_decide_eq_true here]⟩
    · rintro ⟨ticket, out, same⟩
      exact ⟨ticket, List.mem_filter.mpr ⟨out, by simp [same]⟩, by rw [same]⟩

theorem Kept.length_out (kept : floor.Kept) :
    floor.out.length = (floor.plans.map (·.busy)).sum := by
  rw [← length_spots, ← List.length_map (fun ticket : Ticket => (ticket.place, ticket.node))]
  apply List.Perm.length_eq
  rw [List.perm_ext_iff_of_nodup _ (spots_nodup floor)]
  · intro spot
    rw [mem_spots, List.mem_map, Option.isSome_iff_exists]
    constructor
    · rintro ⟨ticket, out, rfl⟩
      obtain ⟨names, sent⟩ := kept.sent ticket out
      exact ⟨_, sent⟩
    · rintro ⟨⟨names, held⟩, engaged⟩
      obtain ⟨lease, out⟩ := kept.engaged _ _ names held engaged
      exact ⟨_, out, rfl⟩
  · rw [List.Nodup, List.pairwise_map]
    apply List.Pairwise.imp_of_mem _ kept.distinct
    intro ticket rival out again differs same
    obtain ⟨place, node⟩ := Prod.mk.inj same
    exact differs (kept.sole again out place node)

private theorem head_lease {held : List Lock} {names : List String} {own : Lease}
    (shape : held = .lease own :: names.map (.resource place)) :
    .lease lease ∈ held ↔ held.head? = some (.lease lease) := by
  simp [shape, eq_comm]

private theorem resource_held {held : List Lock} {names : List String} {own : Lease} {name : String}
    (shape : held = .lease own :: names.map (.resource place)) :
    .resource place name ∈ held ↔ name ∈ names := by
  simp [shape]

theorem Kept.resource_locked (kept : floor.Kept) (found : floor.plans[place]? = some plan)
    {name : String} : floor.locks.isLocked (plan.resourceLock name) ↔
      ∃ node entry, floor.Runs place node entry ∧ name ∈ entry.node.resources := by
  have lock : plan.resourceLock name = .resource place name := by
    rw [Plan.resourceLock, (kept.plans place plan found).2]
  rw [lock, kept.locked_iff]
  constructor
  · rintro ⟨other, node, entry, runs, holds⟩
    obtain ⟨_, own, _, shape⟩ := kept.runs runs
    have here : other = place := by
      rw [shape] at holds
      simp only [List.mem_cons, reduceCtorEq, List.mem_map, Lock.resource.injEq, false_or] at holds
      obtain ⟨_, _, same, _⟩ := holds
      exact same
    subst here
    exact ⟨node, entry, runs, (resource_held shape).mp holds⟩
  · rintro ⟨node, entry, runs, named⟩
    obtain ⟨_, own, _, shape⟩ := kept.runs runs
    exact ⟨place, node, entry, runs, (resource_held shape).mpr named⟩

/-- Of whichever plans enter a floor, and in whichever order its acts follow: a lease is
locked exactly while it is the first lock of some node that is being executed, and a
resource exactly while such a node of its plan names it; no lock belongs to two nodes.
A node that is being executed holds the lease that it was selected for and its resources,
in this order, and any other node holds nothing. If there is one tree, it counts the
nodes that are being executed, which are no more than its budget. So to complete a node
that is not being executed changes nothing. -/
theorem locks_owned {acts : List Act} (played : play {} acts = some floor) :
    (∀ lease, floor.locks.isLocked (.lease lease) ↔ ∃ place node entry,
      floor.Runs place node entry ∧ entry.node.held.head? = some (.lease lease)) ∧
    (∀ (place : Nat) (plan : Plan), floor.plans[place]? = some plan → ∀ name,
      floor.locks.isLocked (plan.resourceLock name) ↔ ∃ node entry,
        floor.Runs place node entry ∧ name ∈ entry.node.resources) ∧
    (∀ place node entry place' node' rival, floor.Runs place node entry →
      floor.Runs place' node' rival → ∀ lock ∈ entry.node.held, lock ∈ rival.node.held →
        place = place' ∧ node = node') ∧
    (∀ (place : Nat) (plan : Plan), floor.plans[place]? = some plan →
      ∀ (node : Nat) (entry : Entry), plan.entries[node]? = some entry →
        if entry.node.state = .executing then
          ∃ lease, ⟨lease, place, node⟩ ∈ floor.out ∧
            entry.node.held = .lease lease :: entry.node.resources.map plan.resourceLock
        else entry.node.held = []) ∧
    (∀ tree, floor.locks.trees = [tree] →
      tree.locked = (floor.plans.map (·.busy)).sum ∧ tree.locked ≤ tree.budget) ∧
    ∀ (place : Nat) (plan : Plan), floor.plans[place]? = some plan → ∀ node,
      plan.state? node ≠ some .executing →
        plan.complete node floor.locks = (plan, floor.locks) := by
  have kept := (empty_kept.play played).1
  refine ⟨?_, ?_, ?_, ?_, ?_, ?_⟩
  · intro lease
    rw [kept.locked_iff]
    constructor
    · rintro ⟨place, node, entry, runs, holds⟩
      obtain ⟨_, own, _, shape⟩ := kept.runs runs
      exact ⟨place, node, entry, runs, (head_lease shape).mp holds⟩
    · rintro ⟨place, node, entry, runs, first⟩
      obtain ⟨_, own, _, shape⟩ := kept.runs runs
      exact ⟨place, node, entry, runs, (head_lease shape).mpr first⟩
  · exact fun place plan found name => kept.resource_locked found
  · exact fun _ _ _ _ _ _ runs other lock holds again => kept.holder runs holds other again
  · intro place plan found node entry present
    obtain ⟨valid, scope⟩ := kept.plans place plan found
    split
    next executing =>
      obtain ⟨_, lease, out, shape⟩ := kept.runs ⟨plan, found, present, executing⟩
      refine ⟨lease, out, ?_⟩
      rw [shape, ← scope]
      rfl
    next other =>
      apply Decidable.of_not_not
      exact fun holds => other (valid.coherent.holding node entry present holds)
  · intro tree single
    have found : floor.locks.trees[0]? = some tree := by simp [single]
    refine ⟨?_, (kept.sound.trees 0 tree found).within⟩
    rw [kept.locked_out found, ← kept.length_out, List.filter_eq_self.mpr]
    intro ticket out
    obtain ⟨planted, present, _⟩ := Locks.isLocked_lease.mp
      (kept.lease_locked.mpr ⟨ticket, out, rfl⟩)
    have inside := (List.getElem?_eq_some_iff.mp present).1
    simp only [single, List.length_singleton] at inside
    simp only [decide_eq_true_eq]
    omega
  · exact fun place plan found node other => kept.complete_idle found other

/-- Two plans with a node each for an oven of their own. The second node of the first
plan has to wait for the oven, and completing it has no effect. -/
private def morning : List Act :=
  [ .plant "staff" 2, .enter "bakery" true, .enter "kitchen" true, .hire ⟨0, 0⟩, .hire ⟨0, 1⟩,
    .hire ⟨0, 0⟩, .tend 0 (.add "bread" [] ["oven", "tray"]), .tend 0 (.add "rolls" [] ["oven"]),
    .tend 1 (.add "roast" [] ["oven"]), .tend 0 .populate, .tend 1 .populate,
    .select 0 ⟨0, 1⟩, .select 0 ⟨0, 2⟩, .select 1 ⟨0, 3⟩, .select 0 ⟨0, 2⟩, .complete 0 1 ]

theorem locks_of_morning : ∃ floor, play {} morning = some floor ∧
    (∀ lease, floor.locks.isLocked (.lease lease) ↔ ∃ place node entry,
      floor.Runs place node entry ∧ entry.node.held.head? = some (.lease lease)) ∧
    (floor.plans.map (·.busy)).sum = 2 ∧ floor.out = [⟨⟨0, 3⟩, 1, 0⟩, ⟨⟨0, 1⟩, 0, 0⟩] := by
  have runs : (play {} morning).map (fun floor => ((floor.plans.map (·.busy)).sum, floor.out)) =
      some (2, [⟨⟨0, 3⟩, 1, 0⟩, ⟨⟨0, 1⟩, 0, 0⟩]) := by decide +kernel
  obtain ⟨floor, played, shown⟩ := Option.map_eq_some_iff.mp runs
  obtain ⟨busy, out⟩ := Prod.mk.inj shown
  exact ⟨floor, played, (locks_owned played).1, busy, out⟩

end Floor
end Foreman
