import Foreman.Proofs.BudgetAccounts
import Foreman.Proofs.PlanRecords

/-! Who is selected. The lease gets the first node of the queue that fits: it names no
resource twice, and none of its resources is locked. The nodes before it are tried and
given up again, which shows in no lock. A selection that finds nobody leaves all as it
was. -/

namespace Foreman

/-- The lease is unlocked, and the budget of its tree is used up. -/
def Locks.Spent (locks : Locks) (lease : Lease) : Prop :=
  ¬ locks.isLocked (.lease lease) ∧
    ∃ tree, locks.tree? lease = some tree ∧ tree.budget ≤ tree.locked

theorem Locks.Has.refused_iff {locks : Locks} {lease : Lease} (known : locks.Has lease) :
    locks.ask (.lease lease) = .refused ↔ locks.Spent lease := by
  obtain ⟨tree, found, inside⟩ := known
  rw [ask_refused_iff found inside, Spent]
  constructor
  · exact fun refused => ⟨refused.1, tree, found, refused.2⟩
  · rintro ⟨free, other, again, spent⟩
    cases Option.some.inj (found.symm.trans again)
    exact ⟨free, spent⟩

namespace Plan

variable {plan after : Plan} {pass later : Pass} {locks other : Locks} {lease : Lease}
  {node : Nat} {entry : Entry} {owed : Nat → Nat} {stale : Nat → Prop}

/-! The first node that fits. -/

/-- The node names no resource twice, and none of its resources is locked. -/
def fits (plan : Plan) (locks : Locks) (node : Nat) : Bool :=
  (plan.resourcesOf node).Nodup ∧
    ∀ name ∈ plan.resourcesOf node, locks.isLocked (plan.resourceLock name) = false

theorem fits_iff : plan.fits locks node ↔ ¬ locks.Blocked (plan.wanted node) := by
  simp only [fits, decide_eq_true_eq, Locks.Blocked, wanted_nodup, mem_wanted, not_or,
    Decidable.not_not, not_exists, not_and]
  constructor
  · rintro ⟨plain, free⟩
    refine ⟨plain, ?_⟩
    rintro _ ⟨name, member, rfl⟩
    simp [free name member]
  · rintro ⟨plain, free⟩
    exact ⟨plain, fun name member => by simpa using free _ ⟨name, member, rfl⟩⟩

theorem fits_congr (same : ∀ node, locks.Blocked (plan.wanted node) ↔ other.Blocked (plan.wanted node)) :
    plan.fits locks = plan.fits other := by
  funext node
  rw [Bool.eq_iff_iff, fits_iff, fits_iff, same]

/-- The attempts at the nodes of a queue come to the first of them that fits. -/
theorem firstFit_find (queue : List Nat) (pass : Pass) :
    (plan.firstFit queue pass).1 = queue.find? (plan.fits pass.locks) := by
  induction queue generalizing pass with
  | nil => rfl
  | cons head rest ih =>
    simp only [firstFit]
    split
    next taken tried =>
      have took := Pass.tryLockAll_took (plan.wanted_resources head) tried
      have fits : plan.fits pass.locks head := by
        rw [fits_iff]
        rintro (repeated | ⟨lock, member, held⟩)
        · exact repeated took.distinct
        · exact took.free lock member held
      rw [List.find?_cons_of_pos fits]
    next missed tried =>
      obtain ⟨blocked, undone⟩ := Pass.tryLockAll_missed (plan.wanted_resources head) tried
      have unfit : ¬ plan.fits pass.locks head := fun fits => fits_iff.mp fits blocked
      have same : plan.fits missed.locks = plan.fits pass.locks :=
        fits_congr fun _ => ⟨.back undone.alike, .back undone.alike.symm⟩
      rw [List.find?_cons_of_neg unfit, ih, same]

/-- The queue holds the ready nodes, so a ready node that fits is among its own. -/
theorem Coherent.find_isSome (coherent : plan.Coherent owed stale) (locks : Locks) :
    (plan.queue.find? (plan.fits locks)).isSome ↔
      ∃ node, plan.state? node = some .ready ∧ plan.fits locks node := by
  rw [List.find?_isSome]
  simp only [coherent.queued]

/-! The selection. -/

/-- The node is handed to the lease: it is executed and holds the lease and then its
resources, and these locks are locked besides the others. It was the first of the
queue that fits, and the others stay in the queue in their order. -/
structure Takes (plan : Plan) (lease : Lease) (pass : Pass) (node : Nat) (after : Plan)
    (later : Pass) : Prop where
  fits : plan.fits pass.locks node
  first : ∃ earlier rest, plan.queue = earlier ++ node :: rest ∧ after.queue = earlier ++ rest ∧
    ∀ other ∈ earlier, ¬ plan.fits pass.locks other
  own : ∃ entry, plan.entries[node]? = some entry ∧ entry.node.state = .ready ∧
    after.entries = plan.entries.set node { entry with
      node.state := .executing
      node.started := true
      node.held := .lease lease :: entry.node.resources.map plan.resourceLock }
  rest : after = { plan with queue := after.queue, entries := after.entries }
  locked : ∀ lock, later.locks.isLocked lock ↔ pass.locks.isLocked lock ∨ lock = .lease lease ∨
    ∃ name ∈ plan.resourcesOf node, plan.resourceLock name = lock

private theorem hand_takes (coherent : plan.Coherent owed stale)
    (first : plan.queue.find? (plan.fits pass.locks) = some node)
    (found : plan.entries[node]? = some entry) (ready : entry.node.state = .ready)
    (locked : ∀ lock, later.locks.isLocked lock ↔
      lock ∈ plan.wanted node ∨ lock = .lease lease ∨ pass.locks.isLocked lock) :
    plan.Takes lease pass node (plan.hand lease node entry) later := by
  obtain ⟨fits, earlier, rest, queue, others⟩ := List.find?_eq_some_iff_append.mp first
  have distinct := coherent.distinct
  rw [queue] at distinct
  have absent : node ∉ earlier := by
    intro member
    exact (List.nodup_append.mp distinct).2.2 node member node List.mem_cons_self rfl
  refine ⟨fits, ⟨earlier, rest, queue, ?_, ?_⟩, ⟨entry, found, ready, ?_⟩, rfl, ?_⟩
  · rw [hand, queue, List.erase_append_right _ absent, List.erase_cons_head]
  · intro other member
    simpa using others other member
  · simp [hand, handed, Node.enter, State.isTerminal]
  · intro lock
    rw [locked, mem_wanted, or_comm, or_assoc, or_left_comm]

/-- A plan gives nothing away while it has no ready node or the lease is refused. -/
theorem select_refused (refused : plan.queue = [] ∨ pass.locks.ask (.lease lease) = .refused) :
    plan.select lease pass = (.ok none, plan, pass) := by
  unfold select
  split
  · rfl
  next open_ =>
    have asked := refused.resolve_left fun empty => open_ (List.isEmpty_iff.mpr empty)
    simp [Pass.tryLock, asked]

theorem select_granted (coherent : plan.Coherent owed stale)
    (granted : pass.locks.ask (.lease lease) ≠ .refused) :
    (∃ node after later, plan.queue.find? (plan.fits pass.locks) = some node ∧
        plan.select lease pass = (.ok (some node), after, later) ∧
        plan.Takes lease pass node after later) ∨
      ∃ later, plan.queue.find? (plan.fits pass.locks) = none ∧
        plan.select lease pass = (.ok none, plan, later) ∧ pass.locks.Alike later.locks := by
  unfold select
  split
  next empty =>
    rw [List.isEmpty_iff.mp empty]
    exact Or.inr ⟨pass, rfl, rfl, .refl _⟩
  · simp only
    split
    next refused tried => exact absurd (Pass.tryLock_refused tried).2 granted
    next got tried =>
      obtain ⟨locked, _⟩ := tryLock_lease tried
      have same : plan.fits got.locks = plan.fits pass.locks := fits_congr fun _ => blocked_lease locked
      have first := plan.firstFit_find plan.queue got
      rw [same] at first
      split
      next node last tries =>
        rw [tries] at first
        obtain ⟨member, took⟩ := firstFit_some tries
        obtain ⟨entry, found, ready⟩ := entry_of_state? ((coherent.queued node).mp member)
        rw [dispatch_ready found ready]
        refine Or.inl ⟨node, _, last, first.symm, rfl, ?_⟩
        apply hand_takes coherent first.symm found ready
        intro lock
        rw [took.locked, locked]
      next last tries =>
        rw [tries] at first
        exact Or.inr ⟨_, first.symm, rfl, alike_lease locked (firstFit_none tries).2.alike⟩

/-- Whatever was called on a fresh plan, and whatever locks and whatever book there are:
a selection for a lease changes nothing at all while no node is ready, or while the
lease is unlocked and its tree has no permit left. Otherwise the lease gets the first
node of the queue that fits, if a ready node fits. If none does, there is no answer, the
plan is as before, and so is each lock. When there is no answer and the book was empty
before, undoing the book changes no lock either. -/
theorem selection_first_fit (name : String) (scope : Nat) (rule : Bool) (desk : Desk)
    (calls : List Operation) (orderly : ∀ call ∈ calls, call.isOrderly = true) (lease : Lease)
    (pass : Pass) (known : pass.locks.Has lease) :
    let plan := (Session.run { plan := empty name scope rule, desk } calls).plan
    (plan.queue = [] ∨ pass.locks.Spent lease → plan.select lease pass = (.ok none, plan, pass)) ∧
    (¬ pass.locks.Spent lease → (∃ node, plan.state? node = some .ready ∧ plan.fits pass.locks node) →
      ∃ node after later, plan.select lease pass = (.ok (some node), after, later) ∧
        plan.Takes lease pass node after later) ∧
    ((¬ ∃ node, plan.state? node = some .ready ∧ plan.fits pass.locks node) →
      ∃ later, plan.select lease pass = (.ok none, plan, later) ∧ pass.locks.Alike later.locks) ∧
    (pass.book.acquired = [] → (plan.select lease pass).1 = .ok none →
      pass.locks.Alike (plan.select lease pass).2.2.release.locks) := by
  intro plan
  have valid : plan.Valid := Session.run_valid (empty_valid name scope rule).1 orderly
  have refused := known.refused_iff
  have fitting := valid.coherent.find_isSome pass.locks
  refine ⟨fun why => select_refused (why.imp id refused.mpr), fun spare fits => ?_, fun unfit => ?_,
    fun fresh none => ?_⟩
  · rcases select_granted valid.coherent (mt refused.mp spare) with
      ⟨node, after, later, _, selects, takes⟩ | ⟨_, absent, _⟩
    · exact ⟨node, after, later, selects, takes⟩
    · simp [← fitting, absent] at fits
  · by_cases spent : pass.locks.Spent lease
    · exact ⟨pass, select_refused (Or.inr (refused.mpr spent)), .refl _⟩
    · rcases select_granted valid.coherent (mt refused.mp spent) with
        ⟨_, _, _, first, _⟩ | ⟨later, _, selects, alike⟩
      · simp [← fitting, first] at unfit
      · exact ⟨later, selects, alike⟩
  · have selection := select_selection valid.coherent lease fresh
    generalize plan.select lease pass = result at selection none
    cases selection with
    | none later _ idles => exact idles.alike
    | some => cases none

private def cooking : List Operation :=
  [ .add "cake" [] ["bowl", "oven"], .add "omelette" [] ["pan", "pan"],
    .add "salad" [] ["knife", "bowl"], .add "soup" [] ["pan"], .populate ]

private def shift : Pass :=
  { locks :=
      { trees := [{ name := "cooks", budget := 2, leases := [false, true, false], locked := 1, peak := 1 }]
        resources := [(0, "oven")] }
    book := { acquired := [.resource 0 "oven", .lease ⟨0, 1⟩] } }

private def menu : Plan := (Session.run { plan := empty "menu" 0 true } cooking).plan

theorem cooking_first_fit : menu.queue = [0, 1, 2, 3] ∧
    ∃ after later, menu.select ⟨0, 2⟩ shift = (.ok (some 2), after, later) ∧
      menu.Takes ⟨0, 2⟩ shift 2 after later ∧ after.queue = [0, 1, 3] := by
  have spare : ¬ shift.locks.Spent ⟨0, 2⟩ := by
    rintro ⟨_, tree, found, full⟩
    cases found
    exact absurd full (by decide)
  have known : shift.locks.Has ⟨0, 2⟩ := ⟨_, rfl, by decide⟩
  obtain ⟨node, after, later, selects, takes⟩ :=
    (selection_first_fit "menu" 0 true {} cooking (by decide) ⟨0, 2⟩ shift known).2.1 spare
      ⟨2, by decide +kernel, by decide +kernel⟩
  have chosen : (menu.select ⟨0, 2⟩ shift).1.toOption = some (some 2) := by decide +kernel
  have queue : (menu.select ⟨0, 2⟩ shift).2.1.queue = [0, 1, 3] := by decide +kernel
  rw [menu, selects] at chosen queue
  cases chosen
  exact ⟨by decide +kernel, after, later, selects, takes, queue⟩

end Plan
end Foreman
