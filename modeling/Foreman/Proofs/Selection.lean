import Foreman.Plan.Select
import Foreman.Proofs.PassLocks
import Foreman.Proofs.PlanMoves

/-! What a selection comes to. Either it hands a ready node to the lease and locks
the lease and the resources of the node, or it leaves plan and locks as they
were. In a plan that is in order it raises no fault. -/

namespace Foreman.Plan

variable {plan after : Plan} {pass later : Pass} {lease : Lease} {position : Nat} {entry : Entry}
  {owed : Nat → Nat} {stale : Nat → Prop}

def wanted (plan : Plan) (position : Nat) : List Lock :=
  (((plan.node? position).map (·.resources)).getD []).map plan.resourceLock

theorem wanted_eq (found : plan.entries[position]? = some entry) :
    plan.wanted position = entry.node.resources.map plan.resourceLock := by
  simp [wanted, node?, found]

def resourcesOf (plan : Plan) (position : Nat) : List String :=
  ((plan.node? position).map (·.resources)).getD []

theorem resourcesOf_eq (found : plan.entries[position]? = some entry) :
    plan.resourcesOf position = entry.node.resources := by
  simp [resourcesOf, node?, found]

theorem mem_wanted {lock : Lock} :
    lock ∈ plan.wanted position ↔ ∃ name ∈ plan.resourcesOf position, plan.resourceLock name = lock :=
  List.mem_map

theorem wanted_nodup : (plan.wanted position).Nodup ↔ (plan.resourcesOf position).Nodup := by
  rw [wanted, List.Nodup, List.pairwise_map]
  simp [resourceLock, List.Nodup, resourcesOf]

theorem wanted_resources (plan : Plan) (position : Nat) : Pass.Resources (plan.wanted position) := by
  intro lock member
  obtain ⟨name, _, rfl⟩ := List.mem_map.mp member
  exact ⟨plan.scope, name, rfl⟩

theorem lease_not_wanted (plan : Plan) (lease : Lease) (position : Nat) :
    .lease lease ∉ plan.wanted position := by
  intro member
  obtain ⟨scope, name, same⟩ := wanted_resources plan position _ member
  cases same

theorem firstFit_some {queue : List Nat} (fits : plan.firstFit queue pass = (some position, later)) :
    position ∈ queue ∧ Pass.Took pass (plan.wanted position) later := by
  induction queue generalizing pass with
  | nil => cases fits
  | cons head rest ih =>
    simp only [firstFit] at fits
    split at fits
    next tried =>
      cases fits
      exact ⟨List.mem_cons_self, Pass.tryLockAll_took (plan.wanted_resources _) tried⟩
    next tried =>
      obtain ⟨_, undone⟩ := Pass.tryLockAll_missed (plan.wanted_resources head) tried
      obtain ⟨member, took⟩ := ih fits
      exact ⟨List.mem_cons_of_mem _ member, undone.took took⟩

theorem firstFit_first {queue : List Nat}
    (fits : plan.firstFit queue pass = (some position, later)) :
    ∃ earlier rest, queue = earlier ++ position :: rest ∧
      ∀ other ∈ earlier, pass.locks.Blocked (plan.wanted other) := by
  induction queue generalizing pass with
  | nil => cases fits
  | cons head rest ih =>
    simp only [firstFit] at fits
    split at fits
    · cases fits
      exact ⟨[], rest, rfl, by simp⟩
    next tried =>
      obtain ⟨blocked, undone⟩ := Pass.tryLockAll_missed (plan.wanted_resources head) tried
      obtain ⟨earlier, later, rfl, others⟩ := ih fits
      refine ⟨head :: earlier, later, rfl, fun other member => ?_⟩
      rcases List.mem_cons.mp member with rfl | member
      · exact blocked
      · exact (others other member).back undone.alike

theorem firstFit_none {queue : List Nat} (fits : plan.firstFit queue pass = (none, later)) :
    (∀ position ∈ queue, pass.locks.Blocked (plan.wanted position)) ∧ Pass.Undone pass later := by
  induction queue generalizing pass with
  | nil =>
    cases fits
    exact ⟨by simp, .refl _⟩
  | cons head rest ih =>
    simp only [firstFit] at fits
    split at fits
    · cases fits
    next tried =>
      obtain ⟨blocked, undone⟩ := Pass.tryLockAll_missed (plan.wanted_resources head) tried
      obtain ⟨others, undoneAll⟩ := ih fits
      refine ⟨?_, undone.trans undoneAll⟩
      intro position member
      rcases List.mem_cons.mp member with rfl | member
      · exact blocked
      · exact (others position member).back undone.alike

/-! Handing over a node. -/

def handed (plan : Plan) (lease : Lease) (entry : Entry) : Entry :=
  { entry with
    node := { entry.node with
      held := .lease lease :: entry.node.resources.map plan.resourceLock }.enter .executing }

/-- The plan that has handed a node over. -/
def hand (plan : Plan) (lease : Lease) (position : Nat) (entry : Entry) : Plan :=
  { plan with
    queue := plan.queue.erase position
    entries := plan.entries.set position (plan.handed lease entry) }

private theorem hand_entries (found : plan.entries[position]? = some entry) (f : Node → Node)
    (node : Node) :
    (plan.entries.modify position fun entry => { entry with node := f entry.node }).modify position
        (fun entry => { entry with node }) = plan.entries.set position { entry with node } := by
  have changes := modify_modify found (fun entry => { entry with node := f entry.node })
    (fun entry => { entry with node })
  exact changes

theorem dispatch_ready (found : plan.entries[position]? = some entry)
    (ready : entry.node.state = .ready) :
    plan.dispatch lease position = (.ok position, plan.hand lease position entry) := by
  have entries := hand_entries found
    (fun node => { node with held := .lease lease :: node.resources.map plan.resourceLock })
    (plan.handed lease entry).node
  simp only [dispatch, node?, modifyNode, entries_modify, if_pos, found, Option.map_some,
    Node.moveTo, ready, State.canMoveTo, Prod.mk.injEq, true_and]
  simp only [modify, hand]
  rw [← ready]
  exact congrArg (fun entries => { plan with queue := plan.queue.erase position, entries }) entries

theorem Replaces.hand (coherent : plan.Coherent owed stale) (lease : Lease)
    (found : plan.entries[position]? = some entry) (ready : entry.node.state = .ready) :
    plan.Replaces position entry (plan.handed lease entry) (plan.hand lease position entry) :=
  { name := rfl
    scope := rfl
    rule := rfl
    found := found
    links := ⟨rfl, rfl, rfl, rfl, fun seen => seen⟩
    entries := rfl
    remaining := by simp [Plan.hand, handed, ready, Node.enter, State.isTerminal]
    distinct := coherent.distinct.erase _
    queued := by
      intro other
      simp only [Plan.hand, coherent.distinct.mem_erase_iff, handed, Node.enter]
      split <;> simp_all }

theorem Valid.hand (valid : plan.Valid) (found : plan.entries[position]? = some entry)
    (ready : entry.node.state = .ready) : (plan.hand lease position entry).Valid := by
  have replaces := Replaces.hand valid.coherent lease found ready
  refine ⟨valid.coherent.replace replaces ?_ ?_ ?_ ?_ ?_ ?_, Or.inl ?_⟩
  · simp [ready]
  · exact fun _ _ => valid.coherent.served position entry found (by simp [ready]) (by simp [ready])
  · exact fun _ => rfl
  · simp [handed, Node.enter]
  · exact fun _ _ fresh => ⟨fresh, fun _ => Or.inr (by simp [handed, Node.enter])⟩
  · simp [handed, Node.enter]
  · exact (valid.begun found (by simp [ready])).keep replaces.keeps rfl rfl

/-! The selection as a whole. -/

/-- Why a lease gets no node. -/
def Starved (plan : Plan) (lease : Lease) (locks : Locks) : Prop :=
  plan.queue = [] ∨ locks.ask (.lease lease) = .refused ∨
    ∀ position ∈ plan.queue, locks.Blocked (plan.wanted position)

/-- The lease got the node, and with it the resources of the node, which nobody
held. Every node before it in the queue was blocked. -/
structure Selects (plan : Plan) (lease : Lease) (pass : Pass) (position : Nat) (entry : Entry)
    (later : Pass) : Prop where
  found : plan.entries[position]? = some entry
  ready : entry.node.state = .ready
  first : ∃ earlier rest, plan.queue = earlier ++ position :: rest ∧
    ∀ other ∈ earlier, pass.locks.Blocked (plan.wanted other)
  free : ∀ lock ∈ plan.wanted position, ¬ pass.locks.isLocked lock
  distinct : (plan.wanted position).Nodup
  locked : ∀ lock, later.locks.isLocked lock ↔
    lock = .lease lease ∨ lock ∈ plan.wanted position ∨ pass.locks.isLocked lock
  changed : later.book.changed = pass.book.changed
  steady : Pass.Steady pass.locks later.locks

/-- No lock changed but those that the pass gives back when it is undone. -/
structure Idles (pass later : Pass) : Prop where
  alike : pass.locks.Alike later.release.locks
  changed : later.book.changed = pass.book.changed
  steady : Pass.Steady pass.locks later.release.locks

inductive Selection (plan : Plan) (lease : Lease) (pass : Pass) :
    Except Fault (Option Nat) × Plan × Pass → Prop where
  | none (later : Pass) (starved : plan.Starved lease pass.locks) (idles : Idles pass later) :
      Selection plan lease pass (.ok none, plan, later)
  | some (position : Nat) (entry : Entry) (later : Pass)
      (selects : plan.Selects lease pass position entry later) :
      Selection plan lease pass (.ok (some position), plan.hand lease position entry, later)

/-- A lease that was granted is locked besides the others, and the book gets it only if
it was not locked before. -/
theorem tryLock_lease (tried : pass.tryLock (.lease lease) = (true, later)) :
    (∀ lock, later.locks.isLocked lock ↔ lock = .lease lease ∨ pass.locks.isLocked lock) ∧
      (∀ lock ∈ later.book.acquired, lock ∈ pass.book.acquired ∨ ¬ pass.locks.isLocked lock) ∧
      later.book.changed = pass.book.changed ∧ Pass.Steady pass.locks later.locks := by
  have attempt := Pass.tryLock_attempt pass (.lease lease)
  rw [tried] at attempt
  cases attempt with
  | held asked =>
    refine ⟨fun lock => ⟨Or.inr, ?_⟩, fun _ => Or.inl, rfl, .refl _⟩
    intro held
    rcases held with rfl | held
    · exact Locks.ask_held asked
    · exact held
  | taken locks asked =>
    refine ⟨Locks.isLocked_ask asked, ?_, rfl,
      ⟨fun sound => Locks.ask_sound sound asked, Locks.ask_grows asked⟩⟩
    intro lock member
    rcases List.mem_append.mp member with earlier | own
    · exact Or.inl earlier
    · rw [List.mem_singleton.mp own]
      exact Or.inr (Locks.ask_taken_free asked)

/-- A lease is no resource, so it keeps no node from being selected. -/
theorem blocked_lease {granted : Pass}
    (locked : ∀ lock, granted.locks.isLocked lock ↔ lock = .lease lease ∨ pass.locks.isLocked lock) :
    granted.locks.Blocked (plan.wanted position) ↔ pass.locks.Blocked (plan.wanted position) := by
  constructor
  · refine fun blocked => blocked.imp id fun ⟨lock, member, held⟩ => ⟨lock, member, ?_⟩
    rcases (locked lock).mp held with rfl | held
    · exact absurd member (lease_not_wanted plan lease position)
    · exact held
  · exact fun blocked => blocked.imp id fun ⟨lock, member, held⟩ =>
      ⟨lock, member, (locked lock).mpr (Or.inr held)⟩

theorem alike_lease {granted : Pass}
    (locked : ∀ lock, granted.locks.isLocked lock ↔ lock = .lease lease ∨ pass.locks.isLocked lock)
    (alike : granted.locks.Alike later.locks) :
    pass.locks.Alike
      (if pass.locks.isLocked (.lease lease) then later else later.unlock (.lease lease)).locks := by
  intro lock
  split
  next before =>
    rw [alike, locked]
    exact ⟨fun held => held.elim (fun same => same ▸ before) id, Or.inr⟩
  next before =>
    rw [Pass.unlock, Locks.isLocked_unlock, alike, locked]
    constructor
    · intro held
      obtain ⟨differs, held⟩ := held
      exact held.resolve_left differs
    · exact fun held => ⟨fun isLease => before (isLease ▸ held), Or.inr held⟩

private theorem idles_lease {granted : Pass} (fresh : pass.book.acquired = [])
    (tried : pass.tryLock (.lease lease) = (true, granted)) (undone : Pass.Undone granted later) :
    Idles pass (if pass.locks.isLocked (.lease lease) then later else later.unlock (.lease lease)) := by
  obtain ⟨locked, entered, changed, steady⟩ := tryLock_lease tried
  have missing (lock : Lock) (member : lock ∈ later.book.acquired) : ¬ pass.locks.isLocked lock := by
    rcases undone.acquired lock member with early | unlocked
    · exact (entered lock early).resolve_left (by simp [fresh])
    · exact fun held => unlocked ((locked lock).mpr (Or.inr held))
  have same := alike_lease locked undone.alike
  split at same
  next before =>
    rw [if_pos before]
    refine ⟨same.trans (Pass.release_alike fun lock member held => ?_),
      undone.changed.trans changed, (steady.trans undone.steady).trans (Pass.release_steady _)⟩
    exact missing lock member ((same lock).mp held)
  next before =>
    rw [if_neg before]
    refine ⟨same.trans (Pass.release_alike fun lock member held => ?_),
      undone.changed.trans changed,
      ((steady.trans undone.steady).trans (.unlock _ (.lease lease))).trans
        (Pass.release_steady (later.unlock (.lease lease)))⟩
    exact missing lock member ((same lock).mp held)

/-- Selecting from a plan that is in order raises no fault. -/
theorem select_selection (coherent : plan.Coherent owed stale) (lease : Lease)
    (fresh : pass.book.acquired = []) :
    Selection plan lease pass (plan.select lease pass) := by
  have unmoved : Idles pass pass := by
    refine ⟨?_, rfl, Pass.release_steady _⟩
    exact Pass.release_alike fun lock member => absurd member (by simp [fresh])
  unfold select
  split
  next empty => exact .none pass (Or.inl (List.isEmpty_iff.mp empty)) unmoved
  · simp only
    split
    next tried =>
      obtain ⟨rfl, refused⟩ := Pass.tryLock_refused tried
      exact .none _ (Or.inr (Or.inl refused)) unmoved
    next granted tried =>
      obtain ⟨locked, _, changed, steady⟩ := tryLock_lease tried
      split
      next position last fits =>
        obtain ⟨member, took⟩ := firstFit_some fits
        obtain ⟨entry, found, ready⟩ := entry_of_state? ((coherent.queued position).mp member)
        obtain ⟨earlier, rest, queue, others⟩ := firstFit_first fits
        rw [dispatch_ready found ready]
        refine .some position entry last ⟨found, ready, ⟨earlier, rest, queue, ?_⟩, ?_,
          took.distinct, ?_, took.changed.trans changed, steady.trans took.steady⟩
        · exact fun other member => (blocked_lease locked).mp (others other member)
        · exact fun lock member held => took.free lock member ((locked lock).mpr (Or.inr held))
        · intro lock
          rw [took.locked, locked]
          exact or_left_comm
      next last fits =>
        obtain ⟨blocked, undone⟩ := firstFit_none fits
        refine .none _ (Or.inr (Or.inr fun position member => ?_)) (idles_lease fresh tried undone)
        exact (blocked_lease locked).mp (blocked position member)

end Foreman.Plan
