import Foreman.Proofs.OwnershipTurns

/-! Who is to answer for a locked lock. A run locks nothing but what nodes hold, and
a node that ceases to hold a lock unlocks it. So once no worker owns a node, only
those locks are locked that were locked before all calls. -/

namespace Foreman

def Plan.Holds (plan : Plan) (lock : Lock) : Prop :=
  ∃ (node : Nat) (entry : Entry), plan.entries[node]? = some entry ∧ lock ∈ entry.node.held

theorem Plan.Calm.holds {before after : Plan} {lock : Lock} (calm : before.Calm after)
    (holds : before.Holds lock) : after.Holds lock := by
  obtain ⟨node, entry, found, member⟩ := holds
  obtain ⟨later, present, _, held, _⟩ := calm.ahead found
  exact ⟨node, later, present, held ▸ member⟩

theorem Plan.Handles.holds {before after : Plan} {node : Option Nat} {lock : Lock}
    (handles : before.Handles node after) (holds : before.Holds lock)
    (other : lock ∉ before.heldBy node) : after.Holds lock := by
  obtain ⟨position, entry, found, member⟩ := holds
  obtain ⟨later, present, _⟩ := handles.keeps.entry position entry found
  refine ⟨position, later, present, ?_⟩
  have apart : node ≠ some position := by
    intro same
    subst same
    rw [Plan.heldBy_eq found] at other
    exact other member
  rw [(handles.others position entry later apart found present).1]
  exact member

namespace Executor

variable {index worker : Nat} {before later : Corner} {phase : Phase} {stage : Stage}
  {events : List Happening}

/-- What becomes locked is held by a node, and what nodes cease to hold is unlocked. -/
structure Corner.Accounts (before later : Corner) : Prop where
  taken : ∀ lock, later.locks.isLocked lock → before.locks.isLocked lock ∨ later.plan.Holds lock
  kept : ∀ lock, before.plan.Holds lock → later.locks.isLocked lock → later.plan.Holds lock

theorem Corner.Accounts.calm (calm : before.plan.Calm later.plan)
    (alike : before.locks.Alike later.locks) : before.Accounts later :=
  ⟨fun lock locked => Or.inl ((alike lock).mp locked), fun _ holds _ => calm.holds holds⟩

theorem WorkerDeed.accounts (deed : WorkerDeed index worker before phase events later)
    (valid : before.plan.Valid) (rooted : ∃ tree, before.locks.tree? before.call.executor.root = some tree)
    (busy : ∀ node, phase.node? = some node → before.plan.state? node = some .executing) :
    before.Accounts later := by
  cases deed with
  | settle =>
    obtain ⟨tree, root⟩ := rooted
    exact .calm (.refl _) fun lock => Locks.isLocked_createChild root lock
  | halt polls =>
    have calm := polls.drifts.calm
    cases polls <;> exact .calm calm (.refl _)
  | breakdown polls => exact .calm (polls.drifts.trans (Plan.abort_drifts _ _)).calm (.refl _)
  | park polls unfailed remaining starved alike steady => exact .calm polls.drifts.calm alike
  | start | request | drop | retire | stumble => exact .calm (.refl _) (.refl _)
  | refuse | instruct | finish => exact .calm (Plan.failAll_calm _ _ _) (.refl _)
  | @select lease parked polled node entry pass final polls unfailed table selects =>
    have coherent := (polls.valid valid).coherent
    have handed := (Plan.Replaces.hand coherent lease selects.found selects.ready).lookup node
    rw [if_pos rfl] at handed
    constructor
    · intro lock locked
      rcases (selects.locked lock).mp locked with rfl | wanted | before
      · exact Or.inr ⟨node, _, handed, List.mem_cons_self⟩
      · rw [Plan.wanted_eq selects.found] at wanted
        exact Or.inr ⟨node, _, handed, List.mem_cons_of_mem _ wanted⟩
      · exact Or.inl (table ▸ before)
    · intro lock holds _
      refine (Plan.hand_handles (polls.valid valid) selects.found selects.ready).holds
        (polls.drifts.calm.holds holds) ?_
      rw [Plan.heldBy_eq selects.found]
      intro member
      -- a ready node holds nothing
      have executing := coherent.holding node entry selects.found (List.ne_nil_of_mem member)
      simp [selects.ready] at executing
  | @complete lease node =>
    obtain ⟨entry, found, executing⟩ := Plan.entry_of_state? (busy node rfl)
    have locks := Plan.complete_locks found before.locks
    have unlocked {lock : Lock}
        (locked : (before.plan.complete node before.locks).2.isLocked lock) :
        lock ∉ before.plan.heldBy (some node) ∧ before.locks.isLocked lock := by
      rw [Plan.heldBy_eq found]
      rw [locks] at locked
      exact Locks.isLocked_unlockAll.mp locked
    constructor
    · exact fun lock locked => Or.inl (unlocked locked).2
    · intro lock holds locked
      have ends := (Plan.complete_executing valid found executing before.locks).2
      exact ends.handles.holds holds (unlocked locked).1
  | fail =>
    constructor
    · intro lock locked
      exact Or.inl (Locks.isLocked_unlockAll.mp (Locks.isLocked_unlock.mp locked).2).2
    · intro lock holds locked
      have other := (Locks.isLocked_unlockAll.mp (Locks.isLocked_unlock.mp locked).2).1
      exact (Plan.abort_drifts _ _).calm.holds
        ((Plan.disown_handles _ _).holds holds other)

theorem CallerDeed.accounts (deed : CallerDeed before stage later) (valid : before.plan.Valid) :
    before.Accounts later := by
  apply Corner.Accounts.calm (deed.calm valid)
  rw [deed.locks]
  exact .refl _

namespace World

variable {start world after : World} {move : Move} {call : Call} {driven : Driven}

def Holds (world : World) (lock : Lock) : Prop :=
  ∃ (place : Nat) (driven : Driven), world.plans[place]? = some driven ∧ driven.plan.Holds lock

/-- What is locked now was locked before, or is held by a node. -/
def Accounted (start world : World) : Prop :=
  ∀ lock, world.locks.isLocked lock → start.locks.isLocked lock ∨ world.Holds lock

private theorem Accounted.shown (accounted : start.Accounted world)
    (planned : world.plans[call.plan]? = some driven)
    (shown : Shows world index call.plan after later events)
    (accounts : (world.cornerOf call driven).Accounts later) : start.Accounted after := by
  obtain ⟨driven', plan, _, plans⟩ := shown.plan? planned
  have here {lock : Lock} (holds : later.plan.Holds lock) : after.Holds lock :=
    ⟨call.plan, driven', (plans _).trans (if_pos rfl), plan ▸ holds⟩
  intro lock locked
  rw [shown.locks] at locked
  rcases accounts.taken lock locked with before | holds
  · rcases accounted lock before with early | ⟨place, other, known, holds⟩
    · exact Or.inl early
    · by_cases same : place = call.plan
      · subst same
        cases Option.some.inj (planned.symm.trans known)
        exact Or.inr (here (accounts.kept lock holds locked))
      · exact Or.inr ⟨place, other, (plans place).trans ((if_neg same).trans known), holds⟩
  · exact Or.inr (here holds)

theorem Accounted.turn (accounted : start.Accounted world) (owned : world.Owned)
    (turn : world.Turn move after) : start.Accounted after := by
  cases turn with
  | worker found planned there deed shown =>
    exact accounted.shown planned shown (deed.accounts (owned.valid _ _ planned)
      (owned.rooted _ _ found) fun node owns =>
        owned.orderly.busy _ _ node _ _ _ found planned there owns)
  | caller found planned deed shown =>
    exact accounted.shown planned shown (deed.accounts (owned.valid _ _ planned))
  | outside foreign outside =>
    intro lock locked
    rw [outside.locks] at locked
    apply (accounted lock locked).imp id
    intro held
    obtain ⟨place, driven, known, holds⟩ := held
    exact ⟨place, driven, outside.plans ▸ known, holds⟩

theorem Start.accounted (fresh : start.Start) (ran : start.play moves = some world) :
    start.Accounted world := by
  have both := play_induction (fun world => world.Owned ∧ start.Accounted world) ran
    ⟨fresh.owned, fun _ => Or.inl⟩ fun before after missed move ⟨owned, accounted⟩ stepped =>
      have turn := step_turn owned.orderly stepped
      ⟨owned.turn turn, accounted.turn owned turn⟩
  exact both.2

/-- While no worker owns a node, nothing is locked but what was locked at the start. -/
theorem Accounted.unowned (accounted : start.Accounted world) (owned : world.Owned)
    (idle : ∀ index worker lease place node, ¬ world.Owns index worker lease place node)
    {lock : Lock} (locked : world.locks.isLocked lock) : start.locks.isLocked lock := by
  rcases accounted lock locked with early | ⟨place, driven, planned, node, entry, found, member⟩
  · exact early
  · obtain ⟨index, worker, lease, owns⟩ := owned.kept place node entry
      ((entryAt_eq planned node).trans found) (List.ne_nil_of_mem member)
    exact absurd owns (idle _ _ _ _ _)

end World
end Executor
end Foreman
