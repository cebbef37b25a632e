import Foreman.Proofs.LockAccounts

/-! The leases of workers over a whole run. A lease is made for one worker and is
nobody else's before or after, and leases that were locked before all calls are not
unlocked by them. -/

namespace Foreman.Executor

variable {index worker : Nat} {before later : Corner} {phase : Phase}
  {events : List Happening}

/-- A worker keeps its lease, or gets one that is new. -/
theorem WorkerDeed.lease (deed : WorkerDeed index worker before phase events later)
    (rooted : ∃ tree, before.locks.tree? before.call.executor.root = some tree) :
    ∃ next, later.call.workers = before.call.workers.set worker next ∧
      ∀ lease, next.lease? = some lease → phase.lease? = some lease ∨ ¬ before.locks.Has lease := by
  cases deed with
  | settle =>
    obtain ⟨tree, found⟩ := rooted
    refine ⟨_, rfl, ?_⟩
    intro lease same
    cases same
    exact Or.inr (Locks.createChild_fresh found)
  | halt polls | select polls | park polls =>
    rw [polls.same]
    exact ⟨_, rfl, fun lease has => Or.inl has⟩
  | breakdown polls hooked next =>
    refine ⟨_, rfl, ?_⟩
    rcases next with rfl | ⟨_, fault, rfl⟩
    · exact fun lease has => Or.inl has
    · exact fun lease has => Or.inl has
  | start | refuse | request | instruct | finish | complete | drop | stumble =>
    exact ⟨_, rfl, fun lease has => Or.inl has⟩
  | retire | fail => exact ⟨_, rfl, fun lease has => by cases has⟩

theorem WorkerDeed.spares (deed : WorkerDeed index worker before phase events later)
    (rooted : ∃ tree, before.locks.tree? before.call.executor.root = some tree)
    (busy : ∀ node, phase.node? = some node → before.plan.state? node = some .executing)
    (own : ∀ lease, .lease lease ∈ before.plan.heldBy phase.node? → phase.lease? = some lease)
    {lease : Lease} (other : phase.lease? ≠ some lease)
    (locked : before.locks.isLocked (.lease lease)) : later.locks.isLocked (.lease lease) := by
  have unheld : .lease lease ∉ before.plan.heldBy phase.node? := fun member => other (own lease member)
  cases deed with
  | settle =>
    obtain ⟨tree, found⟩ := rooted
    exact (Locks.isLocked_createChild found _).mpr locked
  | halt polls =>
    rw [polls.same]
    exact locked
  | select polls unfailed table selects =>
    exact (selects.locked _).mpr (Or.inr (Or.inr (table ▸ locked)))
  | park polls unfailed remaining starved alike => exact (alike _).mpr locked
  | breakdown | start | refuse | request | instruct | finish | drop | retire | stumble => exact locked
  | @complete lease' node =>
    obtain ⟨entry, found, _⟩ := Plan.entry_of_state? (busy node rfl)
    have locks := Plan.complete_locks found before.locks
    simp only [Phase.node?, Plan.heldBy_eq found] at unheld
    simp only [Corner.withPhase, locks]
    exact Locks.isLocked_unlockAll.mpr ⟨unheld, locked⟩
  | @fail mine =>
    have foreign : Lock.lease lease ≠ .lease mine := by
      intro same
      cases same
      exact other rfl
    exact Locks.isLocked_unlock.mpr ⟨foreign, Locks.isLocked_unlockAll.mpr ⟨unheld, locked⟩⟩

namespace World

variable {start world after : World} {moves : List (Bool × Move)} {move : Move} {call : Call}
  {driven : Driven} {lease : Lease} {other rival : Nat}

theorem Owned.own (owned : world.Owned) (found : world.calls[index]? = some call)
    (planned : world.plans[call.plan]? = some driven) (there : call.workers[worker]? = some phase)
    (member : .lease lease ∈ driven.plan.heldBy phase.node?) : phase.lease? = some lease := by
  cases mine : phase.node? with
  | none =>
    rw [mine] at member
    cases member
  | some node =>
    obtain ⟨has, known⟩ := Phase.lease_of_node mine
    obtain ⟨plan, entry, planned', present, engages⟩ :=
      owned.engaged index worker call.plan node has ⟨phase, ⟨call, found, rfl, there⟩, known, mine⟩
    cases Option.some.inj (planned.symm.trans planned')
    rw [mine, Plan.heldBy_eq present, engages.held] at member
    rcases List.mem_cons.mp member with same | resource
    · cases same
      exact known
    · obtain ⟨name, _, same⟩ := List.mem_map.mp resource
      cases same

theorem Turn.leases (turn : world.Turn move after) (owned : world.Owned)
    (leases : after.Leases other rival lease) :
    world.Leases other rival lease ∨ ¬ world.locks.Has lease := by
  obtain ⟨site, somewhere, at_, has⟩ := leases
  cases turn with
  | @worker index worker call driven phase _ _ _ found planned there deed shown =>
    obtain ⟨next, workers, leases⟩ := deed.lease (owned.rooted _ _ found)
    have place := (deed.kept (owned.valid _ _ planned)).place
    rw [at_shown found there shown place workers] at at_
    split at at_
    next own =>
      obtain ⟨rfl, rfl⟩ := own
      obtain ⟨rfl, rfl⟩ := at_
      exact (leases lease has).imp_left fun old => ⟨_, phase, ⟨call, found, rfl, there⟩, old⟩
    · exact Or.inl ⟨site, somewhere, at_, has⟩
  | @caller index call _ _ _ found planned deed shown =>
    obtain ⟨value, present, rfl, there⟩ := at_
    rw [shown.call? found] at present
    split at present
    next same =>
      cases present
      subst same
      rcases deed.crew with workers | ⟨_, hired⟩
      · exact Or.inl ⟨_, somewhere, ⟨call, found, rfl, workers ▸ there⟩, has⟩
      · rw [hired somewhere (List.mem_of_getElem? there)] at has
        cases has
    · exact Or.inl ⟨_, somewhere, ⟨value, present, rfl, there⟩, has⟩
  | outside foreign outside =>
    rw [At, outside.calls] at at_
    exact Or.inl ⟨site, somewhere, at_, has⟩

/-- A locked lease that no worker has stays locked. -/
theorem Turn.spares (turn : world.Turn move after) (owned : world.Owned)
    (free : ∀ other rival, ¬ world.Leases other rival lease)
    (locked : world.locks.isLocked (.lease lease)) : after.locks.isLocked (.lease lease) := by
  cases turn with
  | @worker index worker call driven phase _ _ _ found planned there deed shown =>
    rw [shown.locks]
    refine deed.spares (owned.rooted _ _ found) ?_ ?_ ?_ locked
    · exact fun node owns => owned.orderly.busy _ _ _ _ _ _ found planned there owns
    · exact fun lease member => owned.own found planned there member
    · exact fun has => free index worker ⟨_, phase, ⟨call, found, rfl, there⟩, has⟩
  | caller found planned deed shown =>
    rw [shown.locks, deed.locks]
    exact locked
  | outside foreign outside =>
    rw [outside.locks]
    exact locked

/-- The leases of workers are new, and those that were locked at the start still are
locked. -/
structure Spares (start world : World) : Prop where
  grows : start.locks.Grows world.locks
  unleased : ∀ (other rival : Nat) (lease : Lease), world.Leases other rival lease →
    ¬ start.locks.Has lease
  locked : ∀ lease : Lease, start.locks.isLocked (.lease lease) → world.locks.isLocked (.lease lease)

theorem Spares.turn (spares : start.Spares world) (owned : world.Owned)
    (turn : world.Turn move after) : start.Spares after := by
  refine ⟨spares.grows.trans (turn.follows owned.valid).grows, ?_, ?_⟩
  · intro other rival lease leases
    rcases turn.leases owned leases with old | new
    · exact spares.unleased other rival lease old
    · exact fun has => new (has.grow spares.grows)
  · intro lease locked
    apply turn.spares owned _ (spares.locked lease locked)
    exact fun other rival leases => spares.unleased other rival lease leases (.of_locked locked)

theorem Start.spares (fresh : start.Start) (ran : start.play moves = some world) :
    start.Spares world := by
  have kept := play_induction (fun world => world.Owned ∧ start.Spares world) ran
    ⟨fresh.owned, .refl _, ?_, fun _ => id⟩ ?_
  · exact kept.2
  · intro other rival lease leases
    obtain ⟨_, _, ⟨call, found, _, there⟩, _⟩ := leases
    rw [(fresh.unmade _ _ found).workers] at there
    cases there
  · intro before after missed move kept stepped
    have turn := step_turn kept.1.orderly stepped
    exact ⟨kept.1.turn turn, kept.2.turn kept.1 turn⟩

theorem Owned.lasting (owned : start.Owned) (ran : start.play moves = some world)
    (mine : start.Leases index worker lease) (leases : world.Leases other rival lease) :
    other = index ∧ rival = worker := by
  have kept := play_induction (fun world => world.Owned ∧ world.locks.Has lease ∧
      ∀ other rival, world.Leases other rival lease → other = index ∧ rival = worker) ran
    ⟨owned, (owned.leased _ _ _ mine).1, fun _ _ => owned.apart _ _ _ _ _ mine⟩ ?_
  · exact kept.2.2 _ _ leases
  · intro before after missed move kept stepped
    obtain ⟨owned, has, sole⟩ := kept
    have turn := step_turn owned.orderly stepped
    refine ⟨owned.turn turn, has.grow (turn.follows owned.valid).grows, ?_⟩
    intro other rival leases
    rcases turn.leases owned leases with old | new
    · exact sole other rival old
    · exact absurd has new

end World
end Foreman.Executor
