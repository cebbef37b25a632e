import Foreman.Proofs.Ownership

/-! Every step keeps the order of who owns what. Most steps leave alone what workers
own; a selection hands a node over, and the end of a node gives its locks back. -/

namespace Foreman.Executor.World

variable {world after : World} {index worker : Nat} {call : Call} {driven : Driven}
  {phase next : Phase} {lease : Lease} {events : List Happening} {later : Corner}

/-! Steps that change nothing about who owns what. -/

private theorem plans_shown (planned : world.plans[call.plan]? = some driven)
    (shown : Shows world index call.plan after later events) (calm : driven.plan.Calm later.plan) :
    (∀ (place : Nat) (driven : Driven), world.plans[place]? = some driven →
      ∃ later, after.plans[place]? = some later ∧ driven.plan.Calm later.plan) ∧
    ∀ (place : Nat) (later : Driven), after.plans[place]? = some later →
      ∃ driven, world.plans[place]? = some driven ∧ driven.plan.Calm later.plan := by
  obtain ⟨driven', plan, _, plans⟩ := shown.plan? planned
  constructor
  · intro place value present
    rw [plans]
    split
    next same =>
      subst same
      cases Option.some.inj (present.symm.trans planned)
      exact ⟨driven', rfl, plan ▸ calm⟩
    · exact ⟨value, present, .refl _⟩
  · intro place value present
    rw [plans] at present
    split at present
    next same =>
      cases present
      exact ⟨driven, same ▸ planned, plan ▸ calm⟩
    · exact ⟨value, present, .refl _⟩

private theorem executors_shown (found : world.calls[index]? = some call)
    (shown : Shows world index call.plan after later events)
    (executor : later.call.executor = call.executor) (other : Nat) (value : Call)
    (present : world.calls[other]? = some value) :
    ∃ later, after.calls[other]? = some later ∧ later.executor = value.executor := by
  rw [shown.call? found]
  split
  next same =>
    subst same
    cases Option.some.inj (present.symm.trans found)
    exact ⟨later.call, rfl, executor⟩
  · exact ⟨value, present, rfl⟩

/-- A worker comes to a phase in which it owns what it owned before. -/
private theorem rests_worker (found : world.calls[index]? = some call)
    (planned : world.plans[call.plan]? = some driven) (there : call.workers[worker]? = some phase)
    (shown : Shows world index call.plan after later events)
    (kept : (world.cornerOf call driven).Kept later)
    (workers : later.call.workers = call.workers.set worker next)
    (calm : driven.plan.Calm later.plan) (alike : world.locks.Alike later.locks)
    (owns : ∀ lease node, next.lease? = some lease ∧ next.node? = some node ↔
      phase.lease? = some lease ∧ phase.node? = some node)
    (leases : ∀ lease, next.lease? = some lease → phase.lease? = some lease ∨
      ¬ world.locks.Has lease ∧ later.locks.Has lease ∧ lease.place ≠ 0 ∧
        lease.tree = call.executor.root.tree) :
    world.Rests index worker after := by
  have here : world.At index worker call.plan phase := ⟨call, found, rfl, there⟩
  have moved := at_shown found there shown kept.place workers
  obtain ⟨plans, origins⟩ := plans_shown planned shown calm
  refine ⟨?_, ?_, executors_shown found shown kept.executor, plans, origins, shown.locks ▸ alike,
    shown.locks ▸ kept.steady.grows⟩
  · intro other rival lease has
    obtain ⟨site, somewhere, at_, has⟩ := has
    rw [moved] at at_
    split at at_
    next own =>
      obtain ⟨rfl, rfl⟩ := own
      obtain ⟨rfl, rfl⟩ := at_
      rcases leases lease has with old | ⟨fresh, new, child, tree⟩
      · exact Or.inl ⟨call.plan, phase, here, old⟩
      · refine Or.inr ⟨rfl, rfl, fresh, shown.locks ▸ new, child, later.call, ?_,
          kept.executor ▸ tree⟩
        rw [shown.call? found, if_pos rfl]
    · exact Or.inl ⟨site, somewhere, at_, has⟩
  · intro other rival lease site node
    simp only [Owns, moved]
    split
    next own =>
      obtain ⟨rfl, rfl⟩ := own
      constructor
      · intro holds
        obtain ⟨_, ⟨rfl, rfl⟩, both⟩ := holds
        exact ⟨phase, here, (owns lease node).mp both⟩
      · intro holds
        obtain ⟨somewhere, at_, both⟩ := holds
        obtain ⟨rfl, rfl⟩ := here.same at_
        exact ⟨next, ⟨rfl, rfl⟩, (owns lease node).mpr both⟩
    · rfl

private theorem rests_caller {stage : Stage} (found : world.calls[index]? = some call)
    (planned : world.plans[call.plan]? = some driven)
    (deed : CallerDeed (world.cornerOf call driven) stage later) (there : call.stage = stage)
    (shown : Shows world index call.plan after later []) (settled : world.Settled) :
    world.Rests index 0 after := by
  have kept := deed.kept (settled.valid _ _ planned)
  have staffed := settled.staffed _ _ found
  have locks := deed.locks
  have workers : later.call.workers = call.workers ∨
      call.workers = [] ∧ ∀ phase ∈ later.call.workers, phase = .hired :=
    deed.crew.imp_right fun crew => ⟨staffed.early (Or.inr (there.trans crew.1)), crew.2⟩
  have calm : driven.plan.Calm later.plan := deed.calm (settled.valid _ _ planned)
  obtain ⟨plans, origins⟩ := plans_shown planned shown calm
  have onward {other rival site : Nat} {phase : Phase} (at_ : world.At other rival site phase) :
      after.At other rival site phase := by
    obtain ⟨value, present, rfl, here⟩ := at_
    rw [At, shown.call? found]
    split
    next same =>
      subst same
      cases Option.some.inj (present.symm.trans found)
      rcases workers with same | ⟨none, _⟩
      · exact ⟨later.call, rfl, kept.place, same ▸ here⟩
      · simp [none] at here
    · exact ⟨value, present, rfl, here⟩
  have back {other rival site : Nat} {phase : Phase} {lease : Lease}
      (at_ : after.At other rival site phase) (has : phase.lease? = some lease) :
      world.At other rival site phase := by
    obtain ⟨value, present, rfl, here⟩ := at_
    rw [shown.call? found] at present
    split at present
    next same =>
      cases present
      rcases workers with same' | ⟨_, hired⟩
      · exact ⟨call, same ▸ found, kept.place.symm, same' ▸ here⟩
      · rw [hired phase (List.mem_of_getElem? here)] at has
        cases has
    · exact ⟨value, present, rfl, here⟩
  have alike : world.locks.Alike after.locks := by
    rw [shown.locks, locks]
    exact .refl _
  have grows : world.locks.Grows after.locks := by
    rw [shown.locks, locks]
    exact .refl _
  refine ⟨?_, ?_, executors_shown found shown kept.executor, plans, origins, alike, grows⟩
  · intro other rival lease has
    obtain ⟨site, phase, at_, has⟩ := has
    exact Or.inl ⟨site, phase, back at_ has, has⟩
  · intro other rival lease site node
    constructor
    · intro holds
      obtain ⟨phase, at_, has, owns⟩ := holds
      exact ⟨phase, back at_ has, has, owns⟩
    · intro holds
      obtain ⟨phase, at_, has, owns⟩ := holds
      exact ⟨phase, onward at_, has, owns⟩

private theorem rests_outside (outside : world.Outside events after) : world.Rests 0 0 after := by
  have same {other rival site : Nat} {phase : Phase} :
      after.At other rival site phase ↔ world.At other rival site phase := by
    rw [At, At, outside.calls]
  refine ⟨?_, ?_, ?_, ?_, ?_, outside.locks ▸ .refl _, outside.locks ▸ .refl _⟩
  · intro other rival lease has
    obtain ⟨site, phase, at_, has⟩ := has
    exact Or.inl ⟨site, phase, same.mp at_, has⟩
  · intro other rival lease site node
    simp only [Owns, same]
  · exact fun other call found => ⟨call, outside.calls ▸ found, rfl⟩
  · exact fun place driven found => ⟨driven, outside.plans ▸ found, .refl _⟩
  · exact fun place driven found => ⟨driven, outside.plans ▸ found, .refl _⟩

/-! All steps. -/

private theorem Owned.selects (owned : world.Owned) (settled : after.Settled) {node : Nat}
    {parked : Option Nat} {polled : Corner} {entry : Entry} {pass final : Pass}
    (found : world.calls[index]? = some call) (planned : world.plans[call.plan]? = some driven)
    (there : call.workers[worker]? = some (.choosing lease parked))
    (polls : (world.cornerOf call driven).Polls polled) (table : pass.locks = world.locks)
    (selects : polled.plan.Selects lease pass node entry final)
    (later_eq : later = { polled with
      plan := polled.plan.hand lease node entry
      locks := final.locks }.withPhase worker (.chosen lease node))
    (shown : Shows world index call.plan after later events)
    (kept : (world.cornerOf call driven).Kept later) : after.Owned := by
  subst later_eq
  have calm := polls.drifts.calm
  have valid := polls.valid (owned.valid _ _ planned)
  have same : polled.call = call := by cases polls <;> rfl
  have handed := (Plan.Replaces.hand valid.coherent lease selects.found selects.ready).lookup node
  rw [if_pos rfl] at handed
  have step : world.Advances index worker call driven lease (.choosing lease parked)
      (.chosen lease node) _ _ after :=
    ⟨found, planned, there, rfl, shown, kept, by simp only [Corner.withPhase, same],
      fun _ has => (Option.some.inj has).symm⟩
  refine owned.hands step settled rfl rfl rfl
    (calm.handles (Plan.hand_handles valid selects.found selects.ready)) ?_
    ⟨_, handed, rfl, rfl⟩ ?_ ?_
  · intro executing
    obtain ⟨earlier, present, state⟩ := Plan.entry_of_state? executing
    obtain ⟨between, present', _, _, executing⟩ := calm.ahead present
    cases Option.some.inj (selects.found.symm.trans present')
    simp [selects.ready, state] at executing
  · exact fun lock held => (selects.locked lock).mpr (Or.inr (Or.inr (table ▸ held)))
  · intro gained present lock member
    cases Option.some.inj (present.symm.trans handed)
    rcases List.mem_cons.mp member with rfl | wanted
    · exact ⟨(selects.locked _).mpr (Or.inl rfl), Or.inl rfl⟩
    · rw [← Plan.wanted_eq selects.found] at wanted
      refine ⟨(selects.locked lock).mpr (Or.inr (Or.inl wanted)), Or.inr ?_⟩
      have free := selects.free lock wanted
      rwa [table] at free

private theorem Owned.completes (owned : world.Owned) (settled : after.Settled) {node : Nat}
    (found : world.calls[index]? = some call) (planned : world.plans[call.plan]? = some driven)
    (there : call.workers[worker]? = some (.completing lease node))
    (later_eq : later = { world.cornerOf call driven with
      plan := (driven.plan.complete node world.locks).1
      locks := (driven.plan.complete node world.locks).2
      generation := world.generation + 1 }.withPhase worker (.choosing lease none))
    (shown : Shows world index call.plan after later events)
    (kept : (world.cornerOf call driven).Kept later) : after.Owned := by
  subst later_eq
  obtain ⟨plan, entry, planned', present, engages⟩ := owned.engaged index worker call.plan node lease
    ⟨_, ⟨call, found, rfl, there⟩, rfl, rfl⟩
  cases Option.some.inj (planned.symm.trans planned')
  obtain ⟨_, ends⟩ := Plan.complete_executing (owned.valid _ _ planned) present engages.executing
    world.locks
  have step : world.Advances index worker call driven lease (.completing lease node)
      (.choosing lease none) _ _ after :=
    ⟨found, planned, there, rfl, shown, kept, rfl, fun _ has => (Option.some.inj has).symm⟩
  apply owned.releases step settled rfl ends.handles
  · intro _ closed own present'
    cases own
    obtain ⟨ended, own, _, held, _⟩ := ends.own
    cases Option.some.inj (own.symm.trans present')
    exact held
  · intro lock held other _
    have locks := Plan.complete_locks present world.locks
    simp only [Phase.node?, Plan.heldBy_eq present] at other
    simp only [Corner.withPhase, World.cornerOf, locks]
    exact Locks.isLocked_unlockAll.mpr ⟨other, held⟩

private theorem Owned.fails (owned : world.Owned) (settled : after.Settled) {node : Option Nat}
    {fault escaped : Fault} {failure : Failure}
    (found : world.calls[index]? = some call) (planned : world.plans[call.plan]? = some driven)
    (there : call.workers[worker]? = some (.failing lease node fault))
    (plan : later.plan = (driven.plan.disown node).abort failure)
    (locks : later.locks = (world.locks.unlockAll (driven.plan.heldBy node)).unlock (.lease lease))
    (workers : later.call.workers = call.workers.set worker (.gone (some escaped)))
    (shown : Shows world index call.plan after later events)
    (kept : (world.cornerOf call driven).Kept later) : after.Owned := by
  have step : world.Advances index worker call driven lease (.failing lease node fault)
      (.gone (some escaped)) _ _ after :=
    ⟨found, planned, there, rfl, shown, kept, workers, fun _ has => by cases has⟩
  have drifts := Plan.abort_drifts (driven.plan.disown node) failure
  rw [← plan] at drifts
  apply owned.releases step settled rfl ((Plan.disown_handles _ _).calm drifts.calm)
  · intro own entry mine present
    have mine : node = some own := mine
    obtain ⟨between, present', _, drift⟩ := drifts.back present
    rw [Plan.disown_lookup] at present'
    obtain ⟨earlier, _, rfl⟩ := Option.map_eq_some_iff.mp present'
    rw [drift.held, if_pos mine]
  · intro lock held other different
    rw [locks]
    exact Locks.isLocked_unlock.mpr ⟨different, Locks.isLocked_unlockAll.mpr ⟨other, held⟩⟩

private theorem Owned.works (owned : world.Owned) (settled : after.Settled)
    (found : world.calls[index]? = some call) (planned : world.plans[call.plan]? = some driven)
    (there : call.workers[worker]? = some phase)
    (deed : WorkerDeed index worker (world.cornerOf call driven) phase events later)
    (shown : Shows world index call.plan after later events) : after.Owned := by
  have valid := owned.valid _ _ planned
  have kept := deed.kept valid
  -- the worker owns as much as before, and the locks stay as they were
  have rests {next : Phase} (workers : later.call.workers = call.workers.set worker next)
      (calm : driven.plan.Calm later.plan) (alike : world.locks.Alike later.locks)
      (nodes : next.node? = phase.node?)
      (leases : next.lease? = phase.lease? ∨ next.lease? = none ∧ phase.node? = none) :
      after.Owned := by
    refine owned.rests settled
      (rests_worker found planned there shown kept workers calm alike ?_ ?_)
    · intro lease node
      rw [nodes]
      rcases leases with same | ⟨_, none⟩
      · rw [same]
      · simp [none]
    · intro lease has
      rcases leases with same | ⟨none, _⟩
      · exact Or.inl (same ▸ has)
      · rw [none] at has
        cases has
  cases deed with
  | settle =>
    obtain ⟨tree, root⟩ := owned.rooted _ _ found
    refine owned.rests settled
      (rests_worker found planned there shown kept rfl (.refl _)
        (fun lock => Locks.isLocked_createChild root lock) (by simp [Phase.node?]) ?_)
    intro lease same
    cases same
    refine Or.inr ⟨Locks.createChild_fresh root, Locks.createChild_has root,
      Locks.createChild_place owned.sound root, ?_⟩
    simp only [World.cornerOf, Locks.createChild_lease root]
  | halt polls =>
    have calm := polls.drifts.calm
    cases polls <;> exact rests rfl calm (.refl _) rfl (Or.inl rfl)
  | breakdown polls hooked next =>
    have drifts := polls.drifts
    rcases next with rfl | ⟨_, fault, rfl⟩
    · exact rests rfl (drifts.trans (Plan.abort_drifts _ _)).calm (.refl _) rfl (Or.inl rfl)
    · exact rests rfl (drifts.trans (Plan.abort_drifts _ _)).calm (.refl _) rfl (Or.inl rfl)
  | park polls unfailed remaining starved alike steady =>
    have calm := polls.drifts.calm
    cases polls <;> exact rests rfl calm alike rfl (Or.inl rfl)
  | start | request | drop | stumble => exact rests rfl (.refl _) (.refl _) rfl (Or.inl rfl)
  | refuse | instruct | finish =>
    exact rests rfl (Plan.failAll_calm _ _ _) (.refl _) rfl (Or.inl rfl)
  | retire => exact rests rfl (.refl _) (.refl _) rfl (Or.inr ⟨rfl, rfl⟩)
  | select polls _ table selects =>
    exact owned.selects settled found planned there polls table selects rfl shown kept
  | complete => exact owned.completes settled found planned there rfl shown kept
  | fail => exact owned.fails settled found planned there rfl rfl rfl shown kept

/-- Every step keeps the order of who owns what. -/
theorem Owned.turn {move : Move} (owned : world.Owned) (turn : world.Turn move after) :
    after.Owned := by
  have settled := owned.toSettled.turn turn
  cases turn with
  | worker found planned there deed shown => exact owned.works settled found planned there deed shown
  | caller found planned deed shown =>
    exact owned.rests settled (rests_caller found planned deed rfl shown owned.toSettled)
  | outside foreign outside => exact owned.rests settled (rests_outside outside)

theorem Start.owned (start : world.Start) : world.Owned := by
  have settled : world.Settled := by
    obtain ⟨commands, table⟩ := start.table
    exact ⟨table ▸ Desk.run_sound [] commands, fun place driven found =>
      (start.reached place driven found).valid, start.throwing,
      fun index call found => (start.unmade index call found).staffed, start.planned, start.rooted⟩
  have nobody {index worker place : Nat} {phase : Phase} : ¬ world.At index worker place phase := by
    intro runs
    obtain ⟨call, found, _, there⟩ := runs
    rw [(start.unmade index call found).workers] at there
    cases there
  have nothing {place node : Nat} {entry : Entry} (found : world.entryAt place node = some entry) :
      entry.node.held = [] := by
    obtain ⟨driven, planned, present⟩ := Option.bind_eq_some_iff.mp found
    apply Decidable.of_not_not
    intro held
    have executing := (settled.valid place driven planned).coherent.holding node entry present held
    exact start.idle place driven planned node ((Plan.state?_eq present).trans (congrArg some executing))
  refine { settled with
    leased := ?_, apart := ?_, engaged := ?_, kept := ?_, locked := ?_, disjoint := ?_ }
  · exact fun _ _ _ ⟨_, _, there, _⟩ => (nobody there).elim
  · exact fun _ _ _ _ _ ⟨_, _, there, _⟩ => (nobody there).elim
  · exact fun _ _ _ _ _ ⟨_, there, _⟩ => (nobody there).elim
  · exact fun _ _ _ found held => absurd (nothing found) held
  · intro place node entry found lock member
    rw [nothing found] at member
    cases member
  · intro place node site rival entry other found _ lock member
    rw [nothing found] at member
    cases member

theorem Start.play {start : World} {moves : List (Bool × Move)} (fresh : start.Start)
    (ran : start.play moves = some world) : world.Owned ∧ start.Follows world := by
  refine play_induction (fun world => world.Owned ∧ start.Follows world) ran
    ⟨fresh.owned, .refl start⟩ ?_
  intro before after missed move kept stepped
  have turn := step_turn kept.1.orderly stepped
  exact ⟨kept.1.turn turn, kept.2.trans (turn.follows kept.1.valid)⟩

end Foreman.Executor.World
