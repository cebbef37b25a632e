import Foreman.Proofs.Wakeups

/-! A run as one call sees it. A step is its own deed, or it is somebody else's and
reaches the call only through what all calls share. -/

namespace Foreman.Executor

def Happening.call? : Happening → Option Nat
  | .raised => none
  | .selected call _ | .started call _ | .ended call _ => some call

variable {index worker : Nat} {before later : Corner} {phase : Phase} {events : List Happening}

theorem WorkerDeed.native (deed : WorkerDeed index worker before phase events later) :
    ∀ happening ∈ events, happening.call? = some index ∨ happening = .raised := by
  cases deed with
  | settle | halt | breakdown | park | refuse | instruct | complete | drop | retire | stumble | fail =>
    intro happening member
    cases member
  | select | start | finish =>
    intro happening member
    rw [List.mem_singleton.mp member]
    exact Or.inl rfl
  | request _ _ _ foreign => exact fun happening member => Or.inr (foreign happening member)

/-- Only what all calls share has changed, and not unheard. -/
structure Corner.Shares (before later : Corner) : Prop where
  call : later.call = before.call
  plan : later.plan = before.plan
  hooks : later.hooks = before.hooks
  steady : Pass.Steady before.locks later.locks
  generation : before.generation ≤ later.generation
  canceled : before.canceled = true → later.canceled = true
  locked : later.generation = before.generation →
    ∀ lock, before.locks.isLocked lock → later.locks.isLocked lock

theorem Corner.Shares.kept (shares : before.Shares later) (valid : before.plan.Valid) :
    before.Kept later :=
  { executor := by rw [shares.call]
    place := by rw [shares.call]
    action := by rw [shares.call]
    hooks := shares.hooks
    keeps := shares.plan ▸ .refl _
    valid := shares.plan ▸ valid
    steady := shares.steady
    generation := shares.generation
    canceled := shares.canceled }

theorem Corner.Shares.onward (shares : before.Shares later) : before.Onward later := by
  refine ⟨?_, ?_, fun same => ⟨?_, ?_, ?_, shares.locked same⟩⟩
  all_goals
    first
    | rw [shares.call]
    | rw [shares.plan]
  all_goals exact id

theorem Corner.Alert.elsewhere (alert : before.Alert) (shares : before.Shares later)
    (valid : before.plan.Valid) : later.Alert := by
  have kept := shares.kept valid
  have onward := shares.onward
  refine ⟨?_, ?_, shares.plan ▸ alert.single, ?_⟩
  · rw [shares.call]
    exact alert.stage.lasts kept onward (by rw [shares.call])
  · rw [shares.call]
    exact fun phase member => (alert.crew phase member).lasts kept onward
  · rw [Corner.Minded, shares.plan, shares.call]
    exact alert.minded

inductive Corner.Turns (index : Nat) (before : Corner) :
    Move → List Happening → Corner → Prop where
  | worker {worker : Nat} {phase : Phase} {events : List Happening} {later : Corner}
      (there : before.call.workers[worker]? = some phase)
      (deed : WorkerDeed index worker before phase events later) :
      Turns index before (.worker index worker) events later
  | caller {later : Corner} (deed : CallerDeed before before.call.stage later) :
      Turns index before (.caller index) [] later
  | elsewhere {move : Move} {events : List Happening} {later : Corner}
      (shares : before.Shares later)
      (foreign : ∀ happening ∈ events, happening.call? ≠ some index) :
      Turns index before move events later

theorem Corner.Turns.kept {move : Move} (turns : before.Turns index move events later)
    (valid : before.plan.Valid) : before.Kept later := by
  cases turns with
  | worker there deed => exact deed.kept valid
  | caller deed => exact deed.kept valid
  | elsewhere shares => exact shares.kept valid

namespace World

variable {start world after : World} {move : Move} {call : Call} {driven : Driven}

/-- No other call works on the plan of this one. -/
def Alone (world : World) (index : Nat) : Prop :=
  ∀ (other : Nat) (call rival : Call), world.calls[index]? = some call →
    world.calls[other]? = some rival → rival.plan = call.plan → other = index

theorem Alone.follows (alone : start.Alone index) (follows : start.Follows world) :
    world.Alone index := by
  intro other call rival found present same
  obtain ⟨call', found', _, plan, _⟩ := follows.origins index call found
  obtain ⟨rival', present', _, plan', _⟩ := follows.origins other rival present
  exact alone other call' rival' found' present' (plan'.symm.trans (same.trans plan))

theorem opening_alone (budget index : Nat) (jobs : List (Plan × Action × Nat)) :
    (opening budget jobs).Alone index := by
  intro other call rival found present same
  obtain ⟨job, _, rfl⟩ := opening_call found
  obtain ⟨job, _, rfl⟩ := opening_call present
  exact same

/-- What a worker can rely on in the corner of its call. -/
structure Owned.Lawful (world : World) (call : Call) (driven : Driven) : Prop where
  valid : driven.plan.Valid
  sound : world.locks.Sound
  throwing : driven.hooks.Throwing
  staffed : call.Staffed
  rooted : ∃ tree, world.locks.tree? call.executor.root = some tree
  leased : ∀ (worker : Nat) (phase : Phase), call.workers[worker]? = some phase →
    ∀ lease, phase.lease? = some lease → world.locks.Has lease ∧
      lease.tree = call.executor.root.tree
  busy : ∀ (worker : Nat) (phase : Phase), call.workers[worker]? = some phase →
    ∀ node, phase.node? = some node → driven.plan.state? node = some .executing
  sole : ∀ (worker rival : Nat) (phase other : Phase) (node : Nat),
    call.workers[worker]? = some phase → call.workers[rival]? = some other →
    phase.node? = some node → other.node? = some node → rival = worker

theorem Owned.lawful (owned : world.Owned) (found : world.calls[index]? = some call)
    (planned : world.plans[call.plan]? = some driven) : Owned.Lawful world call driven := by
  refine ⟨owned.valid _ _ planned, owned.sound, owned.throwing _ _ planned,
    owned.staffed _ _ found, owned.rooted _ _ found, ?_, ?_, ?_⟩
  · intro worker phase there lease has
    obtain ⟨has, _, other, present, tree⟩ :=
      owned.leased index worker lease ⟨call.plan, phase, ⟨call, found, rfl, there⟩, has⟩
    cases Option.some.inj (found.symm.trans present)
    exact ⟨has, tree⟩
  · intro worker phase there node owns
    exact owned.orderly.busy index worker node call driven phase found planned there owns
  · intro worker rival phase other node there there' owns owns'
    obtain ⟨lease, has⟩ := Phase.lease_of_node owns
    obtain ⟨lease', has'⟩ := Phase.lease_of_node owns'
    exact (owned.sole ⟨phase, ⟨call, found, rfl, there⟩, has, owns⟩
      ⟨other, ⟨call, found, rfl, there'⟩, has', owns'⟩).2

/-- Somebody else's step, as a call on another plan sees it. -/
private theorem shares_shown {other : Nat} {rival : Call} {elsewhere : Driven}
    (planned : world.plans[call.plan]? = some driven)
    (shown : Shows world index call.plan after later events)
    (kept : (world.cornerOf call driven).Kept later)
    (onward : (world.cornerOf call driven).Onward later)
    (found : world.calls[index]? = some call) (apart : other ≠ index)
    (separate : rival.plan ≠ call.plan) (present : world.calls[other]? = some rival)
    (known : world.plans[rival.plan]? = some elsewhere) :
    after.calls[other]? = some rival ∧ after.plans[rival.plan]? = some elsewhere ∧
      (world.cornerOf rival elsewhere).Shares (after.cornerOf rival elsewhere) := by
  obtain ⟨_, _, _, plans⟩ := shown.plan? planned
  refine ⟨?_, ?_, rfl, rfl, rfl, ?_, ?_, ?_, ?_⟩
  · rw [shown.call? found, if_neg apart, present]
  · rw [plans, if_neg separate, known]
  · simp only [cornerOf, shown.locks]
    exact kept.steady
  · simp only [cornerOf, shown.generation]
    exact kept.generation
  · exact fun canceled => shown.canceled.trans (kept.canceled canceled)
  · simp only [cornerOf, shown.locks, shown.generation]
    exact fun same => (onward.silent same).locked

private theorem corner_shown (found : world.calls[index]? = some call)
    (planned : world.plans[call.plan]? = some driven)
    (shown : Shows world index call.plan after later events)
    (place : later.call.plan = call.plan) :
    ∃ driven', after.calls[index]? = some later.call ∧
      after.plans[later.call.plan]? = some driven' ∧ after.cornerOf later.call driven' = later := by
  obtain ⟨driven', plan, hooks, plans⟩ := shown.plan? planned
  refine ⟨driven', ?_, ?_, ?_⟩
  · rw [shown.call? found, if_pos rfl]
  · rw [place, plans, if_pos rfl]
  · simp only [cornerOf, plan, hooks, shown.locks, shown.generation, shown.canceled]

/-- What a step is to a call that is alone on its plan. -/
theorem Turn.corner (turn : world.Turn move after) (owned : world.Owned)
    (alone : world.Alone index) (found : world.calls[index]? = some call)
    (planned : world.plans[call.plan]? = some driven) :
    ∃ call' driven' events, after.calls[index]? = some call' ∧
      after.plans[call'.plan]? = some driven' ∧ after.history = world.history ++ events ∧
      (world.cornerOf call driven).Turns index move events (after.cornerOf call' driven') := by
  cases turn with
  | @worker other worker acting active phase events later _ found' planned' there deed shown =>
    have lawful := owned.lawful found' planned'
    have kept := deed.kept lawful.valid
    by_cases mine : index = other
    · subst mine
      cases Option.some.inj (found.symm.trans found')
      cases Option.some.inj (planned.symm.trans planned')
      obtain ⟨driven', present, known, corner⟩ := corner_shown found planned shown kept.place
      refine ⟨later.call, driven', events, present, known, shown.history, ?_⟩
      rw [corner]
      exact .worker there deed
    · have onward := deed.onward lawful.valid lawful.rooted (lawful.busy worker phase there)
      have separate (same : call.plan = acting.plan) : False :=
        mine (alone other call acting found found' same.symm).symm
      obtain ⟨present, known, shares⟩ :=
        shares_shown planned' shown kept onward found' mine separate found planned
      refine ⟨call, driven, events, present, known, shown.history, .elsewhere shares ?_⟩
      intro happening member same
      rcases deed.native happening member with native | rfl
      · exact mine (Option.some.inj (same.symm.trans native))
      · cases same
  | @caller other acting active later _ found' planned' deed shown =>
    have lawful := owned.lawful found' planned'
    have kept := deed.kept lawful.valid
    by_cases mine : index = other
    · subst mine
      cases Option.some.inj (found.symm.trans found')
      cases Option.some.inj (planned.symm.trans planned')
      obtain ⟨driven', present, known, corner⟩ := corner_shown found planned shown kept.place
      refine ⟨later.call, driven', [], present, known, shown.history, ?_⟩
      rw [corner]
      exact .caller deed
    · have separate (same : call.plan = acting.plan) : False :=
        mine (alone other call acting found found' same.symm).symm
      obtain ⟨present, known, shares⟩ := shares_shown planned' shown kept
        (deed.onward lawful.valid) found' mine separate found planned
      exact ⟨call, driven, [], present, known, shown.history, .elsewhere shares (by simp)⟩
  | @outside _ events _ foreign outside =>
    refine ⟨call, driven, events, outside.calls ▸ found, outside.plans ▸ planned, outside.history,
      .elsewhere ?_ ?_⟩
    · refine ⟨rfl, rfl, rfl, ?_, outside.generation, outside.canceled, ?_⟩
      · simp only [cornerOf, outside.locks]
        exact .refl _
      · simp only [cornerOf, outside.locks]
        exact fun _ _ => id
    · intro happening member same
      rw [outside.foreign happening member] at same
      cases same

/-- What holds of a call at some time of a run and is kept by every step that it sees
holds of it from then on. -/
theorem Start.sees_on {start middle : World} {earlier moves : List (Bool × Move)}
    (fresh : start.Start) (alone : start.Alone index) (Kept : Corner → List Happening → Prop)
    (played : start.play earlier = some middle) (ran : middle.play moves = some world)
    (found : world.calls[index]? = some call) (planned : world.plans[call.plan]? = some driven)
    (initial : ∀ call driven, middle.calls[index]? = some call →
      middle.plans[call.plan]? = some driven → Kept (middle.cornerOf call driven) middle.history)
    (step : ∀ (world : World) (call : Call) (driven : Driven) (move : Move)
      (events history : List Happening) (later : Corner), start.Follows world →
      Owned.Lawful world call driven → (world.cornerOf call driven).Turns index move events later →
      Kept (world.cornerOf call driven) history → Kept later (history ++ events)) :
    Kept (world.cornerOf call driven) world.history := by
  have all := play_induction (fun world => world.Owned ∧ start.Follows world ∧
    ∀ call driven, world.calls[index]? = some call → world.plans[call.plan]? = some driven →
      Kept (world.cornerOf call driven) world.history) ran
    ⟨(fresh.play played).1, (fresh.play played).2, initial⟩ ?_
  · exact all.2.2 call driven found planned
  intro before after missed move ⟨owned, follows, holds⟩ stepped
  have turn := step_turn owned.orderly stepped
  have onward := turn.follows owned.valid
  refine ⟨owned.turn turn, follows.trans onward, ?_⟩
  intro call' driven' found' planned'
  obtain ⟨earlier, present, _⟩ := onward.origins index call' found'
  obtain ⟨known, there⟩ := owned.planned index earlier present
  obtain ⟨call, driven, events, found, planned, history, turns⟩ :=
    turn.corner owned (alone.follows follows) present there
  cases Option.some.inj (found.symm.trans found')
  cases Option.some.inj (planned.symm.trans planned')
  rw [history]
  exact step before earlier known move events before.history _ follows (owned.lawful present there) turns
    (holds earlier known present there)

/-- What holds of a call at the start and is kept by every step that it sees holds of
it after every schedule. -/
theorem Start.sees {start : World} {moves : List (Bool × Move)} (fresh : start.Start)
    (alone : start.Alone index) (Kept : Corner → List Happening → Prop)
    (ran : start.play moves = some world) (found : world.calls[index]? = some call)
    (planned : world.plans[call.plan]? = some driven)
    (initial : ∀ call driven, start.calls[index]? = some call →
      start.plans[call.plan]? = some driven → Kept (start.cornerOf call driven) [])
    (step : ∀ (world : World) (call : Call) (driven : Driven) (move : Move)
      (events history : List Happening) (later : Corner), start.Follows world →
      Owned.Lawful world call driven → (world.cornerOf call driven).Turns index move events later →
      Kept (world.cornerOf call driven) history → Kept later (history ++ events)) :
    Kept (world.cornerOf call driven) world.history :=
  fresh.sees_on alone Kept (show start.play [] = some start from rfl) ran found planned
    (fresh.history ▸ initial) step

/-- A step in the course of a run, as the call on the plan at that place sees it. -/
structure Sight (index place : Nat) (world : World) (move : Move) (after : World)
    (call later : Call) (known last : Driven) (events : List Happening) : Prop where
  found : world.calls[index]? = some call
  plan : call.plan = place
  planned : world.plans[place]? = some known
  found_after : after.calls[index]? = some later
  plan_after : later.plan = place
  planned_after : after.plans[place]? = some last
  lawful : Owned.Lawful world call known
  history : after.history = world.history ++ events
  turns : (world.cornerOf call known).Turns index move events (after.cornerOf later last)

theorem Start.sight {start : World} {moves : List (Bool × Move)} (fresh : start.Start)
    (alone : start.Alone index) (found : start.calls[index]? = some call)
    (played : start.play moves = some world) {missed : Bool}
    (stepped : world.step missed move = some after) :
    ∃ before later known last events,
      Sight index call.plan world move after before later known last events := by
  obtain ⟨owned, follows⟩ := fresh.play played
  obtain ⟨before, found, _, plan, _⟩ := follows.calls index call found
  obtain ⟨known, planned⟩ := owned.planned index before found
  have lawful := owned.lawful found planned
  obtain ⟨later, last, events, found', planned', history, turns⟩ :=
    (step_turn owned.orderly stepped).corner owned (alone.follows follows) found planned
  have place := (turns.kept lawful.valid).place
  simp only [cornerOf, plan] at place
  exact ⟨before, later, known, last, events, found, plan, plan ▸ planned, found', place,
    place ▸ planned', lawful, history, turns⟩

end World
end Foreman.Executor
