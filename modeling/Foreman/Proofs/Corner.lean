import Foreman.Proofs.Schedules

/-! The corner of the world that one call works in: itself, its plan and what all
calls share. A step changes the corner of the call that makes it and leaves the
other calls and their plans alone. -/

namespace Foreman.Executor

structure Corner where
  call : Call
  plan : Plan
  hooks : Hooks
  locks : Locks
  generation : Nat
  canceled : Bool

namespace Corner

def withPhase (corner : Corner) (worker : Nat) (phase : Phase) : Corner :=
  { corner with call := { corner.call with workers := corner.call.workers.set worker phase } }

def withStage (corner : Corner) (stage : Stage) : Corner :=
  { corner with call := { corner.call with stage } }

def withFailures (corner : Corner) (node : Nat) (failures : List Failure) : Corner :=
  { corner with plan := corner.plan.failAll node failures }

end Corner

namespace World

variable {origin world after : World} {index place worker node : Nat} {corner : Corner}
  {events : List Happening} {call : Call} {driven : Driven}

/-- The world differs from its origin by the state of one corner and the events
there. -/
structure Shows (origin : World) (index place : Nat) (world : World) (corner : Corner)
    (events : List Happening) : Prop where
  calls : world.calls = origin.calls.set index corner.call
  plans : ∃ driven : Driven, world.plans = origin.plans.set place driven ∧
    driven.plan = corner.plan ∧ driven.hooks = corner.hooks
  locks : world.locks = corner.locks
  generation : world.generation = corner.generation
  canceled : world.token.canceled = corner.canceled
  history : world.history = origin.history ++ events

def cornerOf (world : World) (call : Call) (driven : Driven) : Corner :=
  { call, plan := driven.plan, hooks := driven.hooks, locks := world.locks
    generation := world.generation, canceled := world.token.canceled }

private theorem set_same {α : Type} {l : List α} {position : Nat} {value : α}
    (found : l[position]? = some value) : l.set position value = l := by
  obtain ⟨inside, rfl⟩ := List.getElem?_eq_some_iff.mp found
  exact List.set_getElem_self inside

private theorem modify_after_set {α : Type} (l : List α) (position : Nat) (value : α) (f : α → α) :
    (l.set position value).modify position f = l.set position (f value) := by
  apply List.ext_getElem?
  intro other
  rw [List.getElem?_modify, List.getElem?_set, List.getElem?_set]
  split
  next same =>
    subst same
    split <;> rfl
  · simp

namespace Shows

theorem refl (found : world.calls[index]? = some call)
    (planned : world.plans[call.plan]? = some driven) :
    Shows world index call.plan world (world.cornerOf call driven) [] :=
  ⟨(set_same found).symm, ⟨driven, (set_same planned).symm, rfl, rfl⟩, rfl, rfl, rfl,
    (List.append_nil _).symm⟩

variable (shows_ : Shows origin index place world corner events)
include shows_

theorem setPhase (worker : Nat) (phase : Phase) :
    Shows origin index place (world.setPhase index worker phase) (corner.withPhase worker phase)
      events :=
  { shows_ with
    calls := by simp only [World.setPhase, shows_.calls, modify_after_set, Corner.withPhase] }

theorem setStage (stage : Stage) :
    Shows origin index place (world.setStage index stage) (corner.withStage stage) events :=
  { shows_ with
    calls := by simp only [World.setStage, shows_.calls, modify_after_set, Corner.withStage] }

theorem setCall (call : Call) :
    Shows origin index place (world.setCall index call) { corner with call } events :=
  { shows_ with calls := by simp only [World.setCall, shows_.calls, List.set_set] }

theorem leave (worker : Nat) (fault : Option Fault) :
    Shows origin index place (world.leave index worker fault)
      { corner.withPhase worker (.gone fault) with
        call.pool := corner.call.pool.finish worker fault } events :=
  { shows_ with
    calls := by simp only [World.leave, shows_.calls, modify_after_set, Corner.withPhase] }

theorem happen (happening : Happening) :
    Shows origin index place (world.happen happening) corner (events ++ [happening]) :=
  { shows_ with
    history := by rw [World.happen, shows_.history, List.append_assoc] }

theorem signal : Shows origin index place world.signal
    { corner with generation := corner.generation + 1 } events :=
  { shows_ with generation := by rw [World.signal, shows_.generation] }

theorem failNode (node : Nat) (failure : Failure) :
    Shows origin index place (world.failNode place node failure)
      (corner.withFailures node [failure]) events := by
  obtain ⟨driven, plans, plan, hooks⟩ := shows_.plans
  exact
    { shows_ with
      plans := by
        refine ⟨{ driven with plan := driven.plan.failNode node failure }, ?_, ?_, hooks⟩
        · simp only [World.failNode, modifyPlan, plans, modify_after_set]
        · simp only [Corner.withFailures, Plan.failAll, List.foldl_cons, List.foldl_nil, plan] }

theorem note (id : String) (note : Note) :
    Shows origin index place (world.note index id note)
      { corner with call.notes := corner.call.notes ++ [(id, note)] } events :=
  { shows_ with calls := by simp only [World.note, shows_.calls, modify_after_set] }

theorem record {event : Event} {fault : Option Fault}
    (recorded : world.record call event = (fault, after)) :
    Shows origin index place after corner events := by
  cases recorded
  exact { shows_ with }

theorem addStat (call : Call) (label : String) :
    Shows origin index place (world.addStat call label) corner events :=
  { shows_ with }

theorem withLocks (locks : Locks) :
    Shows origin index place { world with locks } { corner with locks } events :=
  { shows_ with locks := rfl }

theorem withToken (token : Token Nat) (same : token.canceled = corner.canceled) :
    Shows origin index place { world with token } corner events :=
  { shows_ with canceled := same }

end Shows

theorem Shows.call? (shown : Shows origin index place world corner events)
    (found : origin.calls[index]? = some call) (other : Nat) :
    world.calls[other]? = if other = index then some corner.call else origin.calls[other]? := by
  have inside := (List.getElem?_eq_some_iff.mp found).1
  rw [shown.calls, List.getElem?_set]
  by_cases same : index = other
  · simp [same, same ▸ inside]
  · simp [same, Ne.symm same]

theorem Shows.plan? (shown : Shows origin index place world corner events)
    (planned : origin.plans[place]? = some driven) :
    ∃ later : Driven, later.plan = corner.plan ∧ later.hooks = corner.hooks ∧
      ∀ other, world.plans[other]? = if other = place then some later else origin.plans[other]? := by
  obtain ⟨later, plans, plan, hooks⟩ := shown.plans
  have inside := (List.getElem?_eq_some_iff.mp planned).1
  refine ⟨later, plan, hooks, fun other => ?_⟩
  rw [plans, List.getElem?_set]
  by_cases same : place = other
  · simp [same, same ▸ inside]
  · simp [same, Ne.symm same]

/-- Nothing happened to any call or plan, or to a lock. -/
structure Outside (before : World) (events : List Happening) (after : World) : Prop where
  calls : after.calls = before.calls
  plans : after.plans = before.plans
  locks : after.locks = before.locks
  generation : before.generation ≤ after.generation
  canceled : before.token.canceled = true → after.token.canceled = true
  history : after.history = before.history ++ events
  foreign : ∀ happening ∈ events, happening = .raised

theorem Shows.outside {later : List Happening} (shows_ : Shows origin index place world corner events)
    (outside : world.Outside later after) : Shows origin index place after
      { corner with generation := after.generation, canceled := after.token.canceled }
      (events ++ later) :=
  { calls := outside.calls.trans shows_.calls
    plans := by
      obtain ⟨driven, plans, plan, hooks⟩ := shows_.plans
      exact ⟨driven, outside.plans.trans plans, plan, hooks⟩
    locks := outside.locks.trans shows_.locks
    generation := rfl
    canceled := rfl
    history := by rw [outside.history, shows_.history, List.append_assoc] }

/-- A request for cancellation that is carried on sets the flag first. -/
theorem advanceRequest_outside (world : World) (request : Request) :
    ∃ events, world.Outside events (world.advanceRequest request).2 ∧
      (request = .raise → (world.advanceRequest request).2.token.canceled = true) := by
  have idle : world.Outside [] world :=
    ⟨rfl, rfl, rfl, Nat.le_refl _, id, (List.append_nil _).symm, by simp⟩
  cases request with
  | raise =>
    simp only [advanceRequest, Token.raise]
    cases canceled : world.token.canceled with
    | true => exact ⟨[], idle, fun _ => canceled⟩
    | false =>
      exact ⟨[.raised], ⟨rfl, rfl, rfl, Nat.le_refl _, fun _ => rfl, rfl, by simp⟩, fun _ => rfl⟩
  | take => exact ⟨[], { idle with }, by simp⟩
  | wake left =>
    cases left with
    | zero => exact ⟨[], idle, by simp⟩
    | succ left => exact ⟨[], { idle with generation := Nat.le_succ _ }, by simp⟩

theorem raises_of_record {event : Event} {fault : Fault}
    (recorded : world.record call event = (some fault, after)) : Sink.Raises call.executor.sink := by
  simp only [record, Sink.record] at recorded
  split at recorded
  · cases recorded
  next sink present => exact ⟨sink, present, _, _, fault, (Prod.mk.inj recorded).1⟩

end World
end Foreman.Executor
