import Foreman.Proofs.LeaseHistory

/-! The gate while somebody is inside. A step of the world that is a pass under the
gate is taken apart here: the thread goes inside first, and when its pass ends,
whichever way, it is outside again. Until then nobody else comes in, and all steps
that are no passes go on. -/

namespace Foreman.Executor

/-- For a stage whose next step is a pass, where the thread is parked. -/
def Stage.pass? : Stage → Option (Option Nat)
  | .queueing parked | .awaiting parked => some parked
  | .aborting _ => some none
  | .arriving | .launching | .reporting | .joining _ | .gone _ => none

def Phase.pass? : Phase → Option (Option Nat)
  | .choosing _ parked => some parked
  | .completing .. | .failing .. => some none
  | .hired | .chosen .. | .acting .. | .retiring _ | .gone _ => none

def Move.call? : Move → Option Nat
  | .caller call | .worker call _ => some call
  | .request _ | .cancel => none

def Call.Ended (call : Call) : Prop := ∃ fault, call.stage = .gone fault

def World.pass? (world : World) : Move → Option (Option Nat)
  | .caller index => world.calls[index]?.bind (·.stage.pass?)
  | .worker index worker => (world.phase? index worker).bind (·.pass?)
  | .request _ | .cancel => none

/-- The thread is about to make a pass and does not have to wait. -/
def World.wantsIn (world : World) (move : Move) : Bool :=
  (world.pass? move).any fun parked => !world.waits parked

/-- A world, and who is inside its gate. A signal from outside, which has the gate
only for the one step that it is, may come at any time. -/
structure Gated where
  world : World
  inside : Option Move := none

namespace Gated

inductive Act where
  | enter (move : Move)
  /-- A step of the world. It is a pass if its thread is inside. -/
  | go (missed : Bool) (move : Move)

def Act.step? : Act → Option (Bool × Move)
  | .enter _ => none
  | .go missed move => some (missed, move)

def perform (gated : Gated) : Act → Option Gated
  | .enter move =>
    if gated.inside = none ∧ gated.world.wantsIn move then some { gated with inside := some move }
    else none
  | .go missed move =>
    if gated.inside = some move then
      (gated.world.step missed move).map fun world => { world }
    else if gated.world.wantsIn move then none
    else (gated.world.step missed move).map fun world => { gated with world }

def play (gated : Gated) : List Act → Option Gated
  | [] => some gated
  | act :: rest => (gated.perform act).bind (·.play rest)

theorem play_append (gated : Gated) (earlier later : List Act) :
    gated.play (earlier ++ later) = (gated.play earlier).bind (·.play later) := by
  induction earlier generalizing gated with
  | nil => rfl
  | cons act rest ih =>
    rw [List.cons_append, play, play]
    cases gated.perform act with
    | none => rfl
    | some next => exact ih next

end Gated

variable {world after : World} {gated later : Gated} {missed : Bool} {move other : Move}
  {index place : Nat} {call : Call} {corner : Corner} {events : List Happening}

namespace Gated

theorem perform_enter (performed : gated.perform (.enter move) = some later) :
    gated.inside = none ∧ gated.world.wantsIn move ∧ later = { gated with inside := some move } := by
  simp only [perform] at performed
  split at performed
  next free =>
    cases performed
    exact ⟨free.1, free.2, rfl⟩
  · cases performed

/-- A step ends with its thread outside, and whoever else was inside still is. -/
theorem perform_go (performed : gated.perform (.go missed move) = some later) :
    gated.world.step missed move = some later.world ∧
      ∀ other, later.inside = some other → gated.inside = some other ∧ other ≠ move := by
  simp only [perform] at performed
  split at performed
  · obtain ⟨world, stepped, rfl⟩ := Option.map_eq_some_iff.mp performed
    exact ⟨stepped, by simp⟩
  next elsewhere =>
    split at performed
    · cases performed
    · obtain ⟨world, stepped, rfl⟩ := Option.map_eq_some_iff.mp performed
      refine ⟨stepped, ?_⟩
      intro other inside
      refine ⟨inside, ?_⟩
      intro same
      exact elsewhere (same ▸ inside)

/-! The gate adds no run. -/

theorem play_world {acts : List Act} (ran : gated.play acts = some later) :
    gated.world.play (acts.filterMap Act.step?) = some later.world := by
  induction acts generalizing gated with
  | nil =>
    cases ran
    rfl
  | cons act rest ih =>
    obtain ⟨next, performed, ran⟩ := Option.bind_eq_some_iff.mp ran
    have onward := ih ran
    cases act with
    | enter move =>
      obtain ⟨_, _, rfl⟩ := perform_enter performed
      exact onward
    | go missed move =>
      have stepped := (perform_go performed).1
      simp only [List.filterMap_cons, Act.step?, World.play, stepped, Option.bind_some, onward]

end Gated

/-! Who can be inside. -/

namespace World

private theorem pass?_call (found : world.calls[index]? = some call)
    (shown : Shows world index place after corner events)
    (stage : other = .caller index → corner.call.stage = call.stage)
    (workers : ∀ rival, other = .worker index rival →
      corner.call.workers[rival]?.bind (·.pass?) = call.workers[rival]?.bind (·.pass?)) :
    after.pass? other = world.pass? other := by
  cases other with
  | caller site =>
    rw [World.pass?, World.pass?, shown.call? found]
    split
    next same =>
      subst same
      rw [found, Option.bind_some, Option.bind_some, stage rfl]
    · rfl
  | worker site rival =>
    rw [World.pass?, World.pass?, World.phase?, World.phase?, shown.call? found]
    split
    next same =>
      subst same
      simp only [found, Option.bind_some, workers rival rfl]
    · rfl
  | request | cancel => rfl

/-- A step leaves every thread but its own where it is. -/
theorem Turn.pass? (turn : world.Turn move after) (owned : world.Owned) (apart : other ≠ move) :
    after.pass? other = world.pass? other := by
  cases turn with
  | worker found planned there deed shown =>
    obtain ⟨_, next, moves⟩ := deed.moves
    apply pass?_call found shown (fun _ => moves.stage)
    intro rival same
    subst same
    rw [moves.workers, List.getElem?_set_ne]
    · rfl
    · intro same
      exact apart (same ▸ rfl)
  | caller found planned deed shown =>
    apply pass?_call found shown (fun same => absurd same apart)
    intro rival _
    rcases deed.crew with workers | ⟨launching, hired⟩
    · rw [workers]
      rfl
    · -- before the launch there is no worker, and after it none has a pass to make
      have none := (owned.staffed _ _ found).early (Or.inr launching)
      rw [none, List.getElem?_nil, Option.bind_none, Option.bind_eq_none_iff]
      intro phase there
      rw [hired phase (List.mem_of_getElem? there)]
      rfl
  | outside foreign outside =>
    cases other <;> simp only [World.pass?, World.phase?, outside.calls]

end World

namespace Gated

def Guarded (gated : Gated) : Prop :=
  ∀ move, gated.inside = some move → (gated.world.pass? move).isSome

theorem Guarded.perform {act : Act} (guarded : gated.Guarded) (owned : gated.world.Owned)
    (performed : gated.perform act = some later) : later.Guarded := by
  cases act with
  | enter move =>
    obtain ⟨_, wants, rfl⟩ := perform_enter performed
    intro other inside
    cases inside
    obtain ⟨parked, passes, _⟩ := (Option.any_eq_true ..).mp wants
    exact Option.isSome_iff_exists.mpr ⟨parked, passes⟩
  | go missed move =>
    obtain ⟨stepped, stays⟩ := perform_go performed
    intro other inside
    obtain ⟨before, apart⟩ := stays other inside
    rw [(World.step_turn owned.orderly stepped).pass? owned apart]
    exact guarded other before

theorem Guarded.play {acts : List Act} (guarded : gated.Guarded) (owned : gated.world.Owned)
    (ran : gated.play acts = some later) : later.Guarded := by
  induction acts generalizing gated with
  | nil =>
    cases ran
    exact guarded
  | cons act rest ih =>
    obtain ⟨next, performed, ran⟩ := Option.bind_eq_some_iff.mp ran
    apply ih (guarded.perform owned performed) _ ran
    cases act with
    | enter move =>
      obtain ⟨_, _, rfl⟩ := perform_enter performed
      exact owned
    | go missed move => exact owned.turn (World.step_turn owned.orderly (perform_go performed).1)

/-- Only a thread of a call that has not ended can be inside. -/
theorem Guarded.insider (guarded : gated.Guarded) (owned : gated.world.Owned)
    (inside : gated.inside = some move) :
    ∃ index call, move.call? = some index ∧ gated.world.calls[index]? = some call ∧
      ¬ call.Ended := by
  obtain ⟨parked, passes⟩ := Option.isSome_iff_exists.mp (guarded move inside)
  cases move with
  | caller index =>
    obtain ⟨call, found, waits⟩ := Option.bind_eq_some_iff.mp passes
    refine ⟨index, call, rfl, found, ?_⟩
    intro ended
    obtain ⟨fault, gone⟩ := ended
    rw [gone] at waits
    cases waits
  | worker index worker =>
    obtain ⟨phase, there, waits⟩ := Option.bind_eq_some_iff.mp passes
    obtain ⟨call, found, there⟩ := Option.bind_eq_some_iff.mp there
    refine ⟨index, call, rfl, found, ?_⟩
    intro ended
    obtain ⟨fault, gone⟩ := ended
    obtain ⟨left, rfl⟩ := (owned.staffed _ _ found).emptied fault gone phase
      (List.mem_of_getElem? there)
    cases waits
  | request | cancel => cases passes

end Gated
end Foreman.Executor
