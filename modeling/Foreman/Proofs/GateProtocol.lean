import Foreman.Gate.Machine

/-! The protocol of the gate, for any number of threads with any transforms. One
thread at a time is inside, a thread whose pass wants to run again waits for a signal
of somebody else, and nobody sleeps through a signal: as long as a sleeper has not
seen the generation that there is, somebody is about to wake it. -/

namespace Foreman.Gate

variable {ρ : Type}

/-- What can happen at a gate: a thread comes, or one that is there makes a move. A
thread that comes back is a new one. -/
inductive Event (ρ : Type) where
  | call (transform : Transform ρ)
  | notify
  | move (index : Nat) (move : Move)

namespace Machine

variable {machine after start : Machine ρ} {index other seen : Nat} {move : Move} {event : Event ρ}
  {events : List (Event ρ)}

def place? (machine : Machine ρ) (index : Nat) : Option Place :=
  machine.threads[index]?.map (·.place)

def Inside (machine : Machine ρ) (index : Nat) : Prop := machine.place? index = some .inside

def turn (machine : Machine ρ) (thread : Thread ρ) : Turn ρ :=
  thread.transform thread.passes machine.shared { locks := machine.locks }

/-- The move ends a pass that has changed something, or signals from outside. -/
def signals (machine : Machine ρ) (index : Nat) : Move → Bool
  | .signal => true
  | .leave => machine.threads[index]?.any fun thread => (machine.turn thread).pass.book.changed
  | .enter | .stir | .look | .announce => false

def happen (machine : Machine ρ) : Event ρ → Option (Machine ρ)
  | .call transform => some (machine.call transform)
  | .notify => some machine.notify
  | .move index move => machine.step index move

def play (machine : Machine ρ) : List (Event ρ) → Option (Machine ρ)
  | [] => some machine
  | event :: rest => (machine.happen event).bind (·.play rest)

/-- Nobody has come to the gate yet. -/
structure Idle (machine : Machine ρ) : Prop where
  threads : machine.threads = []
  holder : machine.holder = none

/-! What a move does to the places of the threads. -/

@[simp]
theorem moveTo_place? (machine : Machine ρ) (index other : Nat) (place : Place) :
    (machine.moveTo index place).place? other =
      if other = index then (machine.place? other).map fun _ => place else machine.place? other := by
  simp only [place?, moveTo, List.getElem?_modify]
  by_cases same : index = other
  · simp [same, Function.comp_def]
  · simp [same, Ne.symm same]

@[simp]
theorem count_place? (machine : Machine ρ) (index other : Nat) :
    (machine.count index).place? other = machine.place? other := by
  simp only [place?, count, List.getElem?_modify]
  cases machine.threads[other]? with
  | none => rfl
  | some thread =>
    simp only [Option.map_eq_map, Option.map_some]
    split <;> rfl

@[simp]
theorem wakeAll_place? (machine : Machine ρ) (other : Nat) :
    machine.wakeAll.place? other = (machine.place? other).map Place.wake := by
  simp only [place?, wakeAll, List.getElem?_map, Option.map_map]
  rfl

def beside (machine : Machine ρ) (woken : Bool) (other : Nat) : Option Place :=
  if woken then (machine.place? other).map Place.wake else machine.place? other

/-- A move of a thread, with where it and the others are after it. -/
inductive Steps (machine : Machine ρ) (index : Nat) (after : Machine ρ) : Move → Prop where
  | enter (there : machine.place? index = some .entering) (free : machine.holder = none)
      (holder : after.holder = some index) (generation : after.generation = machine.generation)
      (places : ∀ other, after.place? other =
        if other = index then some .inside else machine.place? other) :
      Steps machine index after .enter
  /-- The pass ends, and the thread goes or sleeps until the next signal. -/
  | leave {next : Place} (there : machine.place? index = some .inside)
      (ends : (∃ fault, next = .gone fault) ∨ next = .asleep after.generation)
      (holder : after.holder = none)
      (generation : after.generation =
        if machine.signals index .leave then machine.generation + 1 else machine.generation)
      (places : ∀ other, after.place? other =
        if other = index then some next else machine.beside (machine.signals index .leave) other) :
      Steps machine index after .leave
  | stir {seen : Nat} (there : machine.place? index = some (.asleep seen))
      (holder : after.holder = machine.holder) (generation : after.generation = machine.generation)
      (places : ∀ other, after.place? other =
        if other = index then some (.awake seen) else machine.place? other) :
      Steps machine index after .stir
  /-- Nothing has changed, so the thread sleeps on. -/
  | doze (there : machine.place? index = some (.awake machine.generation))
      (holder : after.holder = machine.holder) (generation : after.generation = machine.generation)
      (places : ∀ other, after.place? other =
        if other = index then some (.asleep machine.generation) else machine.place? other) :
      Steps machine index after .look
  | rise {seen : Nat} (there : machine.place? index = some (.awake seen))
      (moved : seen ≠ machine.generation) (free : machine.holder = none)
      (holder : after.holder = some index) (generation : after.generation = machine.generation)
      (places : ∀ other, after.place? other =
        if other = index then some .inside else machine.place? other) :
      Steps machine index after .look
  | signal (there : machine.place? index = some .signalling) (free : machine.holder = none)
      (holder : after.holder = none) (generation : after.generation = machine.generation + 1)
      (places : ∀ other, after.place? other =
        if other = index then some .announcing else machine.place? other) :
      Steps machine index after .signal
  | announce (there : machine.place? index = some .announcing)
      (holder : after.holder = machine.holder) (generation : after.generation = machine.generation)
      (places : ∀ other, after.place? other =
        if other = index then some (.gone none) else (machine.place? other).map Place.wake) :
      Steps machine index after .announce

/-- The machine after a pass that came to this, before its thread moves on. Whoever
sleeps is woken if the pass has changed something. -/
def told (machine : Machine ρ) (turn : Turn ρ) : Machine ρ :=
  let settled : Machine ρ :=
    { machine with
      locks := settle turn.ending turn.pass
      shared := turn.shared
      generation := publish turn.pass machine.generation
      holder := none }
  if turn.pass.book.changed then settled.wakeAll else settled

theorem told_holder (machine : Machine ρ) (turn : Turn ρ) : (machine.told turn).holder = none := by
  unfold told
  split <;> rfl

theorem told_generation (machine : Machine ρ) (turn : Turn ρ) :
    (machine.told turn).generation = publish turn.pass machine.generation := by
  unfold told
  split <;> rfl

theorem told_place? (machine : Machine ρ) (turn : Turn ρ) (other : Nat) :
    (machine.told turn).place? other = machine.beside turn.pass.book.changed other := by
  simp only [told, beside]
  split
  · rw [wakeAll_place?]
    rfl
  · rfl

/-- A thread that leaves comes to its next place after the others were woken. -/
private theorem leave_moves (machine : Machine ρ) (index : Nat) (thread : Thread ρ) :
    ∃ told : Machine ρ, ∃ next, machine.leave index thread = told.moveTo index next ∧
      told.holder = none ∧ told.generation = publish (machine.turn thread).pass machine.generation ∧
      ((∃ fault, next = .gone fault) ∨ next = .asleep told.generation) ∧
      ∀ other, told.place? other = machine.beside (machine.turn thread).pass.book.changed other := by
  have holder := machine.told_holder (machine.turn thread)
  have generation := machine.told_generation (machine.turn thread)
  have places := machine.told_place? (machine.turn thread)
  have counted (other : Nat) := (count_place? (machine.told (machine.turn thread)) index other).trans
    (places other)
  let told := machine.told (machine.turn thread)
  unfold leave
  simp only
  split
  next value _ => exact ⟨told.count index, _, rfl, holder, generation, Or.inl ⟨none, rfl⟩, counted⟩
  · exact ⟨told.count index, _, rfl, holder, generation, Or.inr (congrArg _ generation.symm), counted⟩
  next fault _ => exact ⟨told, _, rfl, holder, generation, Or.inl ⟨some fault, rfl⟩, places⟩

theorem step_steps (stepped : machine.step index move = some after) :
    machine.Steps index after move := by
  unfold step at stepped
  split at stepped
  · cases stepped
  next thread found =>
    have there : machine.place? index = some thread.place := by simp [place?, found]
    have moved (place : Place) (other : Nat) : (machine.moveTo index place).place? other =
        if other = index then some place else machine.place? other := by
      rw [moveTo_place?]
      split
      next same => simp [same, there]
      · rfl
    split at stepped
    next entering free =>
      cases stepped
      exact .enter (entering ▸ there) free rfl rfl (moved .inside)
    next inside =>
      cases stepped
      obtain ⟨told, next, same, holder, generation, ends, places⟩ :=
        machine.leave_moves index thread
      have signals : machine.signals index .leave = (machine.turn thread).pass.book.changed := by
        simp [Machine.signals, found]
      rw [same]
      refine .leave (inside ▸ there) ends holder (signals ▸ generation) fun other => ?_
      rw [moveTo_place?, places, signals]
      split
      next same =>
        rw [same, beside, there]
        split <;> rfl
      · rfl
    next seen asleep =>
      cases stepped
      exact .stir (asleep ▸ there) rfl rfl (moved (.awake seen))
    next seen awake free =>
      split at stepped
      next same =>
        cases stepped
        exact .doze (same ▸ awake ▸ there) rfl rfl (same ▸ moved (.asleep seen))
      next differs =>
        cases stepped
        exact .rise (awake ▸ there) differs free rfl rfl (moved .inside)
    next signalling free =>
      cases stepped
      exact .signal (signalling ▸ there) free free rfl (moved .announcing)
    next announcing =>
      cases stepped
      refine .announce (announcing ▸ there) rfl rfl fun other => ?_
      rw [moveTo_place?, wakeAll_place?]
      split
      next same => simp [same, there]
      · rfl
    · cases stepped

/-- A thread that comes takes the last place, and the others stay where they are. -/
private theorem append_place? (machine : Machine ρ) (thread : Thread ρ) (other : Nat) :
    Machine.place? { machine with threads := machine.threads ++ [thread] } other =
      if other = machine.threads.length then some thread.place else machine.place? other := by
  simp only [place?, List.getElem?_append]
  split
  next inside => rw [if_neg (Nat.ne_of_lt inside)]
  next outside =>
    by_cases last : other = machine.threads.length
    · simp [last]
    · have beyond : machine.threads.length < other :=
        Nat.lt_of_le_of_ne (Nat.le_of_not_lt outside) (Ne.symm last)
      have gap : ¬ other - machine.threads.length = 0 := by omega
      simp [last, Nat.le_of_lt beyond, gap]

theorem place?_length (machine : Machine ρ) : machine.place? machine.threads.length = none := by
  simp [place?]

theorem happen_cases (happened : machine.happen event = some after) :
    (∃ index move, event = .move index move ∧ machine.Steps index after move) ∨
      (∀ index move, event ≠ .move index move) ∧ after.holder = machine.holder ∧
        after.generation = machine.generation ∧
        ∃ fresh place, machine.place? fresh = none ∧ (place = .entering ∨ place = .signalling) ∧
          ∀ other, after.place? other = if other = fresh then some place else machine.place? other := by
  cases event with
  | call transform =>
    cases happened
    exact Or.inr ⟨by simp, rfl, rfl, _, .entering, machine.place?_length, Or.inl rfl,
      machine.append_place? _⟩
  | notify =>
    cases happened
    exact Or.inr ⟨by simp, rfl, rfl, _, .signalling, machine.place?_length, Or.inr rfl,
      machine.append_place? _⟩
  | move index move => exact Or.inl ⟨index, move, rfl, step_steps happened⟩

/-! What holds in every state. -/

structure Sound (machine : Machine ρ) : Prop where
  holder : ∀ index, machine.Inside index ↔ machine.holder = some index
  /-- A sleeper that the generation has left behind is about to be woken. -/
  heard : ∀ index seen, machine.place? index = some (.asleep seen) → seen ≠ machine.generation →
    ∃ other, machine.place? other = some .announcing

theorem Idle.sound (idle : machine.Idle) : machine.Sound := by
  have nobody (index : Nat) : machine.place? index = none := by simp [place?, idle.threads]
  refine ⟨fun index => ?_, fun index seen asleep => ?_⟩
  · simp [Inside, nobody, idle.holder]
  · simp [nobody] at asleep

/-- Whoever was about to wake the others still is, unless the thread that moved was. -/
private theorem announcing_lasts {place : Place} (there : machine.place? index = some place)
    (busy : place ≠ .announcing) {next : Place}
    (places : ∀ other, after.place? other =
      if other = index then some next else machine.place? other)
    (pending : ∃ other, machine.place? other = some .announcing) :
    ∃ other, after.place? other = some .announcing := by
  obtain ⟨other, announcing⟩ := pending
  have apart : other ≠ index := by
    rintro rfl
    exact busy (Option.some.inj (there.symm.trans announcing))
  exact ⟨other, by rw [places, if_neg apart, announcing]⟩

private theorem Sound.holder_step (sound : machine.Sound) (steps : machine.Steps index after move)
    (other : Nat) : after.Inside other ↔ after.holder = some other := by
  have wakes (place : Option Place) : place.map Place.wake = some .inside ↔ place = some .inside := by
    cases place with
    | none => simp
    | some place => cases place <;> simp [Place.wake]
  have outside {place : Place} (there : machine.place? index = some place)
      (apart : place ≠ .inside) : machine.holder ≠ some index := by
    intro holds
    have inside := (sound.holder index).mpr holds
    exact apart (Option.some.inj (there.symm.trans inside))
  have others := sound.holder other
  simp only [Inside] at others ⊢
  cases steps with
  | enter there free holder generation places =>
    rw [places, holder]
    split
    next same => simp [same]
    next apart => simp [others, free, Ne.symm apart]
  | rise there moved free holder generation places =>
    rw [places, holder]
    split
    next same => simp [same]
    next apart => simp [others, free, Ne.symm apart]
  | @leave next there ends holder generation places =>
    rw [places, holder]
    split
    next same => rcases ends with ⟨fault, rfl⟩ | rfl <;> simp
    next apart =>
      have held : machine.holder = some index := (sound.holder index).mp there
      have away : machine.place? other ≠ some .inside := by
        intro inside
        exact apart (Option.some.inj ((others.mp inside).symm.trans held))
      simp only [beside, reduceCtorEq, iff_false]
      split
      · exact fun woken => away ((wakes _).mp woken)
      · exact away
  | stir there holder generation places =>
    rw [places, holder]
    split
    next same => simp [same, outside there (by simp)]
    · exact others
  | doze there holder generation places =>
    rw [places, holder]
    split
    next same => simp [same, outside there (by simp)]
    · exact others
  | signal there free holder generation places =>
    rw [places, holder]
    split
    next same => simp
    · rw [others, free]
  | announce there holder generation places =>
    rw [places, holder]
    split
    next same => simp [same, outside there (by simp)]
    · rw [wakes, others]

private theorem Sound.heard_step (sound : machine.Sound) (steps : machine.Steps index after move)
    (other seen : Nat) (asleep : after.place? other = some (.asleep seen))
    (missed : seen ≠ after.generation) : ∃ rival, after.place? rival = some .announcing := by
  have wakes (place : Option Place) : place.map Place.wake ≠ some (.asleep seen) := by
    cases place with
    | none => simp
    | some place => cases place <;> simp [Place.wake]
  -- a move that neither signals nor wakes leaves whoever was to be woken
  have lasts {place next : Place} (there : machine.place? index = some place)
      (busy : place ≠ .announcing) (calm : next = .asleep seen → seen = after.generation)
      (generation : after.generation = machine.generation)
      (places : ∀ other, after.place? other =
        if other = index then some next else machine.place? other) :
      ∃ rival, after.place? rival = some .announcing := by
    rw [places] at asleep
    split at asleep
    · exact absurd (calm (Option.some.inj asleep)) missed
    · exact announcing_lasts there busy places (sound.heard other seen asleep (generation ▸ missed))
  cases steps with
  | enter there free holder generation places =>
    exact lasts there (by simp) (by simp) generation places
  | rise there moved free holder generation places =>
    exact lasts there (by simp) (by simp) generation places
  | stir there holder generation places =>
    exact lasts there (by simp) (by simp) generation places
  | doze there holder generation places =>
    refine lasts there (by simp) ?_ generation places
    intro same
    cases same
    exact generation.symm
  | signal there free holder generation places => exact ⟨index, by rw [places, if_pos rfl]⟩
  | announce there holder generation places =>
    rw [places] at asleep
    split at asleep
    · cases asleep
    · exact absurd asleep (wakes _)
  | @leave next there ends holder generation places =>
    cases signals : machine.signals index .leave with
    | true =>
      rw [places, signals] at asleep
      split at asleep
      · rcases ends with ⟨fault, rfl⟩ | rfl
        · cases asleep
        · cases asleep
          exact absurd rfl missed
      · exact absurd asleep (wakes _)
    | false =>
      simp only [signals, Bool.false_eq_true, if_false] at generation
      simp only [signals, beside, Bool.false_eq_true, if_false] at places
      refine lasts there (by simp) ?_ generation places
      intro same
      rcases ends with ⟨fault, rfl⟩ | rfl
      · cases same
      · cases same
        rfl

theorem Sound.happen (sound : machine.Sound) (happened : machine.happen event = some after) :
    after.Sound := by
  rcases happen_cases happened with
    ⟨index, move, rfl, steps⟩ | ⟨_, holder, generation, fresh, place, unknown, kind, places⟩
  · exact ⟨sound.holder_step steps, sound.heard_step steps⟩
  · refine ⟨fun other => ?_, fun other seen asleep missed => ?_⟩
    · rw [holder, ← sound.holder, Inside, Inside, places]
      split
      next same => rcases kind with rfl | rfl <;> simp [same, unknown]
      · rfl
    · rw [places] at asleep
      split at asleep
      · rcases kind with rfl | rfl <;> cases asleep
      · obtain ⟨rival, announcing⟩ := sound.heard other seen asleep (generation ▸ missed)
        refine ⟨rival, ?_⟩
        rw [places, if_neg, announcing]
        rintro rfl
        simp [unknown] at announcing

theorem Sound.play (sound : machine.Sound) (ran : machine.play events = some after) :
    after.Sound := by
  induction events generalizing machine with
  | nil =>
    cases ran
    exact sound
  | cons event rest ih =>
    obtain ⟨next, happened, ran⟩ := Option.bind_eq_some_iff.mp ran
    exact ih (sound.happen happened) ran

/-! Waiting for a signal. -/

/-- The thread has seen the generation that there is. -/
structure Rests (machine : Machine ρ) (index seen : Nat) : Prop where
  current : machine.generation = seen
  place : machine.place? index = some (.asleep seen) ∨ machine.place? index = some (.awake seen)

def SignalsBeside (machine : Machine ρ) (index : Nat) : Event ρ → Prop
  | .move other move => other ≠ index ∧ machine.signals other move = true
  | .call _ | .notify => False

/-- Among these events is a signal of somebody other than the thread. -/
def Signaled (machine : Machine ρ) (index : Nat) (events : List (Event ρ)) : Prop :=
  ∃ earlier event later middle, events = earlier ++ event :: later ∧
    machine.play earlier = some middle ∧ middle.SignalsBeside index event

private theorem Rests.happen (rests : machine.Rests index seen)
    (happened : machine.happen event = some after) (unheard : ¬ machine.SignalsBeside index event) :
    after.Rests index seen := by
  obtain ⟨current, place⟩ := rests
  have stays {rival : Nat} {next : Place} (apart : rival ≠ index)
      (generation : after.generation = machine.generation)
      (places : ∀ other, after.place? other =
        if other = rival then some next else machine.place? other) : after.Rests index seen :=
    ⟨generation.trans current, by rw [places, if_neg (Ne.symm apart)]; exact place⟩
  rcases happen_cases happened with
    ⟨rival, move, rfl, steps⟩ | ⟨_, holder, generation, fresh, kind, unknown, _, places⟩
  · by_cases own : rival = index
    · subst own
      cases steps with
      | enter there | leave there | signal there | announce there =>
        rcases place with place | place <;> simp [there] at place
      | @stir again there holder generation places =>
        have same : again = seen := by
          rcases place with place | place <;> simp [there] at place
          exact place
        exact ⟨generation.trans current, Or.inr (by rw [places, if_pos rfl, same])⟩
      | doze there holder generation places =>
        exact ⟨generation.trans current, Or.inl (by rw [places, if_pos rfl, current])⟩
      | @rise again there moved =>
        rcases place with place | place <;> simp [there] at place
        exact absurd (place.trans current.symm) moved
    · have quiet : machine.signals rival move = false := by
        simpa [SignalsBeside, own] using unheard
      cases steps with
      | enter there free holder generation places => exact stays own generation places
      | rise there moved free holder generation places => exact stays own generation places
      | stir there holder generation places => exact stays own generation places
      | doze there holder generation places => exact stays own generation places
      | signal => cases quiet
      | leave there ends holder generation places =>
        simp only [quiet, Bool.false_eq_true, if_false, beside] at generation places
        exact stays own generation places
      | announce there holder generation places =>
        refine ⟨generation.trans current, ?_⟩
        rw [places, if_neg (Ne.symm own)]
        rcases place with place | place <;> simp [place, Place.wake]
  · refine stays ?_ generation places
    rintro rfl
    rcases place with place | place <;> simp [unknown] at place

/-- As long as nobody else signals, the thread rests. -/
theorem Rests.play (rests : machine.Rests index seen) (ran : machine.play events = some after) :
    after.Rests index seen ∨ machine.Signaled index events := by
  induction events generalizing machine with
  | nil =>
    cases ran
    exact Or.inl rests
  | cons event rest ih =>
    obtain ⟨next, happened, ran⟩ := Option.bind_eq_some_iff.mp ran
    by_cases heard : machine.SignalsBeside index event
    · exact Or.inr ⟨[], event, rest, machine, rfl, rfl, heard⟩
    · rcases ih (rests.happen happened heard) ran with still | signaled
      · exact Or.inl still
      · obtain ⟨earlier, signal, later, middle, rfl, played, heard⟩ := signaled
        exact Or.inr ⟨event :: earlier, signal, later, middle, rfl,
          Option.bind_eq_some_iff.mpr ⟨next, happened, played⟩, heard⟩

/-- A thread whose pass has just asked to run again rests. -/
theorem Steps.rests (steps : machine.Steps index after .leave)
    (asleep : after.place? index = some (.asleep seen)) : after.Rests index seen := by
  cases steps with
  | leave there ends holder generation places =>
    have next := asleep
    rw [places, if_pos rfl] at next
    rcases ends with ⟨fault, rfl⟩ | rfl
    · cases next
    · cases next
      exact ⟨rfl, Or.inl asleep⟩

theorem Rests.outside (rests : machine.Rests index seen)
    (stepped : machine.step index move = some after) : ¬ after.Inside index := by
  intro inside
  have unheard : ¬ machine.SignalsBeside index (.move index move) := fun heard => heard.1 rfl
  have still : after.Rests index seen :=
    rests.happen (show machine.happen (.move index move) = some after from stepped) unheard
  rcases still.place with place | place <;> simp [Inside, place] at inside

/-! Being woken. -/

theorem announce_wakes (asleep : machine.place? index = some (.asleep seen))
    (pending : machine.place? other = some .announcing) :
    ∃ woken, machine.step other .announce = some woken ∧
      woken.place? index = some (.awake seen) ∧ woken.generation = machine.generation := by
  obtain ⟨thread, found, announcing⟩ := Option.map_eq_some_iff.mp pending
  have apart : index ≠ other := by
    rintro rfl
    simp [asleep] at pending
  refine ⟨machine.wakeAll.moveTo other (.gone none), by simp only [step, found, announcing], ?_, rfl⟩
  rw [moveTo_place?, if_neg apart, wakeAll_place?, asleep]
  rfl

theorem look_enters (awake : machine.place? index = some (.awake seen))
    (moved : seen ≠ machine.generation) (free : machine.holder = none) :
    ∃ again, machine.step index .look = some again ∧ again.Inside index := by
  obtain ⟨thread, found, place⟩ := Option.map_eq_some_iff.mp awake
  refine ⟨{ machine.moveTo index .inside with holder := some index },
    by simp only [step, found, place, free, moved, if_false], ?_⟩
  have inside := moveTo_place? machine index index .inside
  rw [if_pos rfl, awake] at inside
  exact inside

/-- Whatever the transforms are, however many threads come, in whatever order they
move and whenever they wake up for no reason: no two threads are inside; a thread whose
pass asked to run again comes inside again only after a signal that somebody else gave
since; and a sleeper that has not seen the generation that there is will be woken by a
thread that is about to wake all, and then comes inside as soon as the gate is free. -/
theorem alone_inside_and_woken (idle : start.Idle) (ran : start.play events = some machine) :
    (∀ one other, machine.Inside one → machine.Inside other → other = one) ∧
      (∀ index seen between middle late move again, machine.step index .leave = some between →
        between.place? index = some (.asleep seen) → between.play middle = some late →
        late.step index move = some again → again.Inside index →
        between.Signaled index middle) ∧
      ∀ index seen, machine.place? index = some (.asleep seen) → seen ≠ machine.generation →
        ∃ other woken, machine.place? other = some .announcing ∧
          machine.step other .announce = some woken ∧ woken.place? index = some (.awake seen) ∧
          (woken.holder = none → ∃ again, woken.step index .look = some again ∧
            again.Inside index) := by
  have sound := idle.sound.play ran
  refine ⟨fun one other first second => ?_, ?_, ?_⟩
  · have holds := (sound.holder one).mp first
    exact (Option.some.inj (holds.symm.trans ((sound.holder other).mp second))).symm
  · intro index seen between middle late move again left asleep played stepped inside
    rcases ((step_steps left).rests asleep).play played with rests | signaled
    · exact absurd inside (rests.outside stepped)
    · exact signaled
  · intro index seen asleep missed
    obtain ⟨other, pending⟩ := sound.heard index seen asleep missed
    obtain ⟨woken, announced, awake, generation⟩ := announce_wakes asleep pending
    exact ⟨other, woken, pending, announced, awake, look_enters awake (generation ▸ missed)⟩

private def patient : Transform Unit := fun earlier shared pass =>
  { ending := if earlier = 0 then .retry else .finished (), shared, pass }

private def lobby : Machine Unit := { shared := () }

private theorem lobby_idle : lobby.Idle := ⟨rfl, rfl⟩

private def arrivals : List (Event Unit) := [.call patient, .notify, .move 0 .enter]

private def bell : List (Event Unit) := [.move 1 .signal, .move 1 .announce]

theorem bell_wakes : ∃ between late again : Machine Unit,
    ((lobby.play arrivals).bind (·.step 0 .leave)) = some between ∧
      between.place? 0 = some (.asleep 0) ∧ between.play bell = some late ∧
      late.step 0 .look = some again ∧ again.Inside 0 ∧ between.Signaled 0 bell ∧
      ∃ rung, between.play [.move 1 .signal] = some rung ∧ rung.place? 0 = some (.asleep 0) ∧
        ∃ other woken, rung.place? other = some .announcing ∧
          rung.step other .announce = some woken ∧ woken.place? 0 = some (.awake 0) := by
  have runs : ((lobby.play arrivals).bind fun before => (before.step 0 .leave).bind fun between =>
      (between.play bell).bind fun late => (late.step 0 .look).map fun again =>
        (between.place? 0, again.place? 0)) = some (some (.asleep 0), some .inside) := by decide
  have rings : ((lobby.play (arrivals ++ [.move 0 .leave, .move 1 .signal])).map fun rung =>
      (rung.place? 0, rung.generation)) = some (some (.asleep 0), 1) := by decide
  obtain ⟨before, ran, runs⟩ := Option.bind_eq_some_iff.mp runs
  obtain ⟨between, left, runs⟩ := Option.bind_eq_some_iff.mp runs
  obtain ⟨late, played, runs⟩ := Option.bind_eq_some_iff.mp runs
  obtain ⟨again, looked, runs⟩ := Option.map_eq_some_iff.mp runs
  obtain ⟨asleep, inside⟩ := Prod.mk.inj runs
  obtain ⟨rung, sounded, rings⟩ := Option.map_eq_some_iff.mp rings
  obtain ⟨sleeps, generation⟩ := Prod.mk.inj rings
  obtain ⟨_, waits, _⟩ := alone_inside_and_woken lobby_idle ran
  obtain ⟨_, _, wakes⟩ := alone_inside_and_woken lobby_idle sounded
  obtain ⟨other, woken, pending, announced, awake, _⟩ := wakes 0 0 sleeps (by simp [generation])
  have known : lobby.play (arrivals ++ [.move 0 .leave, .move 1 .signal]) =
      ((lobby.play arrivals).bind (·.step 0 .leave)).bind (·.play [.move 1 .signal]) := rfl
  have path : ((lobby.play arrivals).bind (·.step 0 .leave)) = some between := by
    rw [ran, Option.bind_some, left]
  rw [known, path, Option.bind_some] at sounded
  exact ⟨between, late, again, path, asleep, played, looked, inside,
    waits 0 0 between bell late .look again left asleep played looked inside, rung, sounded, sleeps,
    other, woken, pending, announced, awake⟩

end Machine
end Foreman.Gate
