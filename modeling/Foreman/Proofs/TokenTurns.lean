import Foreman.Cancel.Callback

/-! Threads at one cancellation token. They may begin at any time, and take their steps
in any order. Every step works on the top of one thread's stack; what it can be is said
once, for all that is proved of the token. -/

namespace Foreman.Cancel

inductive Act where
  | spawn (commands : List Command)
  | step (index : Nat)

variable {token : Token Registration} {serials index other : Nat} {frame : Frame}
  {stack : List Frame} {advance : Advance} {machine middle after : Machine}
  {acts earlier later : List Act} {event : Event}

/-- The frame has this registration to run next, and what is left of the frame then. -/
inductive Frame.Hands (registration : Registration) : Frame → List Frame → Prop
  | deliver (id : Nat) (rest : List (Nat × Registration)) :
    Frame.Hands registration (.deliver ((id, registration) :: rest)) [.deliver rest]
  | inline : Frame.Hands registration (.inline registration) []

def Event.IsNote : Event → Prop
  | .logged _ | .observed _ => True
  | _ => False

/-- What the next step of a thread can be, by the frame on top of its stack. -/
inductive Deed (token : Token Registration) (serials : Nat) (stack : List Frame) :
    Frame → Advance → Prop
  | close {frame : Frame} (empty : frame = .body [] ∨ frame = .deliver []) :
    Deed token serials stack frame { token, thread := { stack }, serials }
  | answer (id : Nat) :
    Deed token serials stack (.answer id)
      { token, thread := { stack }, serials, events := [.answered id] }
  | note (command : Command) (rest : List Command) (events : List Event)
      (notes : ∀ event ∈ events, event.IsNote) :
    Deed token serials stack (.body (command :: rest))
      { token, thread := { stack := .body rest :: stack }, serials, events }
  | fall (command : Command) (rest : List Command) (fault : Fault)
      (harsh : command = .check ∨ command = .throw fault) :
    Deed token serials stack (.body (command :: rest))
      { token, thread := { fault := some fault }, serials }
  | raise (rest : List Command) (free : token.canceled = false) :
    Deed token serials stack (.body (.request :: rest))
      { token := { token with canceled := true }
        thread := { stack := .take :: .body rest :: stack }, serials, events := [.raised] }
  | remove (id : Nat) (rest : List Command) :
    Deed token serials stack (.body (.remove id :: rest))
      { token := token.remove id, thread := { stack := .body rest :: stack }, serials
        events := [.removed id] }
  | enroll (callback : Callback) (rest : List Command) (free : token.canceled = false) :
    Deed token serials stack (.body (.on callback :: rest))
      { token :=
          { token with
            nextId := token.nextId + 1
            callbacks := token.callbacks ++ [(token.nextId, { serial := serials, callback })] }
        thread := { stack := .body rest :: stack }, serials := serials + 1
        events := [.enrolled serials token.nextId, .answered token.nextId] }
  | late (callback : Callback) (rest : List Command) (canceled : token.canceled = true) :
    Deed token serials stack (.body (.on callback :: rest))
      { token
        thread :=
          { stack := .inline { serial := serials, callback } :: .answer 0 :: .body rest :: stack }
        serials := serials + 1 }
  | take :
    Deed token serials stack .take
      { token := { token with callbacks := [] }
        thread := { stack := .deliver token.callbacks :: stack }, serials, events := [.taken] }
  | invoke {frame : Frame} {left : List Frame} (registration : Registration) (body : List Command)
      (hands : frame.Hands registration left) (code : registration.callback = some body) :
    Deed token serials stack frame
      { token, thread := { stack := .body body :: (left ++ stack) }, serials
        events := [.invoked registration.serial] }
  | pass {frame : Frame} {left : List Frame} (registration : Registration)
      (hands : frame.Hands registration left) (blank : registration.callback = none) :
    Deed token serials stack frame { token, thread := { stack := left ++ stack }, serials }

theorem Command.advance_deed (command : Command) (token : Token Registration) (serials : Nat)
    (rest : List Command) (stack : List Frame) :
    Deed token serials stack (.body (command :: rest))
      (command.advance token serials rest stack) := by
  cases command with
  | log text => exact .note _ rest _ (by simp [Event.IsNote])
  | state => exact .note _ rest _ (by simp [Event.IsNote])
  | remove id => exact .remove id rest
  | throw fault => exact .fall _ rest fault (Or.inr rfl)
  | request =>
    obtain ⟨canceled, nextId, callbacks⟩ := token
    cases canceled with
    | true => exact .note _ rest [] (by simp)
    | false => exact .raise rest rfl
  | on callback =>
    obtain ⟨canceled, nextId, callbacks⟩ := token
    cases canceled with
    | true => exact .late callback rest rfl
    | false => exact .enroll callback rest rfl
  | check =>
    simp only [advance]
    split
    · exact .fall _ rest _ (Or.inl rfl)
    · exact .note _ rest [] (by simp)

theorem Registration.invoke_deed {registration : Registration} {left : List Frame}
    (hands : frame.Hands registration left) :
    Deed token serials stack frame (registration.invoke token serials (left ++ stack)) := by
  unfold Registration.invoke
  split
  next blank => exact .pass registration hands blank
  next body code => exact .invoke registration body hands code

theorem Frame.advance_deed (frame : Frame) (token : Token Registration) (serials : Nat)
    (stack : List Frame) :
    Deed token serials stack frame (frame.advance token serials stack) := by
  cases frame with
  | body rest =>
    cases rest with
    | nil => exact .close (Or.inl rfl)
    | cons command rest => exact command.advance_deed token serials rest stack
  | take => exact .take
  | deliver rest =>
    cases rest with
    | nil => exact .close (Or.inr rfl)
    | cons entry rest => exact Registration.invoke_deed (.deliver entry.1 rest)
  | inline registration => exact Registration.invoke_deed .inline
  | answer id => exact .answer id

namespace Machine

def stack? (machine : Machine) (index : Nat) : Option (List Frame) :=
  machine.threads[index]?.map (·.stack)

def follow (machine : Machine) (index : Nat) (advance : Advance) : Machine :=
  { token := advance.token
    threads := machine.threads.set index advance.thread
    serials := advance.serials
    history := machine.history ++ advance.events }

theorem step_follow (there : machine.stack? index = some (frame :: stack)) :
    machine.step index =
      some (machine.follow index (frame.advance machine.token machine.serials stack)) := by
  obtain ⟨⟨_, fault⟩, present, rfl⟩ := Option.map_eq_some_iff.mp there
  rw [step, present]
  rfl

theorem step_deed (stepped : machine.step index = some after) :
    ∃ frame stack advance, machine.stack? index = some (frame :: stack) ∧
      Deed machine.token machine.serials stack frame advance ∧
      after = machine.follow index advance := by
  unfold step at stepped
  split at stepped
  next frame stack fault held =>
    refine ⟨frame, stack, _, ?_, frame.advance_deed _ _ _, (Option.some.inj stepped).symm⟩
    rw [stack?, held, Option.map_some]
  · cases stepped

theorem follow_stack? (there : machine.stack? index = some stack) (other : Nat) :
    (machine.follow index advance).stack? other =
      if other = index then some advance.thread.stack else machine.stack? other := by
  obtain ⟨thread, present, _⟩ := Option.map_eq_some_iff.mp there
  obtain ⟨inside, _⟩ := List.getElem?_eq_some_iff.mp present
  simp only [stack?, follow, List.getElem?_set]
  by_cases own : index = other
  · subst own
    simp [inside]
  · simp [own, Ne.symm own]

theorem follow_history : event ∈ (machine.follow index advance).history ↔
    event ∈ machine.history ∨ event ∈ advance.events := List.mem_append

theorem spawn_stack? {commands : List Command}
    (there : (machine.spawn commands).stack? index = some stack) :
    machine.stack? index = some stack ∨ stack = [.body commands] := by
  simp only [stack?, spawn, List.getElem?_append] at there
  split at there
  · exact Or.inl there
  · obtain ⟨thread, present, rfl⟩ := Option.map_eq_some_iff.mp there
    rw [List.mem_singleton.mp (List.mem_of_getElem? present)]
    exact Or.inr rfl

theorem stack?_spawn {commands : List Command} (there : machine.stack? index = some stack) :
    (machine.spawn commands).stack? index = some stack := by
  obtain ⟨thread, present, rfl⟩ := Option.map_eq_some_iff.mp there
  obtain ⟨inside, _⟩ := List.getElem?_eq_some_iff.mp present
  rw [stack?, spawn, List.getElem?_append_left inside, present, Option.map_some]

def act (machine : Machine) : Act → Option Machine
  | .spawn commands => some (machine.spawn commands)
  | .step index => machine.step index

def play (machine : Machine) : List Act → Option Machine
  | [] => some machine
  | act :: rest => (machine.act act).bind (·.play rest)

/-- What happens during the acts, oldest first, each with the thread whose step it was. -/
def journal (machine : Machine) : List Act → List (Nat × Event)
  | [] => []
  | .spawn commands :: rest => (machine.spawn commands).journal rest
  | .step index :: rest =>
    match machine.step index with
    | none => []
    | some after =>
      (after.history.drop machine.history.length).map (index, ·) ++ after.journal rest

/-- The threads that brought the event about, once for every time. -/
def doers (acts : List Act) (event : Event) : List Nat :=
  ((journal {} acts).filter (·.2 = event)).map (·.1)

theorem play_append (machine : Machine) (earlier later : List Act) :
    machine.play (earlier ++ later) = (machine.play earlier).bind (·.play later) := by
  induction earlier generalizing machine with
  | nil => rfl
  | cons act rest ih =>
    rw [List.cons_append, play, play]
    cases machine.act act with
    | none => rfl
    | some next => exact ih next

theorem play_splits (played : machine.play (earlier ++ .step index :: later) = some after)
    (first : machine.play earlier = some middle) :
    ∃ next, middle.step index = some next ∧ next.play later = some after := by
  rw [play_append, first] at played
  exact Option.bind_eq_some_iff.mp played

theorem play_history (played : machine.play acts = some after) (told : event ∈ machine.history) :
    event ∈ after.history := by
  induction acts generalizing machine with
  | nil =>
    cases played
    exact told
  | cons act rest ih =>
    obtain ⟨next, acted, goes⟩ := Option.bind_eq_some_iff.mp played
    cases act with
    | spawn commands =>
      cases acted
      exact ih goes told
    | step index =>
      obtain ⟨_, _, _, _, _, rfl⟩ := step_deed acted
      exact ih goes (follow_history.mpr (Or.inl told))

theorem journal_append (played : machine.play earlier = some middle) (later : List Act) :
    machine.journal (earlier ++ later) = machine.journal earlier ++ middle.journal later := by
  induction earlier generalizing machine with
  | nil =>
    cases played
    rfl
  | cons act rest ih =>
    obtain ⟨next, acted, goes⟩ := Option.bind_eq_some_iff.mp played
    cases act with
    | spawn commands =>
      cases acted
      exact ih goes
    | step index =>
      have stepped : machine.step index = some next := acted
      simp only [List.cons_append, journal, stepped, ih goes, List.append_assoc]

/-- The machine as these acts leave it, act by act. -/
inductive Reached : List Act → Machine → Prop
  | start : Reached [] {}
  | spawn {acts : List Act} {machine : Machine} (reached : Reached acts machine)
      (commands : List Command) : Reached (acts ++ [.spawn commands]) (machine.spawn commands)
  | step {acts : List Act} {machine after : Machine} (reached : Reached acts machine)
      (index : Nat) (stepped : machine.step index = some after) :
    Reached (acts ++ [.step index]) after

theorem Reached.play (reached : Reached acts machine) : Machine.play {} acts = some machine := by
  induction reached with
  | start => rfl
  | spawn reached commands ih =>
    rw [play_append, ih]
    rfl
  | step reached index stepped ih =>
    rw [play_append, ih, Option.bind_some, Machine.play, act, stepped, Option.bind_some, Machine.play]

theorem Reached.extend (reached : Reached earlier machine) (played : machine.play later = some after) :
    Reached (earlier ++ later) after := by
  induction later generalizing earlier machine with
  | nil =>
    cases played
    rwa [List.append_nil]
  | cons act rest ih =>
    obtain ⟨next, acted, goes⟩ := Option.bind_eq_some_iff.mp played
    rw [List.append_cons]
    cases act with
    | spawn commands =>
      cases acted
      exact ih (reached.spawn commands) goes
    | step index => exact ih (reached.step index acted) goes

theorem play_reached (played : Machine.play {} acts = some machine) : Reached acts machine :=
  Reached.start.extend played

section

variable (reached : Reached acts machine)
include reached

theorem Reached.doers_spawn (commands : List Command) (event : Event) :
    doers (acts ++ [.spawn commands]) event = doers acts event := by
  rw [doers, journal_append reached.play]
  simp only [journal, List.append_nil]
  rfl

theorem Reached.doers_step (stepped : machine.step index = some (machine.follow index advance))
    (event : Event) : doers (acts ++ [.step index]) event =
      doers acts event ++ List.replicate (advance.events.count event) index := by
  have own : machine.journal [.step index] = advance.events.map (index, ·) := by
    simp [journal, stepped, follow]
  have told (events : List Event) : ((events.map (index, ·)).filter (·.2 = event)).map (·.1) =
      List.replicate (events.count event) index := by
    rw [List.filter_map, List.map_map, List.count_eq_length_filter]
    exact List.map_const' ..
  rw [doers, journal_append reached.play, own, List.filter_append, List.map_append, told]
  rfl

theorem Reached.mem_doers_step
    (stepped : machine.step index = some (machine.follow index advance)) :
    other ∈ doers (acts ++ [.step index]) event ↔
      other ∈ doers acts event ∨ other = index ∧ event ∈ advance.events := by
  have occurs : advance.events.count event ≠ 0 ↔ event ∈ advance.events := by
    rw [← Nat.pos_iff_ne_zero, List.count_pos_iff]
  rw [reached.doers_step stepped, List.mem_append, List.mem_replicate, occurs, and_comm (b := _ ∈ _)]

theorem Reached.doers_length (event : Event) :
    (doers acts event).length = machine.history.count event := by
  induction reached with
  | start => rfl
  | spawn reached commands ih => rw [reached.doers_spawn, ih, Machine.spawn]
  | step reached index stepped ih =>
    obtain ⟨_, _, advance, _, _, rfl⟩ := step_deed stepped
    rw [reached.doers_step stepped, List.length_append, List.length_replicate, ih, follow,
      List.count_append]

theorem Reached.doers_mono (did : index ∈ doers acts event) (later : List Act) :
    index ∈ doers (acts ++ later) event := by
  rw [doers, journal_append reached.play, List.filter_append, List.map_append]
  exact List.mem_append_left _ did

/-- An event that happens once at most has one doer. -/
theorem Reached.doer (did : index ∈ doers acts event) (once : machine.history.count event ≤ 1) :
    doers acts event = [index] := by
  rw [← reached.doers_length] at once
  obtain ⟨only, single⟩ :=
    List.length_eq_one_iff.mp (Nat.le_antisymm once (List.length_pos_of_mem did))
  rw [single] at did
  rw [single, List.mem_singleton.mp did]

end
end Machine
end Foreman.Cancel
