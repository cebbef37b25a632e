import Foreman.Proofs.TokenTurns

/-! Accounts of the callbacks of a token. A registered callback is kept by the token, is
underway to be invoked by a thread, or was invoked, and it is all this once at most,
whatever order the threads take their steps in. -/

namespace Foreman.Cancel

variable {token : Token Registration} {serials serial index id other : Nat} {frame : Frame}
  {stack : List Frame} {advance : Advance} {machine : Machine} {acts : List Act}
  {history events : List Event}

/-- The serial of the registration, if there is code to invoke. -/
def Registration.due (registration : Registration) : Option Nat :=
  registration.callback.map fun _ => registration.serial

def callbacksDue (callbacks : List (Nat × Registration)) : List Nat :=
  callbacks.filterMap (·.2.due)

def Frame.due : Frame → List Nat
  | .deliver rest => callbacksDue rest
  | .inline registration => registration.due.toList
  | .body _ | .take | .answer _ => []

def stackDue (stack : List Frame) : List Nat := stack.flatMap Frame.due

def idsGiven (history : List Event) : List Nat :=
  history.filterMap fun
    | .enrolled _ id => some id
    | _ => none

/-- The callback of this serial was registered, and removed by its id, before the
callbacks were taken. -/
def RemovedInTime (history : List Event) (serial : Nat) : Prop :=
  ∃ earlier id later, history = earlier ++ .removed id :: later ∧
    .enrolled serial id ∈ earlier ∧ .taken ∉ earlier

theorem Registration.count_due (registration : Registration) (serial : Nat) :
    registration.due.toList.count serial ≤ if serial = registration.serial then 1 else 0 := by
  unfold Registration.due
  cases registration.callback with
  | none => exact Nat.zero_le _
  | some body =>
    rw [Option.map_some, Option.toList_some, List.count_singleton]
    by_cases same : serial = registration.serial <;> simp [same, Ne.symm]

theorem Frame.Hands.due {registration : Registration} {left : List Frame}
    (hands : frame.Hands registration left) (stack : List Frame) :
    stackDue (frame :: stack) = registration.due.toList ++ stackDue (left ++ stack) := by
  cases hands with
  | inline => rfl
  | deliver id rest => cases code : registration.due <;> simp [stackDue, Frame.due, callbacksDue, code]

theorem RemovedInTime.grow (removed : RemovedInTime history serial) (events : List Event) :
    RemovedInTime (history ++ events) serial := by
  obtain ⟨earlier, id, later, rfl, enrolled, untaken⟩ := removed
  exact ⟨earlier, id, later ++ events, by simp, enrolled, untaken⟩

/-- A removal in time is an old one, or is among the new events. -/
theorem RemovedInTime.new (removed : RemovedInTime (history ++ events) serial) :
    RemovedInTime history serial ∨ ∃ between id later, events = between ++ .removed id :: later ∧
      .enrolled serial id ∈ history ++ between ∧ .taken ∉ history ++ between := by
  obtain ⟨earlier, id, later, split, enrolled, untaken⟩ := removed
  rcases List.append_eq_append_iff.mp split with ⟨between, rfl, rest⟩ | ⟨between, rfl, rest⟩
  · exact Or.inr ⟨between, id, later, rest, enrolled, untaken⟩
  · cases between with
    | nil =>
      refine Or.inr ⟨[], id, later, rest.symm, ?_, ?_⟩
      · simpa using enrolled
      · simpa using untaken
    | cons first between =>
      obtain ⟨rfl, rfl⟩ := List.cons.inj rest
      exact Or.inl ⟨earlier, id, between, rfl, enrolled, untaken⟩

def Event.Tells : Event → Prop
  | .enrolled .. | .taken | .invoked _ | .removed _ => True
  | .logged _ | .observed _ | .raised | .answered _ => False

theorem silent_count (silent : ∀ event ∈ events, ¬ event.Tells) (serial : Nat) :
    events.count (.invoked serial) = 0 :=
  List.count_eq_zero.mpr fun member => silent _ member trivial

theorem invoked_count (number serial : Nat) :
    [Event.invoked number].count (.invoked serial) = if number == serial then 1 else 0 := by
  simp [List.count_singleton]

/-- What a step does to the callbacks that the token keeps and to those that the thread
is to invoke. -/
inductive Moves (token : Token Registration) (serials : Nat) (due : List Nat) (advance : Advance) :
    Prop where
  | still (kept : advance.token.callbacks = token.callbacks) (ids : advance.token.nextId = token.nextId)
      (stays : stackDue advance.thread.stack = due) (known : advance.serials = serials)
      (silent : ∀ event ∈ advance.events, ¬ event.Tells)
  | enroll (callback : Callback)
      (kept : advance.token.callbacks =
        token.callbacks ++ [(token.nextId, { serial := serials, callback })])
      (ids : advance.token.nextId = token.nextId + 1)
      (stays : stackDue advance.thread.stack = due) (known : advance.serials = serials + 1)
      (events : advance.events = [.enrolled serials token.nextId, .answered token.nextId])
  | late (callback : Callback) (kept : advance.token = token)
      (stays : stackDue advance.thread.stack =
        (Registration.due { serial := serials, callback }).toList ++ due)
      (known : advance.serials = serials + 1) (events : advance.events = [])
  | take (kept : advance.token.callbacks = []) (ids : advance.token.nextId = token.nextId)
      (stays : stackDue advance.thread.stack = callbacksDue token.callbacks ++ due)
      (known : advance.serials = serials) (events : advance.events = [.taken])
  | invoke (serial : Nat) (kept : advance.token = token)
      (gives : due = serial :: stackDue advance.thread.stack)
      (known : advance.serials = serials) (events : advance.events = [.invoked serial])
  | remove (id : Nat) (kept : advance.token.callbacks = token.callbacks.filter (·.1 ≠ id))
      (ids : advance.token.nextId = token.nextId)
      (stays : stackDue advance.thread.stack = due) (known : advance.serials = serials)
      (events : advance.events = [.removed id])
  | fall (kept : advance.token = token) (fault : advance.thread.fault ≠ none)
      (stays : advance.thread.stack = []) (known : advance.serials = serials)
      (events : advance.events = [])

theorem Deed.moves (deed : Deed token serials stack frame advance) :
    Moves token serials (stackDue (frame :: stack)) advance := by
  cases deed with
  | close empty =>
    refine .still rfl rfl ?_ rfl (by simp)
    rcases empty with rfl | rfl <;> rfl
  | answer => exact .still rfl rfl rfl rfl (by simp [Event.Tells])
  | note command rest events notes =>
    refine .still rfl rfl rfl rfl fun event member tells => ?_
    have note := notes event member
    cases event <;> simp [Event.IsNote, Event.Tells] at note tells
  | raise => exact .still rfl rfl rfl rfl (by simp [Event.Tells])
  | fall => exact .fall rfl (by simp) rfl rfl rfl
  | remove id => exact .remove id rfl rfl rfl rfl rfl
  | enroll callback => exact .enroll callback rfl rfl rfl rfl rfl
  | late callback => exact .late callback rfl rfl rfl rfl
  | take => exact .take rfl rfl rfl rfl rfl
  | invoke registration body hands code =>
    refine .invoke registration.serial rfl ?_ rfl rfl
    rw [hands.due, Registration.due, code]
    rfl
  | pass registration hands blank =>
    refine .still rfl rfl ?_ rfl (by simp)
    rw [hands.due, Registration.due, blank]
    rfl

namespace Moves

variable {due : List Nat}

/-- A step adds nothing to what is to be invoked or was, but for the registration that it
asks for. -/
theorem load (moves : Moves token serials due advance) (serial : Nat) :
    (callbacksDue advance.token.callbacks).count serial +
        (stackDue advance.thread.stack).count serial + advance.events.count (.invoked serial) ≤
      (callbacksDue token.callbacks).count serial + due.count serial +
        if serial = serials then advance.serials - serials else 0 := by
  have asked (callback : Callback) :
      (Registration.due { serial := serials, callback }).toList.count serial ≤
        if serial = serials then 1 else 0 := Registration.count_due _ serial
  cases moves with
  | still kept ids stays known silent =>
    rw [kept, stays, silent_count silent]
    omega
  | enroll callback kept ids stays known events =>
    have asked := asked callback
    have more : callbacksDue advance.token.callbacks =
        callbacksDue token.callbacks ++ (Registration.due { serial := serials, callback }).toList := by
      rw [kept, callbacksDue, List.filterMap_append]
      rfl
    rw [more, stays, events, known, List.count_append, Nat.add_sub_cancel_left]
    simp
    omega
  | late callback kept stays known events =>
    have asked := asked callback
    rw [kept, stays, events, known, List.count_append, Nat.add_sub_cancel_left]
    simp
    omega
  | take kept ids stays known events =>
    rw [kept, stays, events, List.count_append]
    simp [callbacksDue]
  | invoke number kept gives known events =>
    rw [kept, events, invoked_count, gives, List.count_cons]
    omega
  | remove id kept ids stays known events =>
    have fewer : (callbacksDue advance.token.callbacks).count serial ≤
        (callbacksDue token.callbacks).count serial := by
      rw [kept]
      exact (List.filter_sublist.filterMap _).count_le serial
    rw [stays, events]
    simp
    omega
  | fall kept fault stays known events =>
    rw [kept, stays, events]
    simp [stackDue]
    omega

/-- Where no callbacks are taken, a thread comes to have no registration underway that
the token keeps. -/
theorem underway (moves : Moves token serials due advance) (untaken : .taken ∉ advance.events)
    (kept : serial ≠ serials ∨ ∃ id, .enrolled serial id ∈ advance.events) :
    (stackDue advance.thread.stack).count serial + advance.events.count (.invoked serial) ≤
      due.count serial := by
  cases moves with
  | still _ _ stays _ silent =>
    rw [stays, silent_count silent]
    omega
  | enroll _ _ _ stays _ events | remove _ _ _ stays _ events =>
    rw [stays, events]
    simp
  | late callback _ stays _ events =>
    have other : serial ≠ serials := kept.resolve_right (by simp [events])
    have asked := Registration.count_due { serial := serials, callback } serial
    rw [if_neg other] at asked
    rw [stays, events, List.count_append, List.count_nil]
    omega
  | take _ _ _ _ events => exact absurd (events ▸ List.mem_cons_self) untaken
  | invoke number _ gives _ events =>
    exact Nat.le_of_eq (by rw [events, invoked_count, gives, List.count_cons])
  | fall _ _ stays _ events =>
    rw [stays, events]
    exact Nat.zero_le _

theorem enrolled (moves : Moves token serials due advance)
    (enrolled : .enrolled serial id ∈ advance.events) :
    serial = serials ∧ id = token.nextId ∧ advance.serials = serials + 1 := by
  cases moves with
  | still _ _ _ _ silent => exact absurd trivial (silent _ enrolled)
  | enroll _ _ _ _ known events =>
    rw [events] at enrolled
    simp at enrolled
    exact ⟨enrolled.1, enrolled.2, known⟩
  | late _ _ _ _ events | take _ _ _ _ events | invoke _ _ _ _ events | remove _ _ _ _ _ events
  | fall _ _ _ _ events => simp [events] at enrolled

theorem removed (moves : Moves token serials due advance) (removed : .removed id ∈ advance.events) :
    advance.events = [.removed id] ∧ advance.token.callbacks = token.callbacks.filter (·.1 ≠ id) := by
  cases moves with
  | still _ _ _ _ silent => exact absurd trivial (silent _ removed)
  | remove other kept _ _ _ events =>
    rw [events, List.mem_singleton] at removed
    cases removed
    exact ⟨events, kept⟩
  | enroll _ _ _ _ _ events | late _ _ _ _ events | take _ _ _ _ events | invoke _ _ _ _ events
  | fall _ _ _ _ events => simp [events] at removed

theorem asks (moves : Moves token serials due advance) :
    serials ≤ advance.serials ∧ advance.serials ≤ serials + 1 := by
  cases moves <;> omega

theorem keeps {registration : Registration} (moves : Moves token serials due advance)
    (kept : (id, registration) ∈ advance.token.callbacks) :
    (id, registration) ∈ token.callbacks ∨ .enrolled registration.serial id ∈ advance.events := by
  cases moves with
  | still same => exact Or.inl (same ▸ kept)
  | enroll callback more _ _ _ events =>
    rw [more] at kept
    rcases List.mem_append.mp kept with old | new
    · exact Or.inl old
    · cases List.mem_singleton.mp new
      exact Or.inr (events ▸ List.mem_cons_self)
  | late _ same | invoke _ same | fall same => exact Or.inl (same ▸ kept)
  | take none => simp [none] at kept
  | remove _ fewer =>
    rw [fewer] at kept
    exact Or.inl (List.mem_filter.mp kept).1

theorem ids (moves : Moves token serials due advance) :
    idsGiven advance.events = [] ∧ advance.token.nextId = token.nextId ∨
      idsGiven advance.events = [token.nextId] ∧ advance.token.nextId = token.nextId + 1 := by
  cases moves with
  | still _ same _ _ silent =>
    refine Or.inl ⟨List.filterMap_eq_nil_iff.mpr fun event member => ?_, same⟩
    cases event with
    | enrolled => exact absurd trivial (silent _ member)
    | _ => rfl
  | enroll _ _ more _ _ events => exact Or.inr ⟨by rw [events]; rfl, more⟩
  | late _ same _ _ events | invoke _ same _ _ events | fall same _ _ _ events =>
    exact Or.inl ⟨by rw [events]; rfl, by rw [same]⟩
  | take _ same _ _ events | remove _ _ same _ _ events => exact Or.inl ⟨by rw [events]; rfl, same⟩

end Moves

namespace Machine

def kept (machine : Machine) : List Nat := callbacksDue machine.token.callbacks

def underway (machine : Machine) : List Nat := machine.threads.flatMap (stackDue ·.stack)

def load (machine : Machine) (serial : Nat) : Nat :=
  machine.kept.count serial + machine.underway.count serial + machine.history.count (.invoked serial)

private theorem count_flatMap_set {α : Type} {items : List α} {item : α}
    (found : items[index]? = some item) (dues : α → List Nat) (after : α) (serial : Nat) :
    ((items.set index after).flatMap dues).count serial + (dues item).count serial =
      (items.flatMap dues).count serial + (dues after).count serial := by
  induction items generalizing index with
  | nil => simp at found
  | cons first rest ih =>
    cases index with
    | zero =>
      cases found
      simp only [List.set_cons_zero, List.flatMap_cons, List.count_append]
      omega
    | succ index =>
      have := ih found
      simp only [List.set_cons_succ, List.flatMap_cons, List.count_append]
      omega

theorem follow_underway (there : machine.stack? index = some stack) (advance : Advance)
    (serial : Nat) :
    (machine.follow index advance).underway.count serial + (stackDue stack).count serial =
      machine.underway.count serial + (stackDue advance.thread.stack).count serial := by
  obtain ⟨thread, present, rfl⟩ := Option.map_eq_some_iff.mp there
  exact count_flatMap_set present (stackDue ·.stack) advance.thread serial

theorem spawn_underway (machine : Machine) (commands : List Command) :
    (machine.spawn commands).underway = machine.underway := by
  simp [underway, spawn, stackDue, Frame.due]

theorem spawn_load (machine : Machine) (commands : List Command) (serial : Nat) :
    (machine.spawn commands).load serial = machine.load serial := by
  rw [load, load, spawn_underway]
  rfl

/-- A step changes the load as it changes the callbacks that the token keeps and those
that the thread is to invoke. -/
theorem follow_load (there : machine.stack? index = some stack) (advance : Advance) (serial : Nat) :
    (machine.follow index advance).load serial +
        ((callbacksDue machine.token.callbacks).count serial + (stackDue stack).count serial) =
      machine.load serial + ((callbacksDue advance.token.callbacks).count serial +
        (stackDue advance.thread.stack).count serial + advance.events.count (.invoked serial)) := by
  have threads := follow_underway there advance serial
  have counted : (machine.follow index advance).load serial =
      (callbacksDue advance.token.callbacks).count serial +
        (machine.follow index advance).underway.count serial +
        (machine.history.count (.invoked serial) + advance.events.count (.invoked serial)) := by
    rw [load, follow, List.count_append]
    rfl
  rw [counted, load, kept]
  omega

section

variable (there : machine.stack? index = some (frame :: stack))
  (moves : Moves machine.token machine.serials (stackDue (frame :: stack)) advance)
include there moves

theorem load_follow (serial : Nat) : (machine.follow index advance).load serial ≤
    machine.load serial + if serial = machine.serials then advance.serials - machine.serials else 0 := by
  have change := follow_load there advance serial
  have total := moves.load serial
  omega

theorem underway_follow (untaken : .taken ∉ advance.events)
    (kept : serial ≠ machine.serials ∨ ∃ id, .enrolled serial id ∈ advance.events) :
    (machine.follow index advance).underway.count serial +
        (machine.follow index advance).history.count (.invoked serial) ≤
      machine.underway.count serial + machine.history.count (.invoked serial) := by
  have threads := follow_underway there advance serial
  have own := moves.underway untaken kept
  have counted : (machine.follow index advance).history.count (.invoked serial) =
      machine.history.count (.invoked serial) + advance.events.count (.invoked serial) :=
    List.count_append
  rw [counted]
  omega

end

/-- What the history tells of the registrations, and where they are. -/
structure Accounted (machine : Machine) : Prop where
  once : ∀ serial, machine.load serial ≤ if serial < machine.serials then 1 else 0
  enrolled : ∀ id registration, (id, registration) ∈ machine.token.callbacks →
    .enrolled registration.serial id ∈ machine.history
  known : ∀ serial id, .enrolled serial id ∈ machine.history → serial < machine.serials
  single : ∀ serial id other, .enrolled serial id ∈ machine.history →
    .enrolled serial other ∈ machine.history → id = other
  early : ∀ serial id, .enrolled serial id ∈ machine.history → .taken ∉ machine.history →
    machine.underway.count serial + machine.history.count (.invoked serial) = 0
  removed : ∀ serial, RemovedInTime machine.history serial → machine.load serial = 0
  ids : ∃ many, idsGiven machine.history = List.range' 1 many ∧ machine.token.nextId = many + 1

/-- Nothing is to be invoked under a serial that no registration has yet. -/
theorem Accounted.fresh (accounted : machine.Accounted) (unknown : machine.serials ≤ serial) :
    machine.load serial = 0 := by
  have once := accounted.once serial
  rw [if_neg (Nat.not_lt.mpr unknown)] at once
  exact Nat.le_zero.mp once

section

variable (accounted : machine.Accounted) (there : machine.stack? index = some (frame :: stack))
  (moves : Moves machine.token machine.serials (stackDue (frame :: stack)) advance)

include accounted moves

theorem Accounted.enrolled_follow {registration : Registration}
    (kept : (id, registration) ∈ (machine.follow index advance).token.callbacks) :
    .enrolled registration.serial id ∈ (machine.follow index advance).history :=
  follow_history.mpr ((moves.keeps kept).imp_left (accounted.enrolled id registration))

theorem Accounted.known_follow
    (enrolled : .enrolled serial id ∈ (machine.follow index advance).history) :
    serial < (machine.follow index advance).serials := by
  change serial < advance.serials
  rcases follow_history.mp enrolled with old | new
  · exact Nat.lt_of_lt_of_le (accounted.known serial id old) moves.asks.1
  · obtain ⟨rfl, _, more⟩ := moves.enrolled new
    omega

theorem Accounted.single_follow
    (enrolled : .enrolled serial id ∈ (machine.follow index advance).history)
    (again : .enrolled serial other ∈ (machine.follow index advance).history) : id = other := by
  rcases follow_history.mp enrolled with old | new <;> rcases follow_history.mp again with old' | new'
  · exact accounted.single serial id other old old'
  · exact absurd (moves.enrolled new').1 (Nat.ne_of_lt (accounted.known serial id old))
  · exact absurd (moves.enrolled new).1 (Nat.ne_of_lt (accounted.known serial other old'))
  · exact (moves.enrolled new).2.1.trans (moves.enrolled new').2.1.symm

theorem Accounted.ids_follow : ∃ many,
    idsGiven (machine.follow index advance).history = List.range' 1 many ∧
      (machine.follow index advance).token.nextId = many + 1 := by
  obtain ⟨many, earlier, next⟩ := accounted.ids
  have told : idsGiven (machine.follow index advance).history =
      idsGiven machine.history ++ idsGiven advance.events := List.filterMap_append
  rw [told]
  rcases moves.ids with ⟨none, same⟩ | ⟨new, more⟩
  · exact ⟨many, by rw [none, List.append_nil, earlier], same.trans next⟩
  · refine ⟨many + 1, ?_, more.trans (congrArg (· + 1) next)⟩
    rw [new, earlier, next, List.range'_1_concat, Nat.add_comm many]

include there

theorem Accounted.once_follow (serial : Nat) : (machine.follow index advance).load serial ≤
    if serial < (machine.follow index advance).serials then 1 else 0 := by
  have once := accounted.once serial
  have more := load_follow there moves serial
  have serials := moves.asks
  change _ ≤ if serial < advance.serials then 1 else 0
  split at once <;> split at more <;> split <;> omega

theorem Accounted.early_follow
    (enrolled : .enrolled serial id ∈ (machine.follow index advance).history)
    (untaken : .taken ∉ (machine.follow index advance).history) :
    (machine.follow index advance).underway.count serial +
      (machine.follow index advance).history.count (.invoked serial) = 0 := by
  rw [follow_history, not_or] at untaken
  rcases follow_history.mp enrolled with old | new
  · have apart := Nat.ne_of_lt (accounted.known serial id old)
    have fewer := underway_follow there moves untaken.2 (Or.inl apart)
    have none := accounted.early serial id old untaken.1
    omega
  · have fewer := underway_follow there moves untaken.2 (Or.inr ⟨id, new⟩)
    have fresh := accounted.fresh (Nat.le_of_eq (moves.enrolled new).1.symm)
    rw [load] at fresh
    omega

/-- What was removed before the callbacks were taken is not to be invoked any more. -/
theorem Accounted.removed_follow
    (removed : RemovedInTime (machine.follow index advance).history serial) :
    (machine.follow index advance).load serial = 0 := by
  rcases removed.new with old | ⟨between, number, later, events, enrolled, untaken⟩
  · obtain ⟨earlier, number, later, split, enrolled, _⟩ := id old
    have before : serial < machine.serials :=
      accounted.known serial number (split ▸ List.mem_append_left _ enrolled)
    have fewer := load_follow there moves serial
    rw [accounted.removed serial old, if_neg (Nat.ne_of_lt before)] at fewer
    exact Nat.le_zero.mp fewer
  · have told : .removed number ∈ advance.events := by simp [events]
    obtain ⟨only, callbacks⟩ := moves.removed told
    have first : between = [] := by
      rw [events] at only
      cases between with
      | nil => rfl
      | cons head rest => simp at only
    rw [first, List.append_nil] at enrolled untaken
    have gone : (machine.follow index advance).kept.count serial = 0 := by
      refine List.count_eq_zero.mpr fun due => ?_
      obtain ⟨⟨other, registration⟩, member, due⟩ := List.mem_filterMap.mp due
      obtain ⟨_, _, rfl⟩ := Option.map_eq_some_iff.mp due
      rw [follow, callbacks, List.mem_filter, decide_eq_true_iff] at member
      exact member.2 (accounted.single _ _ _ (accounted.enrolled _ _ member.1) enrolled)
    have none := accounted.early_follow there moves (follow_history.mpr (Or.inl enrolled))
      (by rw [follow_history, only]; simp [untaken])
    rw [load]
    omega

theorem Accounted.follow : (machine.follow index advance).Accounted where
  once := accounted.once_follow there moves
  enrolled _ _ := accounted.enrolled_follow moves
  known _ _ := accounted.known_follow moves
  single _ _ _ := accounted.single_follow moves
  early _ _ := accounted.early_follow there moves
  removed _ := accounted.removed_follow there moves
  ids := accounted.ids_follow moves

end

theorem Reached.accounted (reached : Reached acts machine) : machine.Accounted := by
  induction reached with
  | start =>
    refine ⟨fun _ => Nat.zero_le _, ?_, ?_, ?_, ?_, fun _ _ => rfl, 0, rfl, rfl⟩
    all_goals
      intros
      contradiction
  | spawn reached commands ih =>
    obtain ⟨once, enrolled, known, single, early, removed, ids⟩ := ih
    rw [← spawn_underway _ commands] at early
    refine ⟨fun serial => ?_, enrolled, known, single, early, fun serial gone => ?_, ids⟩
    · rw [spawn_load]
      exact once serial
    · rw [spawn_load]
      exact removed serial gone
  | step reached index stepped ih =>
    obtain ⟨frame, stack, advance, there, deed, rfl⟩ := step_deed stepped
    exact ih.follow there deed.moves

end Machine
end Foreman.Cancel
