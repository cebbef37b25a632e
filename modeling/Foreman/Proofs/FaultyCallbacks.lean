import Foreman.Proofs.LoneCalls
import Mathlib.Data.List.Nodup

/-! Callbacks that raise faults. A fault of a callback ends the request that runs it, so
the callbacks behind it are never invoked: the token has let go of them already. -/

namespace Foreman.Cancel

variable {serials serial bound : Nat} {machine : Machine} {command : Command}
  {commands rest : List Command} {registrations : List Registration}

def invocations (events : List Event) : List Nat :=
  events.filterMap fun
    | .invoked serial => some serial
    | _ => none

def Command.removes (id : Nat) : Command → Bool
  | .remove other => other = id
  | _ => false

/-- The callbacks that commands leave registered while nobody asks for cancellation, in
order. Registrations are numbered from `serial` on, and their ids are one higher. -/
def registered (serial : Nat) : List Command → List Registration
  | [] => []
  | .on callback :: rest =>
    if rest.any (·.removes (serial + 1)) then registered (serial + 1) rest
    else { serial, callback } :: registered (serial + 1) rest
  | _ :: rest => registered serial rest

/-- The callbacks that hold code, up to the first that raises a fault. -/
def heard : List Registration → List Nat
  | [] => []
  | registration :: rest =>
    match registration.callback with
    | none => heard rest
    | some body => registration.serial :: if bodyMild body then heard rest else []

theorem invocations_append (earlier later : List Event) :
    invocations (earlier ++ later) = invocations earlier ++ invocations later :=
  List.filterMap_append

theorem count_invocations (events : List Event) (serial : Nat) :
    (invocations events).count serial = events.count (.invoked serial) := by
  induction events with
  | nil => rfl
  | cons event rest ih =>
    cases event with
    | invoked other => simp [invocations, List.count_cons, ← ih]
    | _ => simp [invocations, ← ih]

/-! Faults of courses. -/

theorem Course.andThen_fault (first : Course) (next : Nat → Course) :
    (first.andThen next).fault = none ↔ first.fault = none ∧ (next first.serials).fault = none := by
  rw [andThen]
  cases raised : first.fault <;> simp [raised]

mutual
theorem Command.mild_iff (serials : Nat) (command : Command) :
    (command.course serials).fault = none ↔ command.mild = true := by
  cases command with
  | log _ | state | request | remove _ | check | throw _ => simp [Command.course, Command.mild]
  | on callback =>
    rw [Command.course, Course.andThen_fault, callbackMild_iff, Command.mild]
    exact and_iff_left rfl

theorem callbackMild_iff (serial serials : Nat) (callback : Option (List Command)) :
    (callbackCourse serial serials callback).fault = none ↔ callbackMild callback = true := by
  cases callback with
  | none => simp [callbackCourse, callbackMild]
  | some body => exact bodyMild_iff serials body

theorem bodyMild_iff (serials : Nat) (body : List Command) :
    (bodyCourse serials body).fault = none ↔ bodyMild body = true := by
  cases body with
  | nil => simp [bodyCourse, bodyMild]
  | cons command rest =>
    rw [bodyCourse, Course.andThen_fault, Command.mild_iff, bodyMild_iff, bodyMild, Bool.and_eq_true]
end

theorem delivery_calm (serials : Nat) (registrations : List Registration) :
    (deliveryCourse serials registrations).fault = none ↔
      ∀ registration ∈ registrations, callbackMild registration.callback = true := by
  induction registrations generalizing serials with
  | nil => simp [deliveryCourse]
  | cons registration rest ih =>
    rw [deliveryCourse, Course.andThen_fault, callbackMild_iff, ih, List.forall_mem_cons]

/-- A callback that is registered late runs at once, and zero is answered after that. -/
theorem late_report (serials : Nat) (body : List Command) :
    let ran := bodyCourse (serials + 1) body
    let course := (Command.on (some body)).course serials
    ({ fault := course.fault, events := course.events } : Report) =
      { fault := ran.fault
        events := .invoked serials :: ran.events ++ if ran.fault = none then [.answered 0] else [] } := by
  intro ran course
  simp only [course, Command.course, callbackCourse, Course.andThen]
  cases (bodyCourse (serials + 1) body).fault <;> simp [ran]

/-! Callbacks that courses invoke. -/

/-- The course gives serials to what it registers, and invokes nothing else. -/
structure Course.Fresh (serials : Nat) (course : Course) : Prop where
  grows : serials ≤ course.serials
  own : ∀ serial ∈ invocations course.events, serials ≤ serial

theorem Course.Fresh.andThen {first : Course} {next : Nat → Course} (fresh : first.Fresh serials)
    (later : ∀ serials, (next serials).Fresh serials) : (first.andThen next).Fresh serials := by
  rw [Course.andThen]
  split
  · exact fresh
  · have grows := fresh.grows
    refine ⟨Nat.le_trans grows (later _).grows, fun serial member => ?_⟩
    rw [invocations_append, List.mem_append] at member
    exact member.elim (fresh.own serial) fun invoked => Nat.le_trans grows ((later _).own serial invoked)

mutual
theorem Command.course_fresh (serials : Nat) (command : Command) :
    (command.course serials).Fresh serials := by
  cases command with
  | log _ | state | request | remove _ | check | throw _ =>
    exact ⟨Nat.le_refl _, by simp [Command.course, invocations]⟩
  | on callback =>
    rw [Command.course]
    refine .andThen ?_ fun later => ⟨Nat.le_refl _, by simp [invocations]⟩
    cases callback with
    | none => exact ⟨Nat.le_succ _, by simp [callbackCourse, invocations]⟩
    | some body =>
      have fresh := bodyCourse_fresh (serials + 1) body
      refine ⟨Nat.le_of_succ_le fresh.grows, fun serial member => ?_⟩
      rcases List.mem_cons.mp member with rfl | member
      · exact Nat.le_refl _
      · exact Nat.le_of_succ_le (fresh.own serial member)

theorem bodyCourse_fresh (serials : Nat) (body : List Command) :
    (bodyCourse serials body).Fresh serials := by
  cases body with
  | nil => exact ⟨Nat.le_refl _, by simp [bodyCourse, invocations]⟩
  | cons command rest =>
    rw [bodyCourse]
    exact (command.course_fresh serials).andThen fun later => bodyCourse_fresh later rest
end

theorem Course.Fresh.filter {course : Course} (fresh : course.Fresh serials) (below : bound ≤ serials) :
    (invocations course.events).filter (· < bound) = [] := by
  refine List.filter_eq_nil_iff.mpr fun serial member => ?_
  have := fresh.own serial member
  simp only [decide_eq_true_eq]
  omega

/-- Of the callbacks that were registered before, a delivery invokes those that are heard. -/
theorem delivery_heard (below : ∀ registration ∈ registrations, registration.serial < bound)
    (later : bound ≤ serials) :
    (invocations (deliveryCourse serials registrations).events).filter (· < bound) =
      heard registrations ∧ serials ≤ (deliveryCourse serials registrations).serials := by
  induction registrations generalizing serials with
  | nil => exact ⟨rfl, Nat.le_refl _⟩
  | cons registration rest ih =>
    obtain ⟨own, others⟩ := List.forall_mem_cons.mp below
    rw [deliveryCourse, heard]
    cases code : registration.callback with
    | none => simpa [callbackCourse, Course.andThen] using ih others later
    | some body =>
      have fresh := bodyCourse_fresh serials body
      have silent := fresh.filter later
      have mild := bodyMild_iff serials body
      simp only [callbackCourse, Course.andThen]
      cases raised : (bodyCourse serials body).fault with
      | some fault =>
        rw [raised] at mild
        have harsh : bodyMild body = false := by simpa using mild
        refine ⟨?_, fresh.grows⟩
        simpa [invocations, own, harsh] using silent
      | none =>
        obtain ⟨goesOn, grows⟩ := ih others (Nat.le_trans later fresh.grows)
        have first : (invocations (.invoked registration.serial :: (bodyCourse serials body).events)).filter
            (· < bound) = [registration.serial] := by
          simpa [invocations, own] using silent
        refine ⟨?_, Nat.le_trans fresh.grows grows⟩
        rw [invocations_append, List.filter_append, first, goesOn, mild.mp raised, if_pos rfl]
        rfl

namespace Machine

/-! Calls while the flag is unset. -/

structure Opened (machine : Machine) : Prop where
  free : machine.token.canceled = false
  ids : machine.token.nextId = machine.serials + 1
  silent : invocations machine.history = []

def books (machine : Machine) : Command → Nat × List (Nat × Registration)
  | .on callback =>
    (machine.serials + 1, machine.token.callbacks ++
      [(machine.serials + 1, { serial := machine.serials, callback })])
  | .remove id => (machine.serials, machine.token.callbacks.filter (·.1 ≠ id))
  | _ => (machine.serials, machine.token.callbacks)

theorem Opened.call (opened : machine.Opened) (asks : command.requests = false) :
    (machine.call command).2.Opened ∧
      ((machine.call command).2.serials, (machine.call command).2.token.callbacks) =
        machine.books command := by
  obtain ⟨free, ids, silent⟩ := opened
  have comes := open_comes free asks
  suffices plain : let first := command.advance machine.token machine.serials [] []
      first.token.canceled = false ∧ first.token.nextId = first.serials + 1 ∧
        invocations first.events = [] ∧ (first.serials, first.token.callbacks) = machine.books command by
    obtain ⟨still, next, quiet, books⟩ := plain
    rw [comes.token, comes.serials]
    refine ⟨⟨comes.token ▸ still, ?_, ?_⟩, books⟩
    · rw [comes.token, comes.serials]
      exact next
    · rw [comes.history, invocations_append, silent, quiet]
      rfl
  cases command with
  | request => cases asks
  | log _ | state | throw _ => exact ⟨free, ids, rfl, rfl⟩
  | remove id => exact ⟨free, ids, rfl, rfl⟩
  | on callback => simp [Command.advance, Token.enroll, free, ids, invocations, books]
  | check => simp [Command.advance, free, ids, invocations, books]

/-- The token keeps what was registered and not removed. -/
theorem Opened.calls (opened : machine.Opened)
    (unasked : ∀ command ∈ commands, command.requests = false) :
    (machine.calls commands).Opened ∧ (machine.calls commands).token.callbacks =
      machine.token.callbacks.filter (fun entry => !commands.any (·.removes entry.1)) ++
        (registered machine.serials commands).map fun registration =>
          (registration.serial + 1, registration) := by
  induction commands generalizing machine with
  | nil =>
    have all : machine.token.callbacks.filter (fun _ => true) = machine.token.callbacks :=
      List.filter_eq_self.mpr fun _ _ => rfl
    exact ⟨opened, by simp [calls, registered, all]⟩
  | cons command rest ih =>
    obtain ⟨asks, others⟩ := List.forall_mem_cons.mp unasked
    obtain ⟨still, books⟩ := opened.call asks
    obtain ⟨opened, callbacks⟩ := ih still others
    refine ⟨opened, callbacks.trans ?_⟩
    obtain ⟨serials, after⟩ := Prod.mk.inj books
    rw [serials, after]
    cases command with
    | request => cases asks
    | log _ | state | check | throw _ => simp [registered, Command.removes]
    | on callback =>
      have stays (id : Nat) : (Command.on callback).removes id = false := rfl
      simp only [registered, stays, List.filter_append, List.append_assoc,
        List.any_cons, Bool.false_or]
      cases gone : rest.any (·.removes (machine.serials + 1)) <;> simp [gone]
    | remove id =>
      have goes (other : Nat) : (Command.remove id).removes other = (id = other : Bool) := rfl
      simp only [registered, List.filter_filter, List.any_cons, goes]
      congr 2
      funext entry
      rw [Bool.and_comm]
      simp [eq_comm]

/-! Calls are turns of threads. -/

theorem Reached.finish {acts : List Act} (reached : Reached acts machine) (index : Nat) :
    ∃ more, Reached more (machine.finish index) := by
  induction machine using finish.induct index generalizing acts with
  | case1 machine still =>
    refine ⟨acts, ?_⟩
    rw [Machine.finish]
    split
    · exact reached
    next after stepped => simp [still] at stepped
  | case2 machine after stepped ih =>
    rw [finish_step stepped]
    exact ih (reached.step index stepped)

theorem Reached.calls {acts : List Act} (reached : Reached acts machine) (commands : List Command) :
    ∃ more, Reached more (machine.calls commands) := by
  induction commands generalizing machine acts with
  | nil => exact ⟨acts, reached⟩
  | cons command rest ih =>
    obtain ⟨more, called⟩ := (reached.spawn [command]).finish machine.threads.length
    exact ih called

theorem Reached.invocations_nodup {acts : List Act} (reached : Reached acts machine) :
    (invocations machine.history).Nodup := by
  refine List.nodup_iff_count_le_one.mpr fun serial => ?_
  have once := reached.accounted.once serial
  rw [load] at once
  rw [count_invocations]
  split at once <;> omega

/-! The calls after the first request. -/

theorem Spent.calls (spent : machine.Spent) (below : bound ≤ machine.serials) (commands : List Command) :
    (machine.calls commands).Spent ∧ bound ≤ (machine.calls commands).serials ∧
      (invocations (machine.calls commands).history).filter (· < bound) =
        (invocations machine.history).filter (· < bound) := by
  induction commands generalizing machine with
  | nil => exact ⟨spent, below, rfl⟩
  | cons command rest ih =>
    have comes := spent.comes command
    have fresh := command.course_fresh machine.serials
    have still : (machine.call command).2.Spent := by
      rw [Spent, comes.token]
      exact spent
    have later : bound ≤ (machine.call command).2.serials := by
      rw [comes.serials]
      exact Nat.le_trans below fresh.grows
    obtain ⟨spent, below', told⟩ := ih still later
    refine ⟨spent, below', told.trans ?_⟩
    rw [comes.history, invocations_append, List.filter_append, fresh.filter below, List.append_nil]

/-- Whatever is called on a token, one call after the other, until somebody asks for
cancellation: nothing is invoked, and the token keeps what was registered and not removed.
The first request invokes, of all callbacks that were registered before it, exactly those
that it keeps, in order, up to the first that raises a fault; it raises a fault itself if
one of them does. Whatever is called later, no other of them is ever invoked, and nothing
is invoked twice. A callback that is registered later is invoked at once, and zero is
answered unless it raises a fault; a later request does nothing. So it is in the middle of
callbacks as well: any command in them, whatever is still to be done, comes to its course. -/
theorem callbacks_until_fault (earlier later : List Command)
    (unasked : ∀ command ∈ earlier, command.requests = false) :
    let before := calls {} earlier
    let report := (before.call .request).1
    let final := (before.call .request).2.calls later
    before.token.canceled = false ∧ invocations before.history = [] ∧
    before.token.callbacks.map (·.2) = registered 0 earlier ∧
    (invocations report.events).filter (· < before.serials) = heard (registered 0 earlier) ∧
    (report.fault = none ↔
      ∀ registration ∈ registered 0 earlier, callbackMild registration.callback = true) ∧
    (invocations final.history).filter (· < before.serials) = heard (registered 0 earlier) ∧
    (invocations final.history).Nodup ∧
    (∀ body, let ran := bodyCourse (final.serials + 1) body
      (final.call (.on (some body))).1 =
        { fault := ran.fault
          events := .invoked final.serials :: ran.events ++
            if ran.fault = none then [.answered 0] else [] }) ∧
    (final.call .request).1 = { fault := none, events := [] } ∧
    ∀ (machine : Machine) (index : Nat) (command : Command) (rest : List Command)
      (stack : List Frame), machine.Spent →
      machine.stack? index = some (.body (command :: rest) :: stack) →
      machine.finish index =
        (machine.ran index (.body rest :: stack) (command.course machine.serials)).finish index := by
  intro before report final
  have opened : before.Opened ∧ before.token.callbacks =
      (registered 0 earlier).map fun registration => (registration.serial + 1, registration) :=
    Opened.calls ⟨rfl, rfl, rfl⟩ unasked
  obtain ⟨⟨free, _, silent⟩, callbacks⟩ := opened
  have keeps : before.token.callbacks.map (·.2) = registered 0 earlier := by
    simp [callbacks, Function.comp_def]
  have comes := request_comes free
  rw [keeps] at comes
  obtain ⟨_, begun⟩ : ∃ acts, Reached acts before := Reached.start.calls earlier
  have accounted := begun.accounted
  have known : ∀ registration ∈ registered 0 earlier, registration.serial < before.serials := by
    rw [← keeps]
    intro registration member
    obtain ⟨⟨id, _⟩, entry, rfl⟩ := List.mem_map.mp member
    exact accounted.known _ id (accounted.enrolled id _ entry)
  obtain ⟨delivered, grows⟩ := delivery_heard known (Nat.le_refl before.serials)
  have spent : (before.call .request).2.Spent := by
    rw [Spent, comes.token]
    exact ⟨rfl, rfl⟩
  obtain ⟨after, _, told⟩ := spent.calls (comes.serials ▸ grows) later
  refine ⟨free, silent, keeps, ?_, ?_, ?_, ?_, fun body => ?_, ?_, ?_⟩
  · rw [show report = _ from comes.report]
    exact delivered
  · rw [show report = _ from comes.report]
    exact delivery_calm _ _
  · rw [told, comes.history, invocations_append, silent]
    exact delivered
  · obtain ⟨_, reached⟩ := begun.calls (.request :: later)
    exact reached.invocations_nodup
  · exact (after.comes _).report.trans (late_report final.serials body)
  · exact (after.comes .request).report
  · exact fun machine index command rest stack spent there => command.runs spent there

/-- The fault of the first callback ends the request, and the second one is lost. -/
theorem press_never_stopped :
    let commands : List Command :=
      [.on (some [.throw (.runtime "printer jammed")]), .on (some [.log "stop the press"])]
    let before := calls {} commands
    let (report, after) := before.call .request
    before.token.canceled = false ∧ before.token.callbacks.map (·.1) = [1, 2] ∧
      (registered 0 commands).filterMap Registration.due = [0, 1] ∧
      report.fault = some (.runtime "printer jammed") ∧ invocations report.events = [0] ∧
      after.token.callbacks.map (·.1) = [] ∧ (after.call .request).1.events = [] := by
  decide +kernel

/-- The second callback is removed and the third holds no code. The fourth registers
another one and asks to cancel again, and the fifth raises a fault in one that it
registers, so that the sixth is lost. -/
private def alarm : List Command :=
  [ .on (some [.log "ring the bell", .remove 6]), .on (some [.log "call the guard"]), .on none,
    .remove 2, .on (some [.on (some [.state]), .request]),
    .on (some [.on (some [.throw (.runtime "no light")]), .log "light the lamp"]),
    .on (some [.log "open the gate"]) ]

private def watch : Machine := calls {} alarm

theorem alarm_until_fault : (∀ command ∈ alarm, command.requests = false) ∧
    heard (registered 0 alarm) = [0, 3, 4] ∧
    (invocations (watch.call .request).1.events).filter (· < watch.serials) = [0, 3, 4] ∧
    (watch.call .request).1.fault = some (.runtime "no light") ∧
    invocations ((watch.call .request).2.calls [.request, .on (some [.request])]).history =
      [0, 3, 6, 4, 7, 8] := by
  have unasked : ∀ command ∈ alarm, command.requests = false := by decide
  have listed : heard (registered 0 alarm) = [0, 3, 4] := by decide
  obtain ⟨_, _, _, first, _⟩ := callbacks_until_fault alarm [.request, .on (some [.request])] unasked
  exact ⟨unasked, listed, first.trans listed, by decide +kernel, by decide +kernel⟩

end Machine
end Foreman.Cancel
