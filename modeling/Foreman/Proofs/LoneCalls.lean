import Foreman.Cancel.Run
import Foreman.Proofs.CallbackAccounts
import Foreman.Proofs.TokenCalls

/-! Calls of the token one after the other, with callbacks that may raise faults. Once the
flag is set, what a command does is said by its course, which knows of no threads and no
stack; a call brings about the course of its command. The request that sets the flag
invokes the callbacks that the token kept, in order, up to the first that raises a fault. -/

namespace Foreman.Cancel

/-- What running commands comes to: what happened, the next serial, and the fault that
ended it. -/
structure Course where
  events : List Event := []
  serials : Nat
  fault : Option Fault := none
  deriving DecidableEq

def Course.andThen (first : Course) (next : Nat → Course) : Course :=
  match first.fault with
  | some _ => first
  | none =>
    let second := next first.serials
    { second with events := first.events ++ second.events }

def Course.advance (course : Course) (token : Token Registration) (stack : List Frame) : Advance :=
  { token
    thread := match course.fault with
      | none => { stack }
      | some fault => { fault := some fault }
    serials := course.serials
    events := course.events }

mutual
/-- The course of a command once the flag is set and the token keeps nothing. -/
def Command.course (serials : Nat) : Command → Course
  | .log text => { events := [.logged text], serials }
  | .state => { events := [.observed true], serials }
  | .request => { serials }
  | .remove id => { events := [.removed id], serials }
  | .on callback =>
    (callbackCourse serials (serials + 1) callback).andThen fun serials =>
      { events := [.answered 0], serials }
  | .check => { serials, fault := some canceledFault }
  | .throw fault => { serials, fault := some fault }

/-- The course of a callback that was registered under `serial`. -/
def callbackCourse (serial serials : Nat) : Option (List Command) → Course
  | none => { serials }
  | some body =>
    let ran := bodyCourse serials body
    { ran with events := .invoked serial :: ran.events }

def bodyCourse (serials : Nat) : List Command → Course
  | [] => { serials }
  | command :: rest => (command.course serials).andThen fun serials => bodyCourse serials rest
end

def deliveryCourse (serials : Nat) : List Registration → Course
  | [] => { serials }
  | registration :: rest =>
    (callbackCourse registration.serial serials registration.callback).andThen fun serials =>
      deliveryCourse serials rest

variable {index : Nat} {frame : Frame} {stack middle last left : List Frame} {machine after : Machine}
  {registration : Registration}

namespace Machine

/-! A thread that runs alone. -/

/-- The flag is set and the callbacks were taken. -/
def Spent (machine : Machine) : Prop :=
  machine.token.canceled = true ∧ machine.token.callbacks = []

/-- The machine when the thread has run the course on top of the stack. -/
def ran (machine : Machine) (index : Nat) (stack : List Frame) (course : Course) : Machine :=
  machine.follow index (course.advance machine.token stack)

theorem finish_step (stepped : machine.step index = some after) :
    machine.finish index = after.finish index := by
  rw [finish]
  split
  next none => rw [none] at stepped; cases stepped
  next other same =>
    rw [same] at stepped
    cases stepped
    rfl

theorem finish_follow (there : machine.stack? index = some (frame :: stack)) :
    machine.finish index =
      (machine.follow index (frame.advance machine.token machine.serials stack)).finish index :=
  finish_step (step_follow there)

theorem follow_follow (machine : Machine) (first second : Advance) :
    (machine.follow index first).follow index second =
      machine.follow index { second with events := first.events ++ second.events } := by
  simp [follow]

theorem follow_top (there : machine.stack? index = some stack) (advance : Advance) :
    (machine.follow index advance).stack? index = some advance.thread.stack := by
  rw [follow_stack? there, if_pos rfl]

theorem ran_top (there : machine.stack? index = some stack) (course : Course)
    (calm : course.fault = none) : (machine.ran index last course).stack? index = some last := by
  rw [ran, follow_top there, Course.advance, calm]

/-- What the thread does next is run after the first course, unless that raised a fault. -/
theorem ran_andThen (spent : machine.Spent) (there : machine.stack? index = some stack)
    (first : Course) (next : Nat → Course)
    (runs : ∀ later : Machine, later.Spent → later.stack? index = some middle →
      later.finish index = (later.ran index last (next later.serials)).finish index) :
    (machine.ran index middle first).finish index =
      (machine.ran index last (first.andThen next)).finish index := by
  cases raised : first.fault with
  | some fault => simp only [ran, Course.advance, Course.andThen, raised]
  | none =>
    rw [runs (machine.ran index middle first) spent (ran_top there first raised), ran, ran,
      follow_follow]
    simp only [ran, Course.advance, Course.andThen, raised]
    rfl

/-- One step of the thread whose outcome is the whole course of what was on top. -/
theorem finish_ran (there : machine.stack? index = some (frame :: stack)) (course : Course)
    (advances : frame.advance machine.token machine.serials stack =
      course.advance machine.token last) :
    machine.finish index = (machine.ran index last course).finish index := by
  rw [finish_follow there, advances, ran]

theorem Spent.follow (spent : machine.Spent) {advance : Advance} (same : advance.token = machine.token) :
    (machine.follow index advance).Spent := by
  rw [Spent, Machine.follow, same]
  exact spent

theorem follow_ran (machine : Machine) (advance : Advance) (course : Course) :
    (machine.follow index advance).ran index last course = machine.follow index
      ({ course with events := advance.events ++ course.events }.advance advance.token last) :=
  machine.follow_follow advance _

theorem Spent.remove (spent : machine.Spent) (id : Nat) : machine.token.remove id = machine.token := by
  rw [Token.remove, spent.2, List.filter_nil, ← spent.2]

end Machine

theorem Frame.Hands.advance (hands : frame.Hands registration left) (token : Token Registration)
    (serials : Nat) (stack : List Frame) :
    frame.advance token serials stack = registration.invoke token serials (left ++ stack) := by
  cases hands with
  | deliver | inline => rfl

open Machine in
mutual
/-- A thread that runs alone from a command on brings about the course of the command,
whatever it has still to do. -/
theorem Command.runs {machine : Machine} {index : Nat} {stack : List Frame} {rest : List Command}
    (command : Command) (spent : machine.Spent)
    (there : machine.stack? index = some (.body (command :: rest) :: stack)) :
    machine.finish index =
      (machine.ran index (.body rest :: stack) (command.course machine.serials)).finish index := by
  cases command with
  | log text | throw fault => exact finish_ran there _ rfl
  | state => exact finish_ran there _ (by simp [Frame.advance, Command.advance, Command.course, Course.advance, spent.1])
  | check => exact finish_ran there _ (by simp [Frame.advance, Command.advance, Command.course, Course.advance, spent.1])
  | request =>
    exact finish_ran there _
      (by simp [Frame.advance, Command.advance, Command.course, Course.advance, Token.raise, spent.1])
  | remove id =>
    exact finish_ran there _ (by simp [Frame.advance, Command.advance, Command.course, Course.advance, spent.remove])
  | on callback =>
    let registration : Registration := { serial := machine.serials, callback }
    let asked : Advance :=
      { token := machine.token
        thread := { stack := .inline registration :: .answer 0 :: .body rest :: stack }
        serials := machine.serials + 1 }
    have advances : (Frame.body (.on callback :: rest)).advance machine.token machine.serials stack =
        asked := by
      simp [Frame.advance, Command.advance, Token.enroll, spent.1, asked, registration]
    have waits := follow_top there asked
    rw [finish_follow there, advances, callback_runs callback (spent.follow rfl) waits .inline rfl,
      follow_ran]
    exact ran_andThen spent there _ _ fun later _ there => finish_ran there _ rfl

theorem callback_runs {machine : Machine} {index : Nat} {frame : Frame} {stack left : List Frame}
    {registration : Registration} (callback : Option (List Command)) (spent : machine.Spent)
    (there : machine.stack? index = some (frame :: stack)) (hands : frame.Hands registration left)
    (code : registration.callback = callback) :
    machine.finish index = (machine.ran index (left ++ stack)
      (callbackCourse registration.serial machine.serials callback)).finish index := by
  cases callback with
  | none =>
    rw [finish_follow there, Frame.Hands.advance hands, Registration.invoke, code]
    rfl
  | some body =>
    rw [finish_follow there, Frame.Hands.advance hands, Registration.invoke, code]
    exact (body_runs body (spent.follow rfl) (follow_top there _)).trans
      (congrArg (·.finish index) (machine.follow_ran _ _))

theorem body_runs {machine : Machine} {index : Nat} {stack : List Frame} (body : List Command)
    (spent : machine.Spent)
    (there : machine.stack? index = some (.body body :: stack)) :
    machine.finish index =
      (machine.ran index stack (bodyCourse machine.serials body)).finish index := by
  cases body with
  | nil => exact finish_ran there _ rfl
  | cons command rest =>
    rw [command.runs spent there, bodyCourse]
    exact ran_andThen spent there _ _ fun later spent there => body_runs rest spent there
end

/-- So do the callbacks that a request has taken. -/
theorem delivery_runs {callbacks : List (Nat × Registration)} (spent : machine.Spent)
    (there : machine.stack? index = some (.deliver callbacks :: stack)) :
    machine.finish index = (machine.ran index stack
      (deliveryCourse machine.serials (callbacks.map (·.2)))).finish index := by
  induction callbacks generalizing machine with
  | nil => exact machine.finish_ran there _ rfl
  | cons entry rest ih =>
    rw [callback_runs entry.2.callback spent there (.deliver entry.1 rest) rfl]
    exact machine.ran_andThen spent there _ _ fun later spent there => ih spent there

def Command.requests : Command → Bool
  | .request => true
  | _ => false

theorem Command.advance_open {command : Command} {token : Token Registration} {serials : Nat}
    (free : token.canceled = false) (asks : command.requests = false) (rest : List Command)
    (stack : List Frame) :
    (command.advance token serials rest stack).thread = { stack := .body rest :: stack } ∨
      ∃ fault, (command.advance token serials rest stack).thread = { fault := some fault } := by
  cases command with
  | request => cases asks
  | throw fault => exact Or.inr ⟨fault, rfl⟩
  | log _ | state | remove _ => exact Or.inl rfl
  | on _ => exact Or.inl (by simp [advance, Token.enroll, free])
  | check => exact Or.inl (by simp [advance, free])

theorem Course.advance_stack (course : Course) (token : Token Registration) :
    (course.advance token []).thread.stack = [] := by
  rw [advance]
  cases course.fault <;> rfl

theorem Course.advance_fault (course : Course) (token : Token Registration) (stack : List Frame) :
    (course.advance token stack).thread.fault = course.fault := by
  rw [advance]
  cases course.fault <;> rfl

theorem Course.andThen_done (course : Course) : (course.andThen fun serials => { serials }) = course := by
  obtain ⟨events, serials, fault⟩ := course
  cases fault <;> simp [andThen]

namespace Machine

theorem ran_close (spent : machine.Spent) (there : machine.stack? index = some stack)
    (course : Course) : (machine.ran index (.body [] :: last) course).finish index =
      (machine.ran index last course).finish index := by
  rw [ran_andThen spent there course (fun serials => { serials })
    fun later _ there => finish_ran there { serials := later.serials } rfl, Course.andThen_done]

/-! One call. -/

def calls (machine : Machine) (commands : List Command) : Machine :=
  commands.foldl (fun machine command => (machine.call command).2) machine

theorem spawn_top (machine : Machine) (commands : List Command) :
    (machine.spawn commands).stack? machine.threads.length = some [.body commands] := by
  simp [stack?, spawn]

theorem finish_done (done : machine.stack? index = some []) : machine.finish index = machine := by
  obtain ⟨⟨stack, fault⟩, present, same⟩ := Option.map_eq_some_iff.mp done
  cases same
  rw [finish]
  split
  · rfl
  next after stepped => simp [step, present] at stepped

structure Comes (machine : Machine) (command : Command) (course : Course)
    (token : Token Registration) : Prop where
  report : (machine.call command).1 = { fault := course.fault, events := course.events }
  token : (machine.call command).2.token = token
  serials : (machine.call command).2.serials = course.serials
  history : (machine.call command).2.history = machine.history ++ course.events

theorem call_comes {command : Command} {course : Course} {token : Token Registration}
    (ends : (machine.spawn [command]).finish machine.threads.length =
      ((machine.spawn [command]).follow machine.threads.length (course.advance token [])).finish
        machine.threads.length) : machine.Comes command course token := by
  have top := follow_top (machine.spawn_top [command]) (course.advance token [])
  rw [course.advance_stack] at top
  rw [finish_done top] at ends
  refine ⟨?_, ?_, ?_, ?_⟩ <;> rw [call, ends]
  · simp [follow, spawn, course.advance_fault]
    rfl
  all_goals rfl

/-- Once the flag is set and the callbacks were taken, a call comes to the course of its
command. -/
theorem Spent.comes (spent : machine.Spent) (command : Command) :
    machine.Comes command (command.course machine.serials) machine.token := by
  have asked : (machine.spawn [command]).Spent := spent
  have top := machine.spawn_top [command]
  have runs := command.runs asked top
  rw [ran_close asked top] at runs
  exact call_comes runs

/-- The first request sets the flag, takes the callbacks and runs them. -/
theorem request_comes (free : machine.token.canceled = false) :
    let delivery := deliveryCourse machine.serials (machine.token.callbacks.map (·.2))
    machine.Comes .request { delivery with events := .raised :: .taken :: delivery.events }
      { machine.token with canceled := true, callbacks := [] } := by
  intro delivery
  have top := machine.spawn_top [.request]
  let raised : Advance :=
    { token := { machine.token with canceled := true }
      thread := { stack := [.take, .body []] }, serials := machine.serials, events := [.raised] }
  let taken : Advance :=
    { token := { machine.token with canceled := true, callbacks := [] }
      thread := { stack := [.deliver machine.token.callbacks, .body []] }
      serials := machine.serials, events := [.raised, .taken] }
  have raises : (Frame.body [.request]).advance (machine.spawn [.request]).token
      (machine.spawn [.request]).serials [] = raised := by
    simp [Frame.advance, Command.advance, Token.raise, spawn, free, raised]
  have takes : (machine.spawn [.request]).finish machine.threads.length =
      ((machine.spawn [.request]).follow machine.threads.length taken).finish
        machine.threads.length := by
    have next := finish_follow (follow_top top raised)
    rw [follow_follow] at next
    rw [finish_follow top, raises]
    exact next
  have spent : ((machine.spawn [.request]).follow machine.threads.length taken).Spent := ⟨rfl, rfl⟩
  have waits := follow_top top taken
  refine call_comes (takes.trans ((delivery_runs spent waits).trans ?_))
  rw [ran_close spent waits, follow_ran]
  rfl

theorem open_comes {command : Command} (free : machine.token.canceled = false)
    (asks : command.requests = false) :
    let first := command.advance machine.token machine.serials [] []
    machine.Comes command
      { events := first.events, serials := first.serials, fault := first.thread.fault }
      first.token := by
  intro first
  have top := machine.spawn_top [command]
  have begins : (machine.spawn [command]).finish machine.threads.length =
      ((machine.spawn [command]).follow machine.threads.length first).finish
        machine.threads.length := finish_follow top
  have kinds : first.thread = { stack := [.body []] } ∨
      ∃ fault, first.thread = { fault := some fault } := command.advance_open free asks [] []
  clear_value first
  refine call_comes (begins.trans ?_)
  rcases kinds with goesOn | ⟨fault, falls⟩
  · have next := follow_top top first
    rw [goesOn] at next
    rw [finish_follow next, follow_follow]
    simp [Frame.advance, Course.advance, goesOn, follow]
  · obtain ⟨token, thread, serials, events⟩ := first
    cases falls
    rfl

end Machine
end Foreman.Cancel
