import Foreman.Pool.Shift

/-! What a pool owes to its owner. Whatever the owner calls and in whatever order the
threads go on, each accepted job runs once, on the thread of its number, and the first
stop hands out the fault that was recorded first. -/

namespace Foreman

def Job.outcome? : Job → Option (Option Fault)
  | .running => none
  | .ended fault => some fault

namespace Pool

variable {ι : Type}

theorem isJoinable_iff {pool : Pool} :
    pool.isJoinable = true ↔ ∀ number : Nat, pool.jobs[number]? ≠ some .running := by
  rw [isJoinable, List.all_eq_true]
  constructor
  · intro ended number running
    cases ended _ (List.mem_of_getElem? running)
  · intro idle job member
    obtain ⟨number, found⟩ := List.mem_iff_getElem?.mp member
    cases job with
    | running => exact absurd found (idle number)
    | ended fault => rfl

/-- What a thread that has begun has told: its job and its name. -/
def Thread.told? (thread : Thread ι) : Option (ι × String) :=
  if thread.begun then some (thread.job, thread.title) else none

/-! What an event tells. -/

namespace Event

def accepted? : Event ι → Option ι
  | .accepted job => some job
  | _ => none

def began? (number : Nat) : Event ι → Option (ι × String)
  | .began thread job name => if thread = number then some (job, name) else none
  | _ => none

def ended? (number : Nat) : Event ι → Option (Option Fault)
  | .ended thread fault => if thread = number then some fault else none
  | _ => none

def escaped? : Event ι → Option Fault
  | .ended _ fault => fault
  | _ => none

def answer? : Event ι → Option (Option Fault)
  | .stopped fault => some fault
  | _ => none

end Event

namespace Shift

variable {shift after : Shift ι} {name owner : String} {capacity number : Nat}
  {moves : List (Move ι)} {event : Event ι}

/-! What has happened so far. -/

def accepted (shift : Shift ι) : List ι := shift.events.filterMap Event.accepted?

def began (shift : Shift ι) (number : Nat) : List (ι × String) :=
  shift.events.filterMap (Event.began? number)

def ended (shift : Shift ι) (number : Nat) : List (Option Fault) :=
  shift.events.filterMap (Event.ended? number)

/-- The faults that jobs have let escape, in the order in which they were recorded. -/
def escaped (shift : Shift ι) : List Fault := shift.events.filterMap Event.escaped?

def answers (shift : Shift ι) : List (Option Fault) := shift.events.filterMap Event.answer?

def IsStopped (shift : Shift ι) : Prop := .stopping ∈ shift.events

section

variable (told : after.events = shift.events ++ [event])
include told

theorem accepted_told : after.accepted = shift.accepted ++ event.accepted?.toList := by
  rw [accepted, told, List.filterMap_append]
  cases telling : event.accepted? <;> simp [accepted, telling]

theorem began_told (number : Nat) :
    after.began number = shift.began number ++ (event.began? number).toList := by
  rw [began, told, List.filterMap_append]
  cases telling : event.began? number <;> simp [began, telling]

theorem ended_told (number : Nat) :
    after.ended number = shift.ended number ++ (event.ended? number).toList := by
  rw [ended, told, List.filterMap_append]
  cases telling : event.ended? number <;> simp [ended, telling]

theorem escaped_told : after.escaped = shift.escaped ++ event.escaped?.toList := by
  rw [escaped, told, List.filterMap_append]
  cases telling : event.escaped? <;> simp [escaped, telling]

theorem answers_told : after.answers = shift.answers ++ event.answer?.toList := by
  rw [answers, told, List.filterMap_append]
  cases telling : event.answer? <;> simp [answers, telling]

theorem isStopped_told : after.IsStopped ↔ shift.IsStopped ∨ event = .stopping := by
  rw [IsStopped, told, List.mem_append, List.mem_singleton, IsStopped, eq_comm (a := event)]

end

/-! What every move keeps. -/

/-- The threads are there for the accepted jobs, and have told what they are up to. -/
structure Manned (name : String) (shift : Shift ι) : Prop where
  accepted : shift.accepted = shift.threads.map (·.job)
  jobs : shift.pool.jobs.length = shift.threads.length
  titles : ∀ (number : Nat) (thread : Thread ι), shift.threads[number]? = some thread →
    thread.title = s!"{name} Thread {number + 1}"
  began : ∀ number : Nat, shift.began number = (shift.threads[number]?.bind Thread.told?).toList
  ended : ∀ number : Nat, shift.ended number = (shift.pool.jobs[number]?.bind Job.outcome?).toList
  order : ∀ (number : Nat) (thread : Thread ι) (fault : Option Fault),
    shift.threads[number]? = some thread → shift.pool.jobs[number]? = some (.ended fault) →
    thread.begun = true

/-- The fault that was recorded first is kept until the first stop hands it out. -/
def Slotted (shift : Shift ι) : Prop :=
  shift.answers = [] ∧ shift.pool.failure = shift.escaped.head? ∨
    ∃ later, shift.answers = shift.escaped.head? :: later ∧ (∀ answer ∈ later, answer = none) ∧
      shift.pool.failure = none ∧ shift.pool.isJoinable = true ∧ shift.IsStopped

structure Kept (name : String) (capacity : Nat) (owner : String) (shift : Shift ι) : Prop where
  title : shift.pool.name = name
  room : shift.pool.capacity = capacity
  owned : shift.owner = owner
  stopped : shift.pool.stopped = true ↔ shift.IsStopped
  waiting : shift.waiting = true → shift.IsStopped
  manned : shift.Manned name
  slotted : shift.Slotted

theorem fresh_kept (name : String) (capacity : Nat) (owner : String) :
    (fresh name capacity owner : Shift ι).Kept name capacity owner := by
  refine ⟨rfl, rfl, rfl, ?_, ?_, ⟨rfl, rfl, ?_, fun _ => rfl, fun _ => rfl, ?_⟩, Or.inl ⟨rfl, rfl⟩⟩
  · simp [IsStopped, fresh]
  · simp [fresh]
  · simp [fresh]
  · simp [fresh]

section

variable (events : after.events = shift.events ++ [event])
include events

theorem Manned.still (manned : shift.Manned name) (jobs : after.pool.jobs = shift.pool.jobs)
    (threads : after.threads = shift.threads) (accepted : event.accepted? = none)
    (began : ∀ number, event.began? number = none) (ended : ∀ number, event.ended? number = none) :
    after.Manned name := by
  refine ⟨?_, ?_, ?_, ?_, ?_, ?_⟩
  · rw [accepted_told events, accepted, threads, manned.accepted]
    exact List.append_nil _
  · rw [jobs, threads, manned.jobs]
  · rw [threads]
    exact manned.titles
  · intro number
    rw [began_told events, began, threads, manned.began]
    exact List.append_nil _
  · intro number
    rw [ended_told events, ended, jobs, manned.ended]
    exact List.append_nil _
  · rw [jobs, threads]
    exact manned.order

theorem Slotted.still (slotted : shift.Slotted) (jobs : after.pool.jobs = shift.pool.jobs)
    (failure : after.pool.failure = shift.pool.failure) (escaped : event.escaped? = none)
    (answer : event.answer? = none) : after.Slotted := by
  have stopped : shift.IsStopped → after.IsStopped := fun asked =>
    (isStopped_told events).mpr (Or.inl asked)
  have same : after.escaped = shift.escaped := by
    rw [escaped_told events, escaped]
    exact List.append_nil _
  have told : after.answers = shift.answers := by
    rw [answers_told events, answer]
    exact List.append_nil _
  rw [Slotted, told, same, failure, isJoinable, jobs, ← isJoinable]
  exact slotted.imp_right fun ⟨later, first, rest, empty, joinable, asked⟩ =>
    ⟨later, first, rest, empty, joinable, stopped asked⟩

end

/-- A fault that is recorded is the first, or one that came before it is. -/
private theorem first_recorded (faults : List Fault) (fault : Option Fault) :
    (faults.head? <|> fault) = (faults ++ fault.toList).head? := by
  cases faults <;> cases fault <;> rfl

section

variable {α β : Type} {items : List α} {item found : α} {telling : α → Option β}

private theorem found_append (present : (items ++ [item])[number]? = some found) :
    items[number]? = some found ∨ number = items.length ∧ found = item := by
  rw [List.getElem?_append] at present
  split at present
  · exact Or.inl present
  next outside =>
    rw [List.getElem?_singleton] at present
    split at present
    · exact Or.inr ⟨by omega, (Option.some.inj present).symm⟩
    · cases present

private theorem bind_append (silent : telling item = none) (number : Nat) :
    (items ++ [item])[number]?.bind telling = items[number]?.bind telling := by
  cases present : (items ++ [item])[number]? with
  | none =>
    rw [List.getElem?_eq_none_iff, List.length_append] at present
    rw [List.getElem?_eq_none (by omega)]
  | some found =>
    rcases found_append present with earlier | ⟨rfl, rfl⟩
    · rw [earlier]
    · rw [Option.bind_some, silent, List.getElem?_eq_none (Nat.le_refl _)]
      rfl

private theorem bind_set (there : items[number]? = some found) (silent : telling found = none)
    (other : Nat) : ((items.set number item)[other]?.bind telling).toList =
      (items[other]?.bind telling).toList ++
        if number = other then (telling item).toList else [] := by
  have inside := (List.getElem?_eq_some_iff.mp there).1
  rw [List.getElem?_set]
  by_cases same : number = other
  · subst same
    rw [if_pos rfl, if_pos inside, if_pos rfl, there, Option.bind_some, Option.bind_some, silent]
    rfl
  · simp [same]

end

theorem Manned.accept (manned : shift.Manned name) (title : shift.pool.name = name) {job : ι}
    (events : after.events = shift.events ++ [.accepted job])
    (jobs : after.pool.jobs = shift.pool.jobs ++ [.running])
    (threads : after.threads = shift.threads ++
      [{ job, title := shift.pool.threadName shift.pool.jobs.length }]) : after.Manned name := by
  refine ⟨?_, ?_, ?_, ?_, ?_, ?_⟩
  · rw [accepted_told events, threads, List.map_append, manned.accepted]
    rfl
  · rw [jobs, threads, List.length_append, List.length_append, manned.jobs]
    rfl
  · rw [threads]
    intro number thread found
    rcases found_append found with found | ⟨rfl, rfl⟩
    · exact manned.titles number thread found
    · simp only [threadName, title, manned.jobs]
  · intro number
    rw [began_told events, threads, bind_append rfl, manned.began]
    exact List.append_nil _
  · intro number
    rw [ended_told events, jobs, bind_append rfl, manned.ended]
    exact List.append_nil _
  · rw [jobs, threads]
    intro number thread fault found ended
    -- the new job runs, so the one that has ended was there before, and so was its thread
    rcases found_append ended with ended | ⟨_, same⟩
    · rcases found_append found with found | ⟨rfl, _⟩
      · exact manned.order number thread fault found ended
      · rw [← manned.jobs, List.getElem?_eq_none (Nat.le_refl _)] at ended
        cases ended
    · cases same

theorem Manned.begin (manned : shift.Manned name) {thread : Thread ι}
    (there : shift.threads[number]? = some thread) (idle : thread.begun = false)
    (events : after.events = shift.events ++ [.began number thread.job thread.title])
    (jobs : after.pool.jobs = shift.pool.jobs)
    (threads : after.threads =
      shift.threads.set number { thread with name := thread.title, begun := true }) :
    after.Manned name := by
  -- every thread is what it was but for its name and its mark
  have at_ {other : Nat} {found : Thread ι} (present : after.threads[other]? = some found) :
      ∃ earlier, shift.threads[other]? = some earlier ∧ found.title = earlier.title ∧
        (earlier.begun = true → found.begun = true) := by
    rw [threads, List.getElem?_set] at present
    split at present
    next same =>
      subst same
      split at present
      · cases present
        exact ⟨thread, there, rfl, fun _ => rfl⟩
      · cases present
    · exact ⟨found, present, rfl, id⟩
  refine ⟨?_, ?_, ?_, ?_, ?_, ?_⟩
  · have same : shift.threads.map (·.job) = (shift.threads.map (·.job)).set number thread.job := by
      obtain ⟨inside, rfl⟩ := List.getElem?_eq_some_iff.mp there
      rw [← List.map_set, List.set_getElem_self]
    rw [accepted_told events, threads, List.map_set, manned.accepted, ← same]
    exact List.append_nil _
  · rw [jobs, threads, List.length_set, manned.jobs]
  · intro other found present
    obtain ⟨earlier, present, title, _⟩ := at_ present
    rw [title, manned.titles other earlier present]
  · intro other
    have silent : thread.told? = none := by simp [Thread.told?, idle]
    rw [began_told events, threads, bind_set there silent, manned.began]
    congr 1
    simp only [Event.began?, Thread.told?, if_true]
    split <;> rfl
  · intro other
    rw [ended_told events, jobs, manned.ended]
    exact List.append_nil _
  · rw [jobs]
    intro other found fault present ended
    obtain ⟨earlier, present, _, begun⟩ := at_ present
    exact begun (manned.order other earlier fault present ended)

theorem Manned.finish (manned : shift.Manned name) {thread : Thread ι} {fault : Option Fault}
    (there : shift.threads[number]? = some thread) (begun : thread.begun = true)
    (running : shift.pool.jobs[number]? = some .running)
    (events : after.events = shift.events ++ [.ended number fault])
    (jobs : after.pool.jobs = shift.pool.jobs.set number (.ended fault))
    (threads : after.threads = shift.threads) : after.Manned name := by
  refine ⟨?_, ?_, ?_, ?_, ?_, ?_⟩
  · rw [accepted_told events, threads, manned.accepted]
    exact List.append_nil _
  · rw [jobs, threads, List.length_set, manned.jobs]
  · rw [threads]
    exact manned.titles
  · intro other
    rw [began_told events, threads, manned.began]
    exact List.append_nil _
  · intro other
    rw [ended_told events, jobs, bind_set running rfl, manned.ended]
    congr 1
    simp only [Event.ended?, Job.outcome?]
    split <;> rfl
  · rw [jobs, threads]
    intro other found outcome present ended
    rw [List.getElem?_set] at ended
    split at ended
    next same =>
      subst same
      cases Option.some.inj (there.symm.trans present)
      exact begun
    · exact manned.order other found outcome present ended

theorem Slotted.accept (slotted : shift.Slotted) {job : ι} (going : ¬ shift.IsStopped)
    (events : after.events = shift.events ++ [.accepted job])
    (failure : after.pool.failure = shift.pool.failure) : after.Slotted := by
  rcases slotted with ⟨unanswered, slot⟩ | ⟨_, _, _, _, _, asked⟩
  · refine Or.inl ⟨?_, ?_⟩
    · rw [answers_told events, unanswered]
      rfl
    · rw [failure, slot, escaped_told events]
      exact congrArg List.head? (List.append_nil _).symm
  · exact absurd asked going

theorem Slotted.finish (slotted : shift.Slotted) {fault : Option Fault}
    (running : shift.pool.jobs[number]? = some .running)
    (events : after.events = shift.events ++ [.ended number fault])
    (failure : after.pool.failure = (shift.pool.failure <|> fault)) : after.Slotted := by
  rcases slotted with ⟨unanswered, slot⟩ | ⟨_, _, _, _, joinable, _⟩
  · refine Or.inl ⟨?_, ?_⟩
    · rw [answers_told events, unanswered]
      rfl
    · rw [failure, slot, escaped_told events]
      exact first_recorded shift.escaped fault
  · exact absurd running (isJoinable_iff.mp joinable number)

/-- The first stop empties the slot, and nothing is recorded after it. -/
theorem Slotted.join (slotted : shift.Slotted) (asked : shift.IsStopped)
    (joinable : shift.pool.isJoinable = true)
    (events : after.events = shift.events ++ [.stopped shift.pool.failure])
    (jobs : after.pool.jobs = shift.pool.jobs) (failure : after.pool.failure = none) :
    after.Slotted := by
  -- no job is left that could record a fault, so the list of faults is complete
  have escaped : after.escaped = shift.escaped := (escaped_told events).trans (List.append_nil _)
  have ended : after.pool.isJoinable = true := by rwa [isJoinable, jobs, ← isJoinable]
  have stopped : after.IsStopped := (isStopped_told events).mpr (Or.inl asked)
  rw [Slotted, answers_told events, escaped]
  rcases slotted with ⟨unanswered, slot⟩ | ⟨later, first, rest, empty, _⟩
  · refine Or.inr ⟨[], ?_, by simp, failure, ended, stopped⟩
    rw [unanswered, slot]
    rfl
  · refine Or.inr ⟨later ++ [none], ?_, ?_, failure, ended, stopped⟩
    · rw [first, empty]
      rfl
    · intro answer member
      rcases List.mem_append.mp member with member | last
      · exact rest answer member
      · exact List.mem_singleton.mp last

theorem execute_refused (refused : shift.pool.stopped = true ∨
    shift.pool.capacity ≤ shift.pool.jobs.length) (job : ι) :
    ∃ refusal : Refusal, shift.execute job = shift.happen (.refused refusal.fault) := by
  by_cases stopped : shift.pool.stopped = true
  · exact ⟨.stopped shift.pool.name, by simp only [execute, Pool.execute, stopped, if_true]⟩
  · refine ⟨.full shift.pool.name shift.pool.capacity, ?_⟩
    simp only [execute, Pool.execute, stopped, refused.resolve_left stopped, if_true,
      Bool.false_eq_true, if_false]

theorem execute_accepted (going : ¬ shift.pool.stopped = true)
    (room : shift.pool.jobs.length < shift.pool.capacity) (job : ι) :
    shift.execute job = ({ shift with
      pool := { shift.pool with jobs := shift.pool.jobs ++ [.running] }
      threads := shift.threads ++
        [{ job, title := shift.pool.threadName shift.pool.jobs.length }] } : Shift ι).happen
      (.accepted job) := by
  have open_ : ¬ shift.pool.jobs.length ≥ shift.pool.capacity := Nat.not_le.mpr room
  simp only [execute, Pool.execute, going, open_, Bool.false_eq_true, if_false]

theorem Kept.execute (kept : shift.Kept name capacity owner) (going : shift.waiting = false)
    (job : ι) : (shift.execute job).Kept name capacity owner := by
  by_cases refused : shift.pool.stopped = true ∨ shift.pool.capacity ≤ shift.pool.jobs.length
  · obtain ⟨refusal, same⟩ := execute_refused refused job
    rw [same]
    have told : (shift.happen (.refused refusal.fault)).events =
      shift.events ++ [.refused refusal.fault] := rfl
    have stopped := (isStopped_told told).trans (or_iff_left (by simp))
    exact ⟨kept.title, kept.room, kept.owned, kept.stopped.trans stopped.symm,
      fun waits => stopped.mpr (kept.waiting waits),
      kept.manned.still told rfl rfl rfl (fun _ => rfl) (fun _ => rfl),
      kept.slotted.still told rfl rfl rfl rfl⟩
  · obtain ⟨open_, room⟩ := not_or.mp refused
    have same := execute_accepted open_ (Nat.not_le.mp room) job
    have told : (shift.execute job).events = shift.events ++ [.accepted job] := by
      rw [same]
      rfl
    have stopped := (isStopped_told told).trans (or_iff_left (by simp))
    have asked : ¬ shift.IsStopped := fun asked => open_ (kept.stopped.mpr asked)
    refine ⟨?_, ?_, ?_, Iff.trans ?_ stopped.symm, ?_, kept.manned.accept kept.title told ?_ ?_,
      kept.slotted.accept asked told ?_⟩ <;> rw [same]
    · exact kept.title
    · exact kept.room
    · exact kept.owned
    · exact kept.stopped
    · exact fun waits => absurd (going.symm.trans waits) Bool.false_ne_true
    · rfl
    · rfl
    · rfl

theorem Kept.stop (kept : shift.Kept name capacity owner) : shift.stop.Kept name capacity owner := by
  have told : shift.stop.events = shift.events ++ [.stopping] := rfl
  have stopped := (isStopped_told told).mpr (Or.inr rfl)
  exact ⟨kept.title, kept.room, kept.owned, iff_of_true rfl stopped, fun _ => stopped,
    kept.manned.still told rfl rfl rfl (fun _ => rfl) (fun _ => rfl),
    kept.slotted.still told rfl rfl rfl rfl⟩

theorem Kept.step (kept : shift.Kept name capacity owner) {move : Move ι}
    (stepped : shift.step move = some after) : after.Kept name capacity owner := by
  cases move with
  | execute job =>
    simp only [Shift.step] at stepped
    split at stepped
    · cases stepped
    next going =>
      cases stepped
      exact kept.execute (by simpa using going) job
  | stop =>
    simp only [Shift.step] at stepped
    split at stepped
    · cases stepped
    · cases stepped
      exact kept.stop
  | join =>
    simp only [Shift.step, Pool.stop] at stepped
    split at stepped
    next waits =>
      split at stepped
      next joinable =>
        cases stepped
        have asked := kept.waiting waits
        have told : (shift.join (shift.pool.failure,
            { shift.pool.close with failure := none })).events =
          shift.events ++ [.stopped shift.pool.failure] := rfl
        have stopped := (isStopped_told told).mpr (Or.inl asked)
        exact ⟨kept.title, kept.room, kept.owned, iff_of_true rfl stopped, fun _ => stopped,
          kept.manned.still told rfl rfl rfl (fun _ => rfl) (fun _ => rfl),
          kept.slotted.join asked joinable told rfl rfl⟩
      · cases stepped
    · cases stepped
  | begin number =>
    simp only [Shift.step] at stepped
    split at stepped
    next thread there =>
      split at stepped
      · cases stepped
      next idle =>
        cases stepped
        have told : (shift.begin number thread).events =
          shift.events ++ [.began number thread.job thread.title] := rfl
        have stopped := (isStopped_told told).trans (or_iff_left (by simp))
        exact ⟨kept.title, kept.room, kept.owned, kept.stopped.trans stopped.symm,
          fun waits => stopped.mpr (kept.waiting waits),
          kept.manned.begin there (by simpa using idle) told rfl rfl,
          kept.slotted.still told rfl rfl rfl rfl⟩
    · cases stepped
  | finish number fault =>
    simp only [Shift.step] at stepped
    split at stepped
    next thread there =>
      split at stepped
      next busy =>
        cases stepped
        simp only [isBusy, Bool.and_eq_true, decide_eq_true_eq] at busy
        obtain ⟨begun, running⟩ := busy
        have pool : (shift.finish number fault).pool = { shift.pool with
            jobs := shift.pool.jobs.set number (.ended fault)
            failure := shift.pool.failure <|> fault } := by
          simp only [Shift.finish, happen, Pool.finish, running, if_true]
        have told : (shift.finish number fault).events =
          shift.events ++ [.ended number fault] := rfl
        have stopped := (isStopped_told told).trans (or_iff_left (by simp))
        refine ⟨?_, ?_, kept.owned, ?_, fun waits => stopped.mpr (kept.waiting waits),
          kept.manned.finish there begun running told ?_ rfl, kept.slotted.finish running told ?_⟩
        · rw [pool, kept.title]
        · rw [pool, kept.room]
        · rw [pool, stopped, kept.stopped]
        · rw [pool]
        · rw [pool]
      · cases stepped
    · cases stepped

theorem play_kept (moves : List (Move ι)) (kept : shift.Kept name capacity owner)
    (played : shift.play moves = some after) : after.Kept name capacity owner := by
  induction moves generalizing shift with
  | nil =>
    cases played
    exact kept
  | cons move rest ih =>
    obtain ⟨next, stepped, played⟩ := Option.bind_eq_some_iff.mp played
    exact ih (kept.step stepped) played

/-- How a pool of this name and capacity deals with its jobs and with its owner. -/
structure Orderly (name : String) (capacity : Nat) (owner : String) (shift : Shift ι) : Prop where
  accepts : shift.waiting = false → ¬ shift.IsStopped → shift.accepted.length < capacity →
    ∀ job : ι, ∃ after, shift.step (.execute job) = some after ∧
      after.events = shift.events ++ [.accepted job]
  closed : shift.waiting = false → shift.IsStopped → ∀ job : ι,
    shift.step (.execute job) =
      some (shift.happen (.refused (.logic s!"Worker pool '{name}' has been stopped")))
  full : shift.waiting = false → ¬ shift.IsStopped → capacity ≤ shift.accepted.length →
    ∀ job : ι, shift.step (.execute job) = some (shift.happen (.refused
      (.logic s!"Worker pool '{name}' is at capacity ({capacity} threads)")))
  owned : shift.owner = owner
  /-- A thread runs nothing but the job of its number, and that once. -/
  once : ∀ number : Nat, shift.began number <+:
    (shift.accepted[number]?.map fun job => (job, s!"{name} Thread {number + 1}")).toList
  ends : ∀ number : Nat, (shift.ended number).length ≤ (shift.began number).length
  begins : ∀ number : Nat, number < shift.accepted.length → shift.began number = [] →
    ∃ after, shift.step (.begin number) = some after
  finishes : ∀ number : Nat, shift.began number ≠ [] → shift.ended number = [] →
    ∀ fault : Option Fault, ∃ after, shift.step (.finish number fault) = some after
  stops : shift.waiting = false → ∃ after, shift.step .stop = some after
  joins : shift.waiting = true →
    (∀ number : Nat, number < shift.accepted.length → shift.ended number ≠ []) →
    ∃ after, shift.step .join = some after
  /-- After a stop, each accepted job has run. -/
  served : shift.answers ≠ [] → ∀ (number : Nat) (job : ι), shift.accepted[number]? = some job →
    shift.began number = [(job, s!"{name} Thread {number + 1}")] ∧
      ∃ fault, shift.ended number = [fault]
  answered : shift.answers = [] ∨ ∃ later, shift.answers = shift.escaped.head? :: later ∧
    ∀ answer ∈ later, answer = none

/-! What follows from what every move keeps. -/

theorem Manned.accepted_length (manned : shift.Manned name) :
    shift.accepted.length = shift.pool.jobs.length := by
  rw [manned.accepted, List.length_map, manned.jobs]

theorem Manned.thread (manned : shift.Manned name) (inside : number < shift.accepted.length) :
    ∃ thread job, shift.threads[number]? = some thread ∧ shift.pool.jobs[number]? = some job ∧
      shift.accepted[number]? = some thread.job := by
  have inPool : number < shift.pool.jobs.length := manned.accepted_length ▸ inside
  have inThreads : number < shift.threads.length := manned.jobs ▸ inPool
  refine ⟨shift.threads[number], shift.pool.jobs[number], List.getElem?_eq_getElem inThreads,
    List.getElem?_eq_getElem inPool, ?_⟩
  rw [manned.accepted, List.getElem?_map, List.getElem?_eq_getElem inThreads]
  rfl

theorem Manned.outside (manned : shift.Manned name) (outside : ¬ number < shift.accepted.length) :
    shift.began number = [] ∧ shift.ended number = [] := by
  have outPool : shift.pool.jobs.length ≤ number := manned.accepted_length ▸ Nat.not_lt.mp outside
  have outThreads : shift.threads.length ≤ number := manned.jobs ▸ outPool
  rw [manned.began, manned.ended, List.getElem?_eq_none outThreads, List.getElem?_eq_none outPool]
  exact ⟨rfl, rfl⟩

section

variable (manned : shift.Manned name) {thread : Thread ι} {job : Job}
  (there : shift.threads[number]? = some thread)
include manned there

theorem Manned.told : shift.began number =
    if thread.begun then [(thread.job, s!"{name} Thread {number + 1}")] else [] := by
  rw [manned.began, there, Option.bind_some, Thread.told?, manned.titles number thread there]
  split <;> rfl

theorem Manned.begun_of_ended {fault : Option Fault}
    (placed : shift.pool.jobs[number]? = some (.ended fault)) :
    shift.began number = [(thread.job, s!"{name} Thread {number + 1}")] ∧
      shift.ended number = [fault] := by
  rw [manned.told there, if_pos (manned.order number thread fault there placed), manned.ended,
    placed]
  exact ⟨rfl, rfl⟩

end

theorem Manned.once (manned : shift.Manned name) (number : Nat) : shift.began number <+:
    (shift.accepted[number]?.map fun job => (job, s!"{name} Thread {number + 1}")).toList := by
  by_cases inside : number < shift.accepted.length
  · obtain ⟨thread, _, there, _, accepted⟩ := manned.thread inside
    rw [manned.told there, accepted]
    split
    · exact List.prefix_refl _
    · exact List.nil_prefix
  · rw [(manned.outside inside).1]
    exact List.nil_prefix

theorem Manned.ends (manned : shift.Manned name) (number : Nat) :
    (shift.ended number).length ≤ (shift.began number).length := by
  by_cases inside : number < shift.accepted.length
  · obtain ⟨thread, job, there, placed, _⟩ := manned.thread inside
    cases job with
    | running =>
      rw [manned.ended, placed]
      exact Nat.zero_le _
    | ended fault =>
      obtain ⟨began, ended⟩ := manned.begun_of_ended there placed
      rw [began, ended]
      exact Nat.le_refl _
  · rw [(manned.outside inside).2]
    exact Nat.zero_le _

theorem Manned.begins (manned : shift.Manned name) (inside : number < shift.accepted.length)
    (unbegun : shift.began number = []) : ∃ after, shift.step (.begin number) = some after := by
  obtain ⟨thread, _, there, _⟩ := manned.thread inside
  rw [manned.told there] at unbegun
  cases begun : thread.begun with
  | false =>
    refine ⟨shift.begin number thread, ?_⟩
    simp only [Shift.step, there, begun, Bool.false_eq_true, if_false]
  | true =>
    rw [begun] at unbegun
    cases unbegun

theorem Manned.finishes (manned : shift.Manned name) (began : shift.began number ≠ [])
    (unended : shift.ended number = []) (fault : Option Fault) :
    ∃ after, shift.step (.finish number fault) = some after := by
  by_cases inside : number < shift.accepted.length
  · obtain ⟨thread, job, there, placed, _⟩ := manned.thread inside
    cases job with
    | running =>
      rw [manned.told there] at began
      have begun : thread.begun = true := Bool.of_not_eq_false fun idle => began (by rw [idle]; rfl)
      have busy : shift.isBusy number thread = true := by simp [isBusy, begun, placed]
      refine ⟨shift.finish number fault, ?_⟩
      simp only [Shift.step, there, busy, if_true]
    | ended outcome =>
      rw [(manned.begun_of_ended there placed).2] at unended
      cases unended
  · exact absurd (manned.outside inside).1 began

theorem Manned.joins (manned : shift.Manned name) (waits : shift.waiting = true)
    (ended : ∀ number : Nat, number < shift.accepted.length → shift.ended number ≠ []) :
    ∃ after, shift.step .join = some after := by
  have joinable : shift.pool.isJoinable = true := by
    refine isJoinable_iff.mpr fun number running => ?_
    have inside : number < shift.pool.jobs.length := (List.getElem?_eq_some_iff.mp running).1
    refine ended number (manned.accepted_length ▸ inside) ?_
    rw [manned.ended, running]
    rfl
  exact ⟨_, by rw [Shift.step, if_pos waits, Pool.stop, if_pos joinable]; rfl⟩

/-- After a stop, each accepted job has run. -/
theorem Kept.served (kept : shift.Kept name capacity owner) (answered : shift.answers ≠ [])
    {job : ι} (accepted : shift.accepted[number]? = some job) :
    shift.began number = [(job, s!"{name} Thread {number + 1}")] ∧
      ∃ fault, shift.ended number = [fault] := by
  have inside : number < shift.accepted.length := (List.getElem?_eq_some_iff.mp accepted).1
  obtain ⟨thread, state, there, placed, same⟩ := kept.manned.thread inside
  cases Option.some.inj (same.symm.trans accepted)
  rcases kept.slotted with ⟨unanswered, _⟩ | ⟨_, _, _, _, joinable, _⟩
  · exact absurd unanswered answered
  · cases state with
    | running => exact absurd placed (isJoinable_iff.mp joinable number)
    | ended fault =>
      obtain ⟨began, ended⟩ := kept.manned.begun_of_ended there placed
      exact ⟨began, fault, ended⟩

theorem Kept.orderly (kept : shift.Kept name capacity owner) :
    shift.Orderly name capacity owner := by
  have manned := kept.manned
  have called (free : shift.waiting = false) (job : ι) :
      shift.step (.execute job) = some (shift.execute job) := by
    rw [Shift.step, free]
    rfl
  refine ⟨?_, ?_, ?_, kept.owned, manned.once, manned.ends, fun _ => manned.begins,
    fun _ => manned.finishes, ?_, manned.joins, fun answered _ _ => kept.served answered, ?_⟩
  · intro free going room job
    rw [manned.accepted_length, ← kept.room] at room
    have open_ : ¬ shift.pool.stopped = true := fun stopped => going (kept.stopped.mp stopped)
    exact ⟨_, (called free job).trans (congrArg some (execute_accepted open_ room job)), rfl⟩
  · intro free stopped job
    rw [called free job, Shift.execute, Pool.execute, if_pos (kept.stopped.mpr stopped), kept.title]
    rfl
  · intro free going full job
    rw [manned.accepted_length, ← kept.room] at full
    have open_ : ¬ shift.pool.stopped = true := fun stopped => going (kept.stopped.mp stopped)
    rw [called free job, Shift.execute, Pool.execute, if_neg open_, if_pos full, kept.title,
      kept.room]
    rfl
  · intro free
    exact ⟨shift.stop, by rw [Shift.step, free]; rfl⟩
  · rcases kept.slotted with ⟨unanswered, _⟩ | ⟨later, first, rest, _⟩
    · exact Or.inl unanswered
    · exact Or.inr ⟨later, first, rest⟩

/-- Whatever the owner calls and however the threads take turns, each accepted job runs
once, on the thread of its number, and the first stop hands out the fault that was
recorded first. -/
theorem jobs_run_once (played : (fresh name capacity owner).play moves = some shift) :
    shift.Orderly name capacity owner :=
  (play_kept moves (fresh_kept name capacity owner) played).orderly

private def reaping : List (Move String) :=
  [.execute "reap", .begin 0, .execute "bind", .execute "glean", .begin 1,
    .finish 1 (some (.runtime "twine snapped")), .stop, .finish 0 (some (.runtime "scythe bent")),
    .join, .execute "glean", .stop, .join]

private def reaped : Shift String where
  pool := { name := "crew", capacity := 2, stopped := true, jobs :=
    [.ended (some (.runtime "scythe bent")), .ended (some (.runtime "twine snapped"))] }
  owner := "farmer"
  threads := [{ job := "reap", title := "crew Thread 1", name := "crew Thread 1", begun := true },
    { job := "bind", title := "crew Thread 2", name := "crew Thread 2", begun := true }]
  events := [.accepted "reap", .began 0 "reap" "crew Thread 1", .accepted "bind",
    .refused (.logic "Worker pool 'crew' is at capacity (2 threads)"),
    .began 1 "bind" "crew Thread 2", .ended 1 (some (.runtime "twine snapped")), .stopping,
    .ended 0 (some (.runtime "scythe bent")), .stopped (some (.runtime "twine snapped")),
    .refused (.logic "Worker pool 'crew' has been stopped"), .stopping, .stopped none]

theorem reaping_runs_once :
    (fresh "crew" 2 "farmer").play reaping = some reaped ∧
      reaped.answers = [some (.runtime "twine snapped"), none] ∧
      reaped.Orderly "crew" 2 "farmer" := by
  have played : (fresh "crew" 2 "farmer").play reaping = some reaped := by decide +kernel
  exact ⟨played, by decide +kernel, jobs_run_once played⟩

end Shift
end Pool
end Foreman
