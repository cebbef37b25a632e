import Foreman.Proofs.Corner

/-! What a worker meets with while it executes a node: what it gives to the log, that
it invokes the action, and what the action does. Whatever of this is a failure is
recorded on the node, in that order. -/

namespace Foreman.Executor

inductive Occurrence where
  /-- The log was given an event, and may have raised a fault. -/
  | logged (event : Event) (fault : Option Fault)
  | invoked
  /-- The action recorded a failure of its node and went on. -/
  | noted (failure : Failure)
  | ended (result : Result)

def Result.failure? : Result → Option Failure
  | .returned failure => failure
  | .raised fault => some (.ofFault .execution (some fault))

namespace Occurrence

def fault? : Occurrence → Option Fault
  | .logged _ fault => fault
  | .ended (.raised fault) => some fault
  | .invoked | .noted _ | .ended (.returned _) => none

/-- The failure of the node that this is, if it is one. -/
def failure? : Occurrence → Option Failure
  | .logged _ fault => fault.map fun fault => .ofFault .execution (some fault)
  | .invoked => none
  | .noted failure => some failure
  | .ended result => result.failure?

def line? (plan : String) : Occurrence → Option Line
  | .logged event _ => some (event.line plan)
  | .invoked | .noted _ | .ended _ => none

def failures (occurrences : List Occurrence) : List Failure := occurrences.filterMap failure?

theorem failure_of_fault {occurrence : Occurrence} {fault : Fault}
    (raised : occurrence.fault? = some fault) :
    ∃ failure, occurrence.failure? = some failure ∧ failure.category = .execution ∧
      failure.code = 5002 := by
  have report : (Failure.ofFault .execution (some fault)).category = .execution ∧
      (Failure.ofFault .execution (some fault)).code = 5002 := by
    cases fault <;> exact ⟨rfl, rfl⟩
  refine ⟨_, ?_, report⟩
  cases occurrence with
  | logged event answer =>
    cases raised
    rfl
  | ended result =>
    cases result <;> cases raised
    rfl
  | invoked | noted => cases raised

def lines (sink : Option Sink) (plan : String) (occurrences : List Occurrence) : List Line :=
  if sink.isSome then occurrences.filterMap (line? plan) else []

theorem failures_append (earlier later : List Occurrence) :
    failures (earlier ++ later) = failures earlier ++ failures later := List.filterMap_append

theorem lines_append (sink : Option Sink) (plan : String) (earlier later : List Occurrence) :
    lines sink plan (earlier ++ later) = lines sink plan earlier ++ lines sink plan later := by
  unfold lines
  split
  · exact List.filterMap_append
  · rfl

end Occurrence

namespace World

variable {world : World} {index worker node : Nat} {call : Call} {driven : Driven}

def tells (world : World) (call : Call) (event : Event) : Occurrence :=
  .logged event (world.record call event).1

def beginning (world : World) (call : Call) (id thread : String) : List Occurrence :=
  world.tells call (.nodeStarted id thread) ::
    match (world.record call (.nodeStarted id thread)).1, call.action with
    | some _, _ => []
    | none, none => [.invoked, .ended (.raised .emptyCall)]
    | none, some _ => [.invoked]

def ending (world : World) (call : Call) (id thread : String) : Result → List Occurrence
  | .raised fault => [.ended (.raised fault)]
  | .returned failure =>
    [.ended (.returned failure), world.tells call (.nodeCompleted id thread 0)]

def instructed (world : World) (index worker : Nat) (call : Call) (plan : Plan) (node : Nat)
    (id : String) (instruction : Instruction) : List Occurrence :=
  match world.follow index worker call plan node id instruction, instruction with
  | .goOn .., .fail failure => [.noted failure]
  | .ends result, _ => world.ending call id (call.pool.threadName worker) result
  | _, _ => []

/-- What the next step of a worker in this phase comes to for its node. -/
def phaseOccurrences (world : World) (index worker : Nat) (call : Call) (driven : Driven) :
    Phase → List Occurrence
  | .chosen _ position =>
    ((driven.plan.node? position).map fun node =>
      world.beginning call node.id (call.pool.threadName worker)).getD []
  | .acting _ position rest none =>
    ((driven.plan.node? position).map fun node =>
      match rest with
      | [] => world.ending call node.id (call.pool.threadName worker) (.returned none)
      | instruction :: _ =>
        world.instructed index worker call driven.plan position node.id instruction).getD []
  | .hired | .choosing .. | .acting _ _ _ (some _) | .completing .. | .retiring _ | .failing ..
  | .gone _ => []

/-- What the next step of a worker comes to for the node that it executes. -/
def occurrences (world : World) (index worker : Nat) : List Occurrence :=
  match world.calls[index]? with
  | none => []
  | some call =>
    match world.plans[call.plan]?, call.workers[worker]? with
    | some driven, some phase => world.phaseOccurrences index worker call driven phase
    | _, _ => []

theorem record_fault (world : World) (call : Call) (event : Event) :
    (world.record call event).1 = call.executor.sink.bind (· world.log.length event) := by
  cases sink : call.executor.sink <;> simp [record, Sink.record, sink]

theorem record_log {name : String} (event : Event)
    (named : (world.plans[call.plan]?).map (·.plan.name) = some name) :
    (world.record call event).2.log =
      world.log ++ Occurrence.lines call.executor.sink name [world.tells call event] := by
  cases sink : call.executor.sink <;>
    simp [record, Sink.record, sink, Occurrence.lines, named, tells, Occurrence.line?]

theorem failNode_name (world : World) (plan node : Nat) (failure : Failure) (place : Nat) :
    ((world.failNode plan node failure).plans[place]?).map (·.plan.name) =
      (world.plans[place]?).map (·.plan.name) := by
  simp only [failNode, modifyPlan, List.getElem?_modify]
  split <;> simp [Function.comp_def, Plan.failNode, Plan.modifyNode, Plan.modify]

variable {origin after : World} {corner : Corner} {events : List Happening}
  {occurrences : List Occurrence} {next : Phase}

theorem withFailures_append (corner : Corner) (node : Nat) (earlier later : List Failure) :
    (corner.withFailures node earlier).withFailures node later =
      corner.withFailures node (earlier ++ later) := by
  simp only [Corner.withFailures, Plan.failAll, List.foldl_append]

/-- An event of a node is given to the log, and recorded on the node if that fails. -/
theorem recordOnNode_shows {name : String} (shown : Shows origin index call.plan world corner events)
    (named : (world.plans[call.plan]?).map (·.plan.name) = some name) (node : Nat) (event : Event) :
    Shows origin index call.plan (world.recordOnNode call node event).2
        (corner.withFailures node (Occurrence.failures [world.tells call event])) events ∧
      (world.recordOnNode call node event).1 = (world.record call event).1.isNone ∧
      (world.recordOnNode call node event).2.log =
        world.log ++ Occurrence.lines call.executor.sink name [world.tells call event] := by
  have wrote := record_log event named
  unfold recordOnNode
  simp only [tells] at wrote ⊢
  cases recorded : world.record call event with
  | mk fault after =>
    have told := shown.record recorded
    rw [recorded] at wrote
    cases fault with
    | none => exact ⟨told, rfl, wrote⟩
    | some fault => exact ⟨told.failNode node _, rfl, wrote⟩

/-- A step that a worker makes on behalf of its node. It comes to these occurrences and
to a phase, in a corner that is otherwise as given. -/
structure Strides (world : World) (index worker node : Nat) (call : Call) (driven : Driven)
    (corner : Corner) (occurrences : List Occurrence) (next : Phase) (events : List Happening)
    (after : World) : Prop where
  shown : Shows world index call.plan after
    ((corner.withFailures node (Occurrence.failures occurrences)).withPhase worker next) events
  log : after.log = world.log ++
    Occurrence.lines call.executor.sink driven.plan.name occurrences

section
variable (found : world.calls[index]? = some call) (planned : world.plans[call.plan]? = some driven)
include found planned

/-- A worker begins with its node. It acts if the log raised no fault and there is an
action, and else is done with the node. -/
theorem start_strides (worker : Nat) (lease : Lease) (node : Nat) {entry : Entry}
    (running : entry.node.state.isTerminal = false) :
    world.Strides index worker node call driven (world.cornerOf call driven)
      (world.beginning call entry.node.id (call.pool.threadName worker))
      (match (world.record call (.nodeStarted entry.node.id (call.pool.threadName worker))).1,
        call.action with
      | none, some action => .acting lease node (action entry.node.id) none
      | _, _ => .completing lease node)
      (match (world.record call (.nodeStarted entry.node.id (call.pool.threadName worker))).1,
        call.action with
      | none, some _ => [.started index node]
      | _, _ => [])
      (world.start index worker call lease node entry.node) := by
  have named : (world.plans[call.plan]?).map (·.plan.name) = some driven.plan.name := by
    simp [planned]
  obtain ⟨shown, logged, wrote⟩ := recordOnNode_shows (Shows.refl found planned) named node
    (.nodeStarted entry.node.id (call.pool.threadName worker))
  simp only [start, running, Bool.false_eq_true, if_false, beginning]
  cases recorded : world.recordOnNode call node
      (.nodeStarted entry.node.id (call.pool.threadName worker)) with
  | mk well told =>
    rw [recorded] at shown logged wrote
    subst logged
    cases answer : (world.record call
        (.nodeStarted entry.node.id (call.pool.threadName worker))).1 with
    | some fault => exact ⟨shown.setPhase worker _, wrote⟩
    | none =>
      have silent : Occurrence.failures
          [world.tells call (.nodeStarted entry.node.id (call.pool.threadName worker))] = [] := by
        simp [Occurrence.failures, Occurrence.failure?, tells, answer]
      have rest (others : List Occurrence) : Occurrence.failures
          (world.tells call (.nodeStarted entry.node.id (call.pool.threadName worker)) :: others) =
            Occurrence.failures others := by
        rw [← List.singleton_append, Occurrence.failures_append, silent, List.nil_append]
      rw [silent] at shown
      cases given : call.action with
      | none =>
        refine ⟨?_, wrote⟩
        rw [rest]
        exact (shown.failNode node _).setPhase worker _
      | some action =>
        refine ⟨?_, wrote⟩
        rw [rest]
        exact (shown.happen _).setPhase worker _

theorem endAction_strides (worker : Nat) (lease : Lease) (node : Nat) (id : String)
    (result : Result) :
    world.Strides index worker node call driven (world.cornerOf call driven)
      (world.ending call id (call.pool.threadName worker) result) (.completing lease node)
      [.ended index node] (world.endAction index worker call lease node id result) := by
  have ended := (Shows.refl found planned).happen (.ended index node)
  cases result with
  | raised fault =>
    refine ⟨(ended.failNode node _).setPhase worker _, ?_⟩
    simp [endAction, settleAction, captureFault, failNode, modifyPlan, happen, setPhase, ending,
      Occurrence.lines, Occurrence.line?]
  | returned failure =>
    obtain ⟨told, told_eq, shown, log, named⟩ : ∃ told : World,
        told = failure.elim (world.happen (.ended index node))
          ((world.happen (.ended index node)).failNode call.plan node) ∧
        Shows world index call.plan told
          ((world.cornerOf call driven).withFailures node failure.toList) [.ended index node] ∧
        told.log = world.log ∧
        (told.plans[call.plan]?).map (·.plan.name) = some driven.plan.name := by
      cases failure with
      | none => exact ⟨_, rfl, ended, rfl, by simp [happen, planned]⟩
      | some failure =>
        exact ⟨_, rfl, ended.failNode node failure, rfl, by simp [failNode_name, happen, planned]⟩
    have same : told.tells call (.nodeCompleted id (call.pool.threadName worker) 0) =
        world.tells call (.nodeCompleted id (call.pool.threadName worker) 0) := by
      simp only [tells, record_fault, log]
    obtain ⟨shown, _, wrote⟩ := recordOnNode_shows shown named node
      (.nodeCompleted id (call.pool.threadName worker) 0)
    rw [same] at shown wrote
    rw [withFailures_append] at shown
    have failures : failure.toList ++ Occurrence.failures
        [world.tells call (.nodeCompleted id (call.pool.threadName worker) 0)] =
      Occurrence.failures (world.ending call id (call.pool.threadName worker) (.returned failure)) := by
      cases failure <;> rfl
    rw [failures] at shown
    rw [endAction, settleAction, ← told_eq]
    refine ⟨shown.setPhase worker _, ?_⟩
    rw [setPhase, wrote, log]
    rfl

omit found planned in
theorem ending_failures (world : World) (call : Call) (id thread : String) (result : Result) :
    Sink.Raises call.executor.sink ∨
      Occurrence.failures (world.ending call id thread result) = result.failure?.toList := by
  cases result with
  | raised fault => exact Or.inr rfl
  | returned failure =>
    cases answer : (world.record call (.nodeCompleted id thread 0)).1 with
    | some fault => exact Or.inl (raises_of_record (Prod.ext answer rfl))
    | none =>
      right
      cases failure <;> simp [ending, tells, answer, Occurrence.failures, Occurrence.failure?, Result.failure?]

/-- An instruction was followed and the action goes on, perhaps with a request for
cancellation of its own. -/
theorem follow_strides (lease : Lease) {id : String} {instruction : Instruction}
    (rest : List Instruction) {request : Option Request} (started : driven.plan.started = true)
    (followed : world.follow index worker call driven.plan node id instruction = .goOn after request) :
    ∃ notes, world.Strides index worker node call driven
        { world.cornerOf call driven with call.notes := notes }
        (world.instructed index worker call driven.plan node id instruction)
        (.acting lease node rest request) []
        (after.setPhase index worker (.acting lease node rest request)) ∧
      ∀ asked, request = some asked → asked = .raise := by
  have silently {notes : List (String × Note)} {later : World}
      (shown : Shows world index call.plan later
        { world.cornerOf call driven with call.notes := notes } []) (log : later.log = world.log) :
      world.Strides index worker node call driven
        { world.cornerOf call driven with call.notes := notes } [] (.acting lease node rest request) []
        (later.setPhase index worker (.acting lease node rest request)) :=
    ⟨shown.setPhase worker _, log.trans (by simp [Occurrence.lines])⟩
  have shown := Shows.refl found planned
  unfold instructed
  rw [followed]
  cases instruction with
  | err failure | throw fault => cases followed
  | check =>
    simp only [follow] at followed
    split at followed
    · cases followed
    · cases followed
      exact ⟨call.notes, silently shown rfl, by simp⟩
  | fail failure =>
    cases followed
    refine ⟨call.notes, ⟨(shown.failNode node failure).setPhase worker _, ?_⟩, by simp⟩
    simp [setPhase, failNode, modifyPlan, Occurrence.lines, Occurrence.line?]
  | cancel =>
    cases followed
    exact ⟨call.notes, silently shown rfl, by simp⟩
  | see =>
    cases followed
    cases driven.plan.view? node world.locks with
    | none => exact ⟨call.notes, silently shown rfl, by simp⟩
    | some view => exact ⟨_, silently (shown.note id _) rfl, by simp⟩
  | thread =>
    cases followed
    exact ⟨_, silently (shown.note id _) rfl, by simp⟩
  | add added =>
    have refused : driven.plan.add added [] [] = .error (.started added) := by
      simp [Plan.add, started]
    simp only [follow, refused] at followed
    cases followed
    exact ⟨_, silently (shown.note id _) rfl, by simp⟩
  | barrier count | await ids =>
    simp only [follow] at followed
    split at followed
    · cases followed
      exact ⟨call.notes, silently shown rfl, by simp⟩
    · cases followed

end

end World
end Foreman.Executor
