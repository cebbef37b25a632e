import Foreman.Proofs.OwnershipTurns

/-! How the execution of a node goes. Its account lists what its worker meets with, and
an account takes one of four courses: the start cannot be logged, there is no action,
the action raises a fault, or it returns and the end is given to the log. -/

namespace Foreman.Executor

def Instruction.noted : Instruction → List Failure
  | .fail failure => [failure]
  | _ => []

def Instruction.isLast : Instruction → Bool
  | .err _ | .throw _ => true
  | _ => false

/-- Who follows these instructions can record these failures on the way and end so. A
check raises a fault or does not, as cancellation was requested or not. -/
inductive Conduct : List Instruction → List Failure → Result → Prop
  | exhaust : Conduct [] [] (.returned none)
  | err {failure : Failure} {rest : List Instruction} :
      Conduct (.err failure :: rest) [] (.returned (some failure))
  | throw {fault : Fault} {rest : List Instruction} : Conduct (.throw fault :: rest) [] (.raised fault)
  | canceled {rest : List Instruction} : Conduct (.check :: rest) [] (.raised Cancel.canceledFault)
  | goOn {instruction : Instruction} {rest : List Instruction} {noted : List Failure}
      {result : Result} (stays : instruction.isLast = false)
      (conduct : Conduct rest noted result) :
      Conduct (instruction :: rest) (instruction.noted ++ noted) result

/-- What a worker meets with from the selection of a node until its action has ended. -/
inductive Executed (id thread : String) (action : Option Action) : List Occurrence → Prop
  | unlogged (fault : Fault) : Executed id thread action [.logged (.nodeStarted id thread) (some fault)]
  | empty (absent : action = none) :
      Executed id thread action
        [.logged (.nodeStarted id thread) none, .invoked, .ended (.raised .emptyCall)]
  | raised {present : Action} {noted : List Failure} {fault : Fault} (given : action = some present)
      (conduct : Conduct (present id) noted (.raised fault)) :
      Executed id thread action
        (.logged (.nodeStarted id thread) none :: .invoked :: noted.map .noted ++
          [.ended (.raised fault)])
  | returned {present : Action} {noted : List Failure} {failure : Option Failure}
      (told : Option Fault) (given : action = some present)
      (conduct : Conduct (present id) noted (.returned failure)) :
      Executed id thread action
        (.logged (.nodeStarted id thread) none :: .invoked :: noted.map .noted ++
          [.ended (.returned failure), .logged (.nodeCompleted id thread 0) told])

section

variable {id thread : String} {action : Option Action} {account : List Occurrence}

theorem Executed.invoked_iff (executed : Executed id thread action account) :
    .invoked ∈ account ↔ .logged (.nodeStarted id thread) none ∈ account := by
  cases executed <;> simp

theorem Executed.completed_iff (executed : Executed id thread action account) :
    (∃ fault, .logged (.nodeCompleted id thread 0) fault ∈ account) ↔
      ∃ failure, .ended (.returned failure) ∈ account := by
  cases executed <;> simp

end

/-- How far the execution of a node has come, by the phase of its worker. -/
inductive Progress (id thread : String) (action : Option Action) (lease : Lease) (node : Nat) :
    List Occurrence → Phase → Prop
  | chosen : Progress id thread action lease node [] (.chosen lease node)
  | acting {present : Action} {noted : List Failure} {rest : List Instruction}
      (request : Option Request) (given : action = some present)
      (goes : ∀ more result, Conduct rest more result → Conduct (present id) (noted ++ more) result) :
      Progress id thread action lease node
        (.logged (.nodeStarted id thread) none :: .invoked :: noted.map .noted)
        (.acting lease node rest request)
  | completing {account : List Occurrence} (executed : Executed id thread action account) :
      Progress id thread action lease node account (.completing lease node)

namespace World

variable {world after : World} {index worker node : Nat} {call : Call} {driven : Driven}
  {instruction : Instruction} {id thread : String} {rest : List Instruction} {lease : Lease}
  {account : List Occurrence}

theorem advanceRequest_log (world : World) (request : Request) :
    (world.advanceRequest request).2.log = world.log := by
  unfold advanceRequest
  split
  · split <;> rfl
  all_goals rfl

theorem instructed_goOn (rest : List Instruction) {request : Option Request}
    (followed : world.follow index worker call driven.plan node id instruction = .goOn after request) :
    world.instructed index worker call driven.plan node id instruction =
        instruction.noted.map .noted ∧
      ∀ more result, Conduct rest more result →
        Conduct (instruction :: rest) (instruction.noted ++ more) result := by
  have stays : instruction.isLast = false := by
    cases instruction <;> first | rfl | cases followed
  refine ⟨?_, fun more result conduct => .goOn stays conduct⟩
  unfold instructed
  rw [followed]
  cases instruction <;> rfl

theorem instructed_ends (rest : List Instruction) {result : Result}
    (followed : world.follow index worker call driven.plan node id instruction = .ends result) :
    world.instructed index worker call driven.plan node id instruction =
        world.ending call id (call.pool.threadName worker) result ∧
      Conduct (instruction :: rest) [] result := by
  refine ⟨by unfold instructed; rw [followed], ?_⟩
  cases instruction with
  | fail failure | cancel | see | thread => cases followed
  | err failure =>
    cases followed
    exact .err
  | throw fault =>
    cases followed
    exact .throw
  | check =>
    simp only [follow] at followed
    split at followed <;> cases followed
    exact .canceled
  | add added =>
    simp only [follow] at followed
    split at followed <;> cases followed
  | barrier count | await ids =>
    simp only [follow] at followed
    split at followed <;> cases followed

structure Goes (before later : Corner) : Prop where
  call : ∃ notes, later.call = { before.call with notes }
  plan : later.plan = before.plan
  hooks : later.hooks = before.hooks

/-- A worker gets on with its node: it makes a stride, and the account of its node grows
by what the stride comes to. -/
def Proceeds (world : World) (index worker node : Nat) (call : Call) (driven : Driven)
    (lease : Lease) (id : String) (account : List Occurrence) (phase : Phase) (after : World) :
    Prop :=
  ∃ corner next events,
    Goes (world.cornerOf call driven) corner ∧
    world.Strides index worker node call driven corner
      (world.phaseOccurrences index worker call driven phase) next events after ∧
    Progress id (call.pool.threadName worker) call.action lease node
      (account ++ world.phaseOccurrences index worker call driven phase) next ∧
    (.started index node ∈ events ↔
      .invoked ∈ world.phaseOccurrences index worker call driven phase ∧ call.action.isSome = true)

section

variable (found : world.calls[index]? = some call) (planned : world.plans[call.plan]? = some driven)
include found planned

theorem start_proceeds {entry : Entry} (present : driven.plan.entries[node]? = some entry)
    (running : entry.node.state.isTerminal = false) :
    world.Proceeds index worker node call driven lease entry.node.id [] (.chosen lease node)
      (world.start index worker call lease node entry.node) := by
  have stride := start_strides found planned worker lease node running
  have occurrences : world.phaseOccurrences index worker call driven (.chosen lease node) =
      world.beginning call entry.node.id (call.pool.threadName worker) := by
    simp only [phaseOccurrences, Plan.node?_eq present, Option.map_some, Option.getD_some]
  refine ⟨_, _, _, ⟨⟨call.notes, rfl⟩, rfl, rfl⟩, occurrences ▸ stride, ?_⟩
  rw [occurrences, List.nil_append]
  simp only [beginning, tells]
  cases answer : (world.record call
      (.nodeStarted entry.node.id (call.pool.threadName worker))).1 with
  | some fault => exact ⟨.completing (.unlogged fault), by simp⟩
  | none =>
    cases given : call.action with
    | none => exact ⟨.completing (.empty rfl), by simp⟩
    | some action =>
      have acting : Progress entry.node.id (call.pool.threadName worker) (some action) lease node
          (.logged (.nodeStarted entry.node.id (call.pool.threadName worker)) none :: .invoked ::
            List.map .noted []) (.acting lease node (action entry.node.id) none) :=
        .acting none rfl fun more result conduct => conduct
      exact ⟨acting, by simp⟩

/-- The action ends, as it can, after what it has recorded. -/
theorem endAction_proceeds {action : Action} {noted : List Failure} {phase : Phase}
    (given : call.action = some action) (result : Result)
    (conduct : Conduct (action id) noted result)
    (occurrences : world.phaseOccurrences index worker call driven phase =
      world.ending call id (call.pool.threadName worker) result) :
    world.Proceeds index worker node call driven lease id
      (.logged (.nodeStarted id (call.pool.threadName worker)) none :: .invoked :: noted.map .noted)
      phase (world.endAction index worker call lease node id result) := by
  have stride := endAction_strides found planned worker lease node id result
  refine ⟨_, _, _, ⟨⟨call.notes, rfl⟩, rfl, rfl⟩, occurrences ▸ stride, ?_⟩
  rw [occurrences]
  cases result with
  | raised fault => exact ⟨.completing (.raised given conduct), by simp [ending]⟩
  | returned failure => exact ⟨.completing (.returned _ given conduct), by simp [ending, tells]⟩

theorem act_proceeds {entry : Entry} (present : driven.plan.entries[node]? = some entry)
    (started : driven.plan.started = true) {request : Option Request}
    (progress : Progress entry.node.id (call.pool.threadName worker) call.action lease node account
      (.acting lease node rest request))
    (acted : world.act index worker call driven.plan lease node entry.node.id rest request =
      some after) :
    world.Proceeds index worker node call driven lease entry.node.id account
      (.acting lease node rest request) after := by
  have known := Plan.node?_eq present
  cases progress with
  | acting request given goes =>
    cases request with
    | some request =>
      simp only [act, Option.some.injEq] at acted
      subst acted
      obtain ⟨events, outside, _⟩ := advanceRequest_outside world request
      have shown := ((Shows.refl found planned).outside outside).setPhase worker
        (.acting lease node rest (world.advanceRequest request).1)
      have stride : world.Strides index worker node call driven
          { world.cornerOf call driven with
            generation := (world.advanceRequest request).2.generation
            canceled := (world.advanceRequest request).2.token.canceled } [] _ _ _ :=
        ⟨shown, by simp [setPhase, advanceRequest_log, Occurrence.lines]⟩
      have silent : .started index node ∉ events := by
        intro member
        cases outside.foreign _ member
      refine ⟨_, _, _, ?_, stride, ?_, by simp [phaseOccurrences, silent]⟩
      · exact ⟨⟨call.notes, rfl⟩, rfl, rfl⟩
      simp only [phaseOccurrences, List.append_nil]
      exact .acting _ given goes
    | none =>
      cases rest with
      | nil =>
        cases acted
        have conduct := goes [] (.returned none) .exhaust
        rw [List.append_nil] at conduct
        apply endAction_proceeds found planned given (.returned none) conduct
        simp only [phaseOccurrences, known, Option.map_some, Option.getD_some]
      | cons instruction rest =>
        have occurrences : world.phaseOccurrences index worker call driven
            (.acting lease node (instruction :: rest) none) =
              world.instructed index worker call driven.plan node entry.node.id instruction := by
          simp only [phaseOccurrences, known, Option.map_some, Option.getD_some]
        simp only [act] at acted
        split at acted
        next followed =>
          cases acted
          obtain ⟨notes, stride, _⟩ := follow_strides found planned lease rest started followed
          obtain ⟨told, conduct⟩ := instructed_goOn rest followed
          refine ⟨_, _, _, ?_, occurrences ▸ stride, ?_, ?_⟩
          · exact ⟨⟨notes, rfl⟩, rfl, rfl⟩
          · rw [occurrences, told, List.cons_append, List.cons_append, ← List.map_append]
            refine .acting _ given fun more result conducts => ?_
            rw [List.append_assoc]
            exact goes _ _ (conduct more result conducts)
          · simp [occurrences, told]
        next followed =>
          cases acted
          obtain ⟨told, conduct⟩ := instructed_ends rest followed
          have conduct := goes [] _ conduct
          rw [List.append_nil] at conduct
          exact endAction_proceeds found planned given _ conduct (occurrences.trans told)
        · cases acted

end

end World
end Foreman.Executor
