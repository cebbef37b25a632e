import Foreman.Proofs.PlanReports

/-! Stops last. Once scheduling has stopped, by a cancellation, by an abort or because a
node failed in a plan that does not go on after failures, nobody is selected any more,
whatever is called. Nodes that are being executed may still end, and nothing else
changes. -/

namespace Foreman.Plan

variable {plan : Plan} {node : Nat}

theorem stopped_iff : plan.Stopped ↔
    ∀ node, plan.state? node ≠ some .notReady ∧ plan.state? node ≠ some .ready := by
  constructor
  · intro stopped node
    constructor
    · intro waiting
      obtain ⟨entry, found, state⟩ := entry_of_state? waiting
      simpa [state, State.isUnscheduled] using stopped node entry found
    · intro ready
      obtain ⟨entry, found, state⟩ := entry_of_state? ready
      simpa [state, State.isUnscheduled] using stopped node entry found
  · intro settled node entry found
    obtain ⟨unwaiting, unready⟩ := settled node
    rw [state?_eq found] at unwaiting unready
    cases state : entry.node.state <;> simp_all [State.isUnscheduled]

/-- A stopped plan has nothing left for a cancellation to change. -/
theorem Stopped.cancel (stopped : plan.Stopped) (valid : plan.Valid) (begun : plan.Begun) :
    plan.cancel = (false, plan) := by
  have none : plan.entries.any (·.isUnscheduled) = false := stopped.hasUnscheduled
  have zero : plan.entries.countP (·.isUnscheduled) = 0 := by
    simpa [List.countP_eq_zero] using none
  have settled : plan.entries.map Entry.stop = plan.entries := by
    apply List.ext_getElem?
    intro position
    rw [List.getElem?_map]
    cases found : plan.entries[position]? with
    | none => rfl
    | some entry =>
      have seen := begun.enumerated position entry found
      have free : entry.isUnscheduled = false := stopped position entry found
      have same : entry.stop = entry := by
        simp only [Entry.stop, free, Bool.false_eq_true, if_false]
        rw [← seen]
      rw [Option.map_some, same]
  have same : plan.skipUnscheduled.2 = plan := by
    simp only [skipUnscheduled, settled, zero, ← begun.started, ← begun.next,
      ← stopped.queue valid.coherent]
    exact congrArg (fun remaining => { plan with remaining }) (Int.sub_zero plan.remaining)
  have skips : plan.skipUnscheduled.1 = false := none
  simp only [Plan.cancel, skips, Bool.false_and, Bool.false_eq_true, if_false, same]

/-- A plan all of whose nodes were handled is over once none is being executed. -/
theorem Stopped.complete_iff (stopped : plan.Stopped) (valid : plan.Valid) :
    plan.allComplete = true ↔ ∀ node, plan.state? node ≠ some .executing := by
  simp only [allComplete, decide_eq_true_eq, valid.coherent.remaining, Int.natCast_eq_zero,
    List.countP_eq_zero]
  constructor
  · intro finished node executing
    obtain ⟨entry, found, state⟩ := entry_of_state? executing
    simpa [state, State.isTerminal] using finished entry (List.mem_of_getElem? found)
  · intro idle entry member
    obtain ⟨node, found⟩ := List.mem_iff_getElem?.mp member
    have settled := stopped node entry found
    have rests := idle node
    rw [state?_eq found] at rests
    cases state : entry.node.state <;> simp_all [State.isUnscheduled, State.isTerminal]

namespace Session

variable {session start : Session} {call : Operation} {calls : List Operation}

/-! Stops. -/

inductive Stops (session : Session) : Operation → Prop
  | canceled : session.Stops .cancel
  | aborted (failure : Failure) : session.Stops (.abort failure)
  /-- Some node fails, and the plan does not go on after failures. -/
  | failed (position node : Nat) (rule : session.plan.continueOnFailure = false)
      (was : session.plan.state? node ≠ some .failed)
      (now : (session.perform (.complete position)).2.plan.state? node = some .failed) :
      session.Stops (.complete position)

/-- A node that fails in this call was being executed, and nobody is selected after it. -/
private theorem complete_stopped {position : Nat} (valid : session.plan.Valid)
    (rule : session.plan.continueOnFailure = false)
    (was : session.plan.state? node ≠ some .failed)
    (now : (session.perform (.complete position)).2.plan.state? node = some .failed) :
    (session.perform (.complete position)).2.plan.Begun ∧
      (session.perform (.complete position)).2.plan.Stopped := by
  simp only [perform] at now ⊢
  rcases complete_cases valid position session.desk.locks with
    ⟨entry, found, executing, later, ends⟩ | ⟨_, same⟩
  · refine ⟨ends.begun later, ?_⟩
    have comes := complete_closes found executing session.desk.locks
    cases failure : entry.node.failure.isSome with
    | true =>
      simp only [failure, if_true, rule, Bool.false_eq_true, if_false] at comes
      rw [comes]
      exact skipUnscheduled_stopped _
    | false =>
      -- a node that succeeds makes no other one fail
      exfalso
      by_cases own : node = position
      · simp [own, ends.state?, failure] at now
      · rcases ends.moved own (by rw [now]; exact was.symm) with ⟨_, ready⟩ | ⟨_, skipped⟩
        · simp [now] at ready
        · simp [now] at skipped
  · rw [same] at now
    exact absurd ((disown_state? session.plan (some position) node).symm.trans now) was

theorem Stops.stopped (stops : session.Stops call) (valid : session.plan.Valid) :
    (session.perform call).2.plan.Begun ∧ (session.perform call).2.plan.Stopped := by
  cases stops with
  | canceled =>
    refine ⟨valid.cancel.begun_of_started ?_, cancel_stopped session.plan⟩
    simp only [cancel]
    split <;> rfl
  | aborted failure =>
    exact ⟨(valid.abort failure).begun_of_started rfl, abort_stopped session.plan failure⟩
  | failed position node rule was now => exact complete_stopped valid rule was now

/-! What is called after a stop. -/

private theorem perform_absent (valid : session.plan.Valid) (begun : session.plan.Begun)
    (orderly : call.isOrderly = true) (absent : session.plan.entries[node]? = none) :
    (session.perform call).2.plan.entries[node]? = none := by
  rcases perform_keeps valid orderly with ⟨id, deps, resources, rfl⟩ | keeps
  · simp only [perform, add, begun.started, if_true]
    exact absent
  · rw [List.getElem?_eq_none_iff] at absent ⊢
    exact Nat.le_trans (Nat.le_of_eq keeps.size) absent

/-- Once scheduling has stopped, only nodes that are being executed change, and only
when they are completed. -/
theorem perform_settled (valid : session.plan.Valid) (begun : session.plan.Begun)
    (stopped : session.plan.Stopped) (orderly : call.isOrderly = true) (node : Nat) :
    (session.perform call).2.plan.state? node = session.plan.state? node ∨
      call = .complete node ∧ session.plan.state? node = some .executing ∧
        ((session.perform call).2.plan.state? node = some .succeeded ∨
          (session.perform call).2.plan.state? node = some .failed) := by
  cases found : session.plan.entries[node]? with
  | none =>
    have absent := perform_absent valid begun orderly found
    exact Or.inl (by simp [state?, node?, found, absent])
  | some old =>
    obtain ⟨new, present, _, fate⟩ := perform_fate valid orderly found
    have settled := stopped node old found
    rw [state?_eq found, state?_eq present]
    cases fate with
    | drifts drift => exact Or.inl (congrArg some (drift.settled settled))
    | handed ready => simp [ready, State.isUnscheduled] at settled
    | noted failure own same => exact Or.inl (by rw [same]; rfl)
    | idled own other same => exact Or.inl (by rw [same])
    | ended own executing failure state =>
      refine Or.inr ⟨own, by rw [executing], ?_⟩
      rw [state]
      split
      · exact Or.inr rfl
      · exact Or.inl rfl

theorem perform_stopped (valid : session.plan.Valid) (begun : session.plan.Begun)
    (stopped : session.plan.Stopped) (orderly : call.isOrderly = true) :
    (session.perform call).2.plan.Stopped := by
  rw [stopped_iff] at stopped ⊢
  intro node
  rcases perform_settled valid begun (stopped_iff.mpr stopped) orderly node with
    same | ⟨_, _, succeeded | failed⟩
  · rw [same]
    exact stopped node
  · simp [succeeded]
  · simp [failed]

/-- Nothing will be scheduled any more. -/
structure Still (session : Session) : Prop where
  unscheduled : ∀ node,
    session.plan.state? node ≠ some .notReady ∧ session.plan.state? node ≠ some .ready
  selects : ∀ lease book, (session.perform (.select lease book)).1 = .selected (.ok none)
  adds : ∀ id deps resources,
    session.perform (.add id deps resources) = (.added (.error (.started id)), session)
  queued : session.plan.allQueued = true
  cancels : session.perform .cancel = (.changed false, session)
  /-- Only nodes that are being executed change, and only when they are completed. -/
  moves : ∀ call : Operation, call.isOrderly = true → ∀ node,
    (session.perform call).2.plan.state? node = session.plan.state? node ∨
      call = .complete node ∧ session.plan.state? node = some .executing ∧
        ((session.perform call).2.plan.state? node = some .succeeded ∨
          (session.perform call).2.plan.state? node = some .failed)
  finished : session.plan.allComplete = true ↔ ∀ node, session.plan.state? node ≠ some .executing

theorem still_of_stopped (valid : session.plan.Valid) (begun : session.plan.Begun)
    (stopped : session.plan.Stopped) : session.Still where
  unscheduled := stopped_iff.mp stopped
  selects lease book := by
    rcases perform_select valid lease book with ⟨reply, _⟩ | ⟨node, entry, found, ready, _⟩
    · exact reply
    · have settled := stopped node entry found
      simp [ready, State.isUnscheduled] at settled
  adds id deps resources := by simp [perform, add, begun.started]
  queued := by simp [allQueued, begun.started, begun.next]
  cancels := by simp [perform, stopped.cancel valid begun]
  moves call orderly node := perform_settled valid begun stopped orderly node
  finished := stopped.complete_iff valid

theorem run_stopped (valid : start.plan.Valid) (begun : start.plan.Begun)
    (stopped : start.plan.Stopped) (orderly : ∀ call ∈ calls, call.isOrderly = true) :
    (start.run calls).plan.Begun ∧ (start.run calls).plan.Stopped := by
  apply run_keeps valid _ _ orderly
  · exact ⟨begun, stopped⟩
  · intro calls call valid orderly earlier
    rw [run_concat]
    exact ⟨perform_begun valid orderly earlier.1, perform_stopped valid earlier.1 earlier.2 orderly⟩

theorem finds_iff : session.finds call = true ↔ call = .cancel ∧
    ∃ node, session.plan.state? node = some .notReady ∨ session.plan.state? node = some .ready := by
  cases call with
  | cancel => simp [finds, hasUnscheduled_iff]
  | add _ _ _ | populate | select _ _ | complete _ | fail _ _ | abort _ | collect | locks _ | move _ _
  | force _ _ => simp [finds]

/-- Whatever is called on a fresh plan and on the locks: after a call that stops
scheduling nothing is scheduled any more, for all later calls. That holds of a plan that
was not enumerated, and of one without nodes. Over the whole life of the plan at most one
cancellation is noted as a failure, and one is if and only if some cancellation finds a
node that is waiting or ready. No other canceled failure is noted but those that aborts
hand in. -/
theorem stops_last (name : String) (scope : Nat) (rule : Bool) (desk : Desk)
    (calls : List Operation) (orderly : ∀ call ∈ calls, call.isOrderly = true) :
    let start : Session := { plan := empty name scope rule, desk }
    (∀ past stop later, calls = past ++ stop :: later → (start.run past).Stops stop →
      (start.run calls).Still) ∧
    start.cancellations calls ∈ [[], [Failure.ofCancellation name]] ∧
    (start.cancellations calls ≠ [] ↔ ∃ step ∈ start.chronicle calls, step.2 = .cancel ∧
      ∃ node, step.1.plan.state? node = some .notReady ∨ step.1.plan.state? node = some .ready) ∧
    (start.filed calls).countP Failure.isCanceled = (start.cancellations calls).length +
      (calls.filterMap Operation.handed?).countP Failure.isCanceled := by
  intro start
  have fresh : start.plan.Valid := (empty_valid name scope rule).1
  obtain ⟨own, found, count⟩ := run_recorded fresh rfl orderly
  refine ⟨?_, own, ?_, count⟩
  · rintro past stop later rfl stops
    have before : ∀ call ∈ past, call.isOrderly = true := fun call member =>
      orderly call (List.mem_append_left _ member)
    have after : ∀ call ∈ later, call.isOrderly = true := fun call member =>
      orderly call (List.mem_append_right _ (List.mem_cons_of_mem _ member))
    have valid := run_valid fresh before
    have last := (perform_orderly valid (orderly stop (by simp))).1
    obtain ⟨begun, stopped⟩ := stops.stopped valid
    obtain ⟨begun, stopped⟩ := run_stopped last begun stopped after
    rw [run_append]
    exact still_of_stopped (run_valid last after) begun stopped
  · rw [found]
    simp only [finds_iff]

private def gathering : List Operation :=
  [ .add "apples" [] [], .add "pears" [] ["ladder"], .add "cider" ["apples", "pears"] ["press"],
    .locks (.createTree "crew" 2), .locks (.createChild ⟨0, 0⟩), .locks (.createChild ⟨0, 0⟩),
    .populate, .select ⟨0, 1⟩ 0, .select ⟨0, 2⟩ 0 ]

private def aftermath : List Operation :=
  [ .complete 0, .fail 1 (.internal "rotten"), .add "nuts" [] [], .cancel, .complete 1, .populate,
    .select ⟨0, 1⟩ 0, .abort (.internal "over"), .cancel ]

private def orchard : Session :=
  { plan := empty "orchard" 0 false, desk := { books := [{}] } }

theorem gathering_stopped :
    (orchard.run (gathering ++ .cancel :: aftermath)).Still ∧
    (orchard.run (gathering ++ .cancel :: aftermath)).plan.entries.map (·.node.state) =
      [.succeeded, .failed, .skipped] ∧
    orchard.cancellations (gathering ++ .cancel :: aftermath) =
      [Failure.ofCancellation "orchard"] ∧
    (orchard.filed (gathering ++ .cancel :: aftermath)).countP Failure.isCanceled = 1 := by
  obtain ⟨still, _, _, count⟩ :=
    stops_last "orchard" 0 false { books := [{}] } (gathering ++ .cancel :: aftermath) (by decide)
  have noted : orchard.cancellations (gathering ++ .cancel :: aftermath) =
      [Failure.ofCancellation "orchard"] := by decide +kernel
  have unhanded : ((gathering ++ .cancel :: aftermath).filterMap Operation.handed?).countP
      Failure.isCanceled = 0 := by decide
  rw [unhanded] at count
  exact ⟨still gathering .cancel aftermath rfl .canceled, by decide +kernel, noted,
    count.trans (congrArg List.length noted)⟩

end Session
end Foreman.Plan
