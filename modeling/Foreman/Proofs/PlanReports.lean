import Foreman.Proofs.PlanBooks
import Foreman.Proofs.PlanCalls

/-! What calls report. Cancellations and aborts are the calls that note a failure of the
plan as a whole. An abort notes the one that it is given; of all cancellations only the
first that finds a node which nobody has selected notes one. -/

namespace Foreman

def Failure.isCanceled (failure : Failure) : Bool := failure.category = .canceled

namespace Plan

def Operation.handed? : Operation → Option Failure
  | .abort failure => some failure
  | _ => none

namespace Session

variable {session start : Session} {call : Operation} {calls : List Operation}

/-- The call is a cancellation and finds a node that nobody has selected yet. -/
def finds (session : Session) : Operation → Bool
  | .cancel => session.plan.hasUnscheduled
  | _ => false

def recorded (session : Session) (call : Operation) : List Failure :=
  (session.perform call).2.plan.failures.drop session.plan.failures.length

def canceled (session : Session) : Operation → List Failure
  | .cancel => session.recorded .cancel
  | _ => []

/-- All failures that the calls note, in the order of the calls. -/
def filed (start : Session) (calls : List Operation) : List Failure :=
  (start.chronicle calls).flatMap fun step => step.1.recorded step.2

def cancellations (start : Session) (calls : List Operation) : List Failure :=
  (start.chronicle calls).flatMap fun step => step.1.canceled step.2

theorem filed_concat : start.filed (calls ++ [call]) =
    start.filed calls ++ (start.run calls).recorded call := by
  simp [filed, chronicle_concat]

theorem cancellations_concat : start.cancellations (calls ++ [call]) =
    start.cancellations calls ++ (start.run calls).canceled call := by
  simp [cancellations, chronicle_concat]

/-! The books after one call. -/

/-- What a call makes of the books of the plan. -/
inductive Enters (session : Session) (call : Operation) (after : Plan) : Prop
  | nothing (unfound : session.finds call = false) (unhanded : call.handed? = none)
      (same : after.books = session.plan.books)
  | drained (own : call = .collect)
      (empty : after.books = (session.plan.cancelRecorded, true, []))
  | canceled (own : call = .cancel) (books : after.books = session.plan.cancel.2.books)
  | aborted (failure : Failure) (own : call = .abort failure)
      (books : after.books = (session.plan.cancelRecorded, session.plan.collected,
        session.plan.failures ++ [failure.withDetail "plan" session.plan.name]))

theorem perform_enters (valid : session.plan.Valid) (orderly : call.isOrderly = true) :
    session.Enters call (session.perform call).2.plan := by
  cases call with
  | move _ _ | force _ _ => cases orderly
  | cancel => exact .canceled rfl rfl
  | abort failure => exact .aborted failure rfl rfl
  | populate => exact .nothing rfl rfl (books_populate _)
  | complete position => exact .nothing rfl rfl (books_complete _ position _)
  | fail position failure => exact .nothing rfl rfl rfl
  | locks command => exact .nothing rfl rfl rfl
  | collect =>
    cases collected : session.plan.collected with
    | true =>
      refine .nothing rfl rfl ?_
      simp [perform, collect, collected]
    | false =>
      refine .drained rfl ?_
      simp [perform, collect, collected, books]
  | add id deps resources =>
    refine .nothing rfl rfl ?_
    simp only [perform]
    split
    next added =>
      obtain ⟨_, _, _, rfl⟩ := add_attached added
      rfl
    · rfl
  | select lease book =>
    refine .nothing rfl rfl ?_
    rcases perform_select valid lease book with ⟨_, same⟩ | ⟨node, entry, _, _, _, hands⟩
    · rw [same]
    · rw [hands]
      rfl

theorem Enters.cancelRecorded {after : Plan} (enters : session.Enters call after) :
    after.cancelRecorded = (session.plan.cancelRecorded || session.finds call) := by
  cases enters with
  | nothing unfound _ same =>
    rw [unfound, Bool.or_false]
    exact congrArg (·.1) same
  | drained own empty =>
    subst own
    exact (congrArg (·.1) empty).trans (Bool.or_false _).symm
  | canceled own books =>
    subst own
    exact (congrArg (·.1) books).trans (cancel_recorded _)
  | aborted failure own books =>
    subst own
    exact (congrArg (·.1) books).trans (Bool.or_false _).symm

theorem canceled_eq (session : Session) (call : Operation) : session.canceled call =
    if session.finds call && !session.plan.cancelRecorded then
      [Failure.ofCancellation session.plan.name]
    else [] := by
  cases call with
  | cancel =>
    have failures : session.plan.cancel.2.failures = session.plan.failures ++
        if session.plan.hasUnscheduled && !session.plan.cancelRecorded then
          [Failure.ofCancellation session.plan.name]
        else [] := congrArg (·.2.2) (cancel_books session.plan)
    simp only [canceled, recorded, perform, failures, List.drop_left]
    rfl
  | add _ _ _ | populate | select _ _ | complete _ | fail _ _ | abort _ | collect | locks _ | move _ _
  | force _ _ => rfl

/-- A call notes no canceled failure but its own report and what it is handed. -/
theorem perform_recorded (valid : session.plan.Valid) (orderly : call.isOrderly = true) :
    (session.recorded call).countP Failure.isCanceled =
      (session.canceled call).length + call.handed?.toList.countP Failure.isCanceled := by
  have failures {books : Bool × Bool × List Failure}
      (same : (session.perform call).2.plan.books = books) :
      session.recorded call = books.2.2.drop session.plan.failures.length :=
    congrArg (fun later => later.2.2.drop session.plan.failures.length) same
  have own := session.canceled_eq call
  cases perform_enters valid orderly with
  | nothing unfound unhanded same =>
    rw [failures same, own, unfound, unhanded]
    simp [books]
  | drained same empty =>
    rw [failures empty, own, same]
    simp [Operation.handed?, finds]
  | canceled same _ =>
    subst same
    have reports : session.recorded .cancel = session.canceled .cancel := rfl
    rw [reports, own]
    split <;> rfl
  | aborted failure same books =>
    rw [failures books, own, same, List.drop_left]
    have category : (failure.withDetail "plan" session.plan.name).isCanceled = failure.isCanceled := rfl
    simp [Operation.handed?, finds, List.countP_cons, category]

/-! The books after any calls. -/

private structure Reported (start : Session) (calls : List Operation) : Prop where
  name : (start.run calls).plan.name = start.plan.name
  noted : (start.run calls).plan.cancelRecorded = true ↔
    ∃ step ∈ start.chronicle calls, step.1.finds step.2 = true
  own : start.cancellations calls = if (start.run calls).plan.cancelRecorded then
    [Failure.ofCancellation start.plan.name] else []
  count : (start.filed calls).countP Failure.isCanceled = (start.cancellations calls).length +
    (calls.filterMap Operation.handed?).countP Failure.isCanceled

private theorem Reported.concat (reported : start.Reported calls)
    (valid : (start.run calls).plan.Valid) (orderly : call.isOrderly = true) :
    start.Reported (calls ++ [call]) := by
  have later := (perform_enters valid orderly).cancelRecorded
  have now := perform_recorded valid orderly
  constructor
  · rw [run_concat]
    exact (perform_settings valid orderly).1.trans reported.name
  · rw [run_concat, chronicle_concat, later, Bool.or_eq_true, reported.noted]
    simp only [List.mem_append, List.mem_singleton]
    constructor
    · rintro (⟨step, member, finds⟩ | finds)
      · exact ⟨step, Or.inl member, finds⟩
      · exact ⟨_, Or.inr rfl, finds⟩
    · rintro ⟨step, member | rfl, finds⟩
      · exact Or.inl ⟨step, member, finds⟩
      · exact Or.inr finds
  · rw [cancellations_concat, reported.own, canceled_eq, run_concat, later, reported.name]
    cases (start.run calls).plan.cancelRecorded <;> cases (start.run calls).finds call <;> rfl
  · have single : [call].filterMap Operation.handed? = call.handed?.toList := by
      cases handed : call.handed? <;> simp [handed]
    have counts := reported.count
    rw [filed_concat, cancellations_concat, List.filterMap_append, List.countP_append,
      List.countP_append, List.length_append, single]
    omega

/-- Of all cancellations at most one reports itself: the first that finds a node which
nobody has selected. All other canceled failures are handed in. -/
theorem run_recorded (valid : start.plan.Valid) (unnoted : start.plan.cancelRecorded = false)
    (orderly : ∀ call ∈ calls, call.isOrderly = true) :
    start.cancellations calls ∈ [[], [Failure.ofCancellation start.plan.name]] ∧
      (start.cancellations calls ≠ [] ↔
        ∃ step ∈ start.chronicle calls, step.1.finds step.2 = true) ∧
      (start.filed calls).countP Failure.isCanceled = (start.cancellations calls).length +
        (calls.filterMap Operation.handed?).countP Failure.isCanceled := by
  have reported : start.Reported calls := by
    apply run_keeps valid _ _ orderly
    · exact ⟨rfl, by simp [run, chronicle, unnoted], by simp [cancellations, run, chronicle, unnoted],
        by simp [filed, cancellations, chronicle]⟩
    · exact fun calls call valid orderly reported => reported.concat valid orderly
  refine ⟨?_, ?_, reported.count⟩
  · rw [reported.own]
    split <;> simp
  · rw [reported.own, ← reported.noted]
    cases (start.run calls).plan.cancelRecorded <;> simp

end Session
end Plan
end Foreman
