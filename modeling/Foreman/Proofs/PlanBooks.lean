import Foreman.Plan.Enumerate
import Foreman.Proofs.Completion

/-! The books of a plan: what it notes beside its nodes. Work on the nodes leaves them
alone. A cancellation is noted if it skips a node, and only the first time; an abort
always notes the failure that it is given. -/

namespace Foreman

/-- What a plan reports when it skipped nodes because cancellation was requested. -/
def Failure.ofCancellation (plan : String) : Failure :=
  { Failure.canceled Failure.cancellationText with
    internalMessage := "Cancellation requested while nodes were still unscheduled"
    details := [("plan", plan)] }

/-- The failure by which a plan accounts for a cancellation, field by field. -/
structure Failure.Cancels (plan : String) (failure : Failure) : Prop where
  category : failure.category = .canceled
  code : failure.code = 1
  permanent : failure.retryable = false
  user : failure.userMessage = "Build cancelled"
  log : failure.internalMessage = "Cancellation requested while nodes were still unscheduled"
  details : failure.details = [("plan", plan)]

theorem Failure.ofCancellation_cancels (plan : String) : (ofCancellation plan).Cancels plan :=
  ⟨rfl, rfl, rfl, rfl, rfl, rfl⟩

namespace Plan

variable {plan before after : Plan} {position : Nat}

/-- What a plan notes beside its nodes: whether a cancellation is among its failures,
whether they were handed out, and which there are. -/
def books (plan : Plan) : Bool × Bool × List Failure :=
  (plan.cancelRecorded, plan.collected, plan.failures)

theorem Touches.books (touches : before.Touches after) : after.books = before.books := by
  obtain ⟨_, _, _, rfl⟩ := touches
  rfl

theorem enumerate_touches (plan : Plan) (position : Nat) :
    plan.Touches (plan.enumerate position) := by
  unfold enumerate
  split
  · exact .refl plan
  · simp only
    split
    · exact ⟨_, _, _, rfl⟩
    · split
      · exact ⟨_, _, _, rfl⟩
      · split <;> exact ⟨_, _, _, rfl⟩

theorem books_populate (plan : Plan) : plan.populate.books = plan.books :=
  (Touches.foldl enumerate_touches (List.range' plan.next (plan.size - plan.next)) plan).books

theorem books_complete (plan : Plan) (position : Nat) (locks : Locks) :
    (plan.complete position locks).1.books = plan.books := by
  unfold complete
  split
  · rfl
  next entry found =>
    simp only
    split
    · unfold finish
      split
      · simp only
        split
        · exact (Touches.foldl skip_touches _ _).books
        · rfl
      · exact (Touches.foldl meet_touches _ _).books
    · rfl

/-! Cancellation. -/

def hasUnscheduled (plan : Plan) : Bool := plan.entries.any (·.isUnscheduled)

theorem hasUnscheduled_iff : plan.hasUnscheduled ↔
    ∃ node, plan.state? node = some .notReady ∨ plan.state? node = some .ready := by
  rw [hasUnscheduled, List.any_eq_true]
  constructor
  · rintro ⟨entry, member, free⟩
    obtain ⟨node, found⟩ := List.mem_iff_getElem?.mp member
    refine ⟨node, ?_⟩
    rw [state?_eq found]
    rw [Entry.isUnscheduled] at free
    cases state : entry.node.state <;> simp_all [State.isUnscheduled]
  · rintro ⟨node, waiting | ready⟩
    · obtain ⟨entry, found, state⟩ := entry_of_state? waiting
      exact ⟨entry, List.mem_of_getElem? found, by simp [Entry.isUnscheduled, state, State.isUnscheduled]⟩
    · obtain ⟨entry, found, state⟩ := entry_of_state? ready
      exact ⟨entry, List.mem_of_getElem? found, by simp [Entry.isUnscheduled, state, State.isUnscheduled]⟩

theorem Stopped.hasUnscheduled (stopped : plan.Stopped) : plan.hasUnscheduled = false := by
  rw [Plan.hasUnscheduled, List.any_eq_false]
  intro entry member
  obtain ⟨position, found⟩ := List.getElem?_of_mem member
  rw [Entry.isUnscheduled, stopped position entry found]
  exact Bool.false_ne_true

theorem cancel_stopped (plan : Plan) : plan.cancel.2.Stopped := by
  simp only [cancel]
  split <;> exact skipUnscheduled_stopped plan

/-- A cancellation that skips a node is reported unless one was noted before. -/
theorem cancel_books (plan : Plan) : plan.cancel.2.books =
    (plan.cancelRecorded || plan.hasUnscheduled, plan.collected, plan.failures ++
      if plan.hasUnscheduled && !plan.cancelRecorded then [Failure.ofCancellation plan.name] else []) := by
  have skips : plan.skipUnscheduled.1 = plan.hasUnscheduled := rfl
  have records : plan.skipUnscheduled.2.cancelRecorded = plan.cancelRecorded := rfl
  simp only [cancel, skips, records]
  split
  next first =>
    rw [Bool.and_eq_true] at first
    simp only [books, first.1, Bool.or_true]
    rfl
  next again =>
    cases recorded : plan.cancelRecorded with
    | true => simp [books, skipUnscheduled, recorded]
    | false => simp_all [books, skipUnscheduled]

theorem cancel_recorded (plan : Plan) :
    plan.cancel.2.cancelRecorded = (plan.cancelRecorded || plan.hasUnscheduled) :=
  congrArg (·.1) (cancel_books plan)

theorem cancel_collected (plan : Plan) : plan.cancel.2.collected = plan.collected :=
  congrArg (·.2.1) (cancel_books plan)

/-- Where no node is left to be scheduled, a cancellation has nothing to note. -/
theorem Stopped.cancel_recorded (stopped : plan.Stopped) :
    plan.cancel.2.cancelRecorded = plan.cancelRecorded := by
  rw [Plan.cancel_recorded, stopped.hasUnscheduled, Bool.or_false]

end Plan
end Foreman
