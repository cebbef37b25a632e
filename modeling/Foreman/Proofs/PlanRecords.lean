import Foreman.Plan.Session
import Foreman.Proofs.PlanHandling

/-! What a plan records about its nodes is right after any calls, whoever makes
them, with whatever lease and book. The exceptions are the two calls that change
a node behind the plan's back. -/

namespace Foreman.Plan

variable {plan before after : Plan} {owed : Nat → Nat} {stale : Nat → Prop} {position : Nat}
  {entry : Entry}

/-! Selections through any book. -/

/-- A selection hands over a ready node or leaves the plan alone, whatever the
lease is and whatever the pass has done before. -/
theorem select_hands (coherent : plan.Coherent owed stale) (lease : Lease) (pass : Pass) :
    (∃ later, plan.select lease pass = (.ok none, plan, later)) ∨
      ∃ position entry later, plan.entries[position]? = some entry ∧ entry.node.state = .ready ∧
        plan.select lease pass = (.ok (some position), plan.hand lease position entry, later) := by
  unfold select
  split
  · exact Or.inl ⟨pass, rfl⟩
  · simp only
    split
    next refused _ => exact Or.inl ⟨refused, rfl⟩
    next granted _ =>
      split
      next position last fits =>
        obtain ⟨member, _⟩ := firstFit_some fits
        obtain ⟨entry, found, ready⟩ := entry_of_state? ((coherent.queued position).mp member)
        rw [dispatch_ready found ready]
        exact Or.inr ⟨position, entry, last, found, ready, rfl⟩
      · exact Or.inl ⟨_, rfl⟩

/-! The moves of the nodes in one call. -/

/-- Each node keeps its state or makes one move that its rules allow. -/
def Moves (before after : Plan) : Prop :=
  ∀ (position : Nat) (entry later : Entry), before.entries[position]? = some entry →
    after.entries[position]? = some later →
    later.node.state = entry.node.state ∨ entry.node.state.canMoveTo later.node.state = true

theorem Moves.refl (plan : Plan) : plan.Moves plan := by
  intro position entry later found again
  cases Option.some.inj (found.symm.trans again)
  exact Or.inl rfl

theorem moves_of_drift {node later : Node} (drift : node.Drifts later) :
    later.state = node.state ∨ node.state.canMoveTo later.state = true := by
  rcases drift.state with same | ⟨free, moved⟩
  · exact Or.inl same
  · rcases moved with target | target <;> rw [target] <;>
      cases current : node.state <;> simp_all [State.isUnscheduled, State.canMoveTo]

theorem Drifts.moves (drifts : before.Drifts after) : before.Moves after := by
  intro position entry later found again
  exact moves_of_drift (drifts.node position entry later found again)

theorem moves_of_state? (same : ∀ position, after.state? position = before.state? position) :
    before.Moves after := by
  intro position entry later found again
  have states := same position
  rw [state?_eq found, state?_eq again] at states
  exact Or.inl (Option.some.inj states)

theorem hand_moves (coherent : plan.Coherent owed stale) (lease : Lease)
    (found : plan.entries[position]? = some entry) (ready : entry.node.state = .ready) :
    plan.Moves (plan.hand lease position entry) := by
  have replaces := Replaces.hand coherent lease found ready
  intro other old new present again
  rw [replaces.lookup] at again
  split at again
  next own =>
    subst own
    cases again
    cases Option.some.inj (found.symm.trans present)
    rw [ready]
    exact Or.inr rfl
  · cases Option.some.inj (present.symm.trans again)
    exact Or.inl rfl

private theorem Ends.moves (ends : before.Ends position entry after)
    (found : before.entries[position]? = some entry) (executing : entry.node.state = .executing) :
    before.Moves after := by
  intro other old new present again
  by_cases own : other = position
  · subst own
    cases Option.some.inj (found.symm.trans present)
    obtain ⟨later, last, _, _, state⟩ := ends.own
    cases Option.some.inj (last.symm.trans again)
    rw [state, executing]
    split <;> exact Or.inr rfl
  · exact moves_of_drift (ends.others other old new own present again)

theorem complete_moves (valid : plan.Valid) (position : Nat) (locks : Locks) :
    plan.Moves (plan.complete position locks).1 := by
  rcases complete_cases valid position locks with ⟨entry, found, executing, _, ends⟩ | ⟨_, same⟩
  · exact ends.moves found executing
  · rw [same]
    exact moves_of_state? (disown_state? plan (some position))

private theorem add_moves {id : String} {names resources : List String}
    (added : plan.add id names resources = .ok after) : plan.Moves after := by
  obtain ⟨_, deps, _, rfl⟩ := add_attached added
  intro position entry later found again
  have inside : position < plan.size := (List.getElem?_eq_some_iff.mp found).1
  rw [attach_found, if_neg (Nat.ne_of_lt inside), found] at again
  cases again
  exact Or.inl rfl

/-! What the plan records. -/

/-- The count of open nodes, the queue and the notes on waiting nodes agree with the
states of the nodes. -/
structure Accurate (plan : Plan) : Prop where
  remaining : plan.remaining = plan.entries.countP fun entry => !entry.node.state.isTerminal
  queue : ∀ position,
    plan.queue.count position = if plan.state? position = some .ready then 1 else 0
  /-- Once enumeration has begun, nothing is left to enumerate. -/
  enumerated : plan.started = true → plan.next = plan.size ∧
    (∀ entry ∈ plan.entries, entry.enumerated = true) ∧ plan.populate = plan
  /-- A node waits for as many mentions as have not succeeded, and for one at least,
  but never for a node that cannot succeed any more. -/
  waiting : ∀ entry ∈ plan.entries, entry.enumerated = true → entry.node.state = .notReady →
    entry.unmet = entry.node.deps.countP (fun dep => plan.state? dep ≠ some .succeeded) ∧
      0 < entry.unmet ∧ ∀ dep ∈ entry.node.deps,
        plan.state? dep ≠ some .failed ∧ plan.state? dep ≠ some .skipped
  /-- A node whose dependencies have not all succeeded is waiting or skipped. -/
  served : ∀ entry ∈ plan.entries, entry.node.state ≠ .notReady → entry.node.state ≠ .skipped →
    ∀ dep ∈ entry.node.deps, plan.state? dep = some .succeeded

theorem Valid.accurate (valid : plan.Valid) : plan.Accurate := by
  have coherent := valid.coherent
  refine ⟨coherent.remaining, ?_, ?_, ?_, ?_⟩
  · intro position
    simp only [coherent.distinct.count, coherent.queued position]
  · intro started
    have begun := valid.begun_of_started started
    refine ⟨begun.next, fun entry member => ?_, populate_begun begun⟩
    obtain ⟨position, found⟩ := List.mem_iff_getElem?.mp member
    exact begun.enumerated position entry found
  · intro entry member seen idle
    obtain ⟨position, found⟩ := List.mem_iff_getElem?.mp member
    have waits := coherent.waiting position entry found idle seen
    refine ⟨waits.unmet, waits.positive, fun dep named => ⟨fun failed => ?_, fun skipped => ?_⟩⟩
    · exact waits.hopeful id ⟨dep, named, Or.inl failed⟩
    · exact waits.hopeful id ⟨dep, named, Or.inr skipped⟩
  · intro entry member moved unskipped
    obtain ⟨position, found⟩ := List.mem_iff_getElem?.mp member
    exact coherent.served position entry found moved unskipped

/-- The call leaves it to the plan to change the states of nodes. -/
def Operation.isOrderly : Operation → Bool
  | .move _ _ | .force _ _ => false
  | _ => true

namespace Session

variable {session : Session}

theorem perform_select (valid : session.plan.Valid) (lease : Lease) (book : Nat) :
    ((session.perform (.select lease book)).1 = .selected (.ok none) ∧
        (session.perform (.select lease book)).2.plan = session.plan) ∨
      ∃ node entry, session.plan.entries[node]? = some entry ∧ entry.node.state = .ready ∧
        (session.perform (.select lease book)).1 = .selected (.ok (some node)) ∧
        (session.perform (.select lease book)).2.plan = session.plan.hand lease node entry := by
  simp only [perform, Desk.through]
  rcases select_hands valid.coherent lease
      { locks := session.desk.locks, book := session.desk.books[book]?.getD {} } with
    ⟨later, idles⟩ | ⟨node, entry, later, found, ready, selects⟩
  · rw [idles]
    exact Or.inl ⟨rfl, rfl⟩
  · rw [selects]
    exact Or.inr ⟨node, entry, found, ready, rfl, rfl⟩

/-- One call keeps a plan in order, moves its nodes as their rules allow and raises
no fault. -/
theorem perform_orderly (valid : session.plan.Valid) {call : Operation}
    (orderly : call.isOrderly = true) :
    (session.perform call).2.plan.Valid ∧ session.plan.Moves (session.perform call).2.plan ∧
      ∀ fault, (session.perform call).1 ≠ .selected (.error fault) := by
  cases call with
  | move position target | force position target => cases orderly
  | add id deps resources =>
    simp only [perform]
    split
    next added => exact ⟨valid.add added, add_moves added, by simp⟩
    · exact ⟨valid, .refl _, by simp⟩
  | populate =>
    obtain ⟨populated, drifts, _⟩ := valid.populate
    exact ⟨populated, drifts.moves, by simp [perform]⟩
  | select lease book =>
    rcases perform_select valid lease book with
      ⟨reply, same⟩ | ⟨node, entry, found, ready, reply, hands⟩
    · rw [reply, same]
      exact ⟨valid, .refl _, by simp⟩
    · rw [reply, hands]
      exact ⟨valid.hand found ready, hand_moves valid.coherent lease found ready, by simp⟩
  | complete position =>
    exact ⟨valid.complete position _, complete_moves valid position _, by simp [perform]⟩
  | fail position failure =>
    exact ⟨valid.failNode position failure,
      moves_of_state? (failAll_state? session.plan position [failure]), by simp [perform]⟩
  | cancel => exact ⟨valid.cancel, (cancel_drifts _).moves, by simp [perform]⟩
  | abort failure => exact ⟨valid.abort failure, (abort_drifts _ failure).moves, by simp [perform]⟩
  | collect => exact ⟨valid.collect, (collect_drifts _).moves, by simp [perform]⟩
  | locks command => exact ⟨valid, .refl _, by simp [perform]⟩

theorem run_valid (valid : session.plan.Valid) {calls : List Operation}
    (orderly : ∀ call ∈ calls, call.isOrderly = true) : (session.run calls).plan.Valid := by
  induction calls generalizing session with
  | nil => exact valid
  | cons call rest ih =>
    have performed := (perform_orderly valid (orderly call List.mem_cons_self)).1
    exact ih performed fun other member => orderly other (List.mem_cons_of_mem _ member)

/-- Whatever calls are made on a fresh plan and on the locks, the records of the plan
are right after each of them. The next call raises no fault, and each node keeps its
state in it or makes a move that its rules allow. -/
theorem records_accurate (name : String) (scope : Nat) (rule : Bool) (desk : Desk)
    (calls : List Operation) (orderly : ∀ call ∈ calls, call.isOrderly = true) :
    (run { plan := empty name scope rule, desk } calls).plan.Accurate ∧
      ∀ call : Operation, call.isOrderly = true →
        let session := run { plan := empty name scope rule, desk } calls
        (∀ fault, (session.perform call).1 ≠ .selected (.error fault)) ∧
          session.plan.Moves (session.perform call).2.plan := by
  have valid : (run { plan := empty name scope rule, desk } calls).plan.Valid :=
    run_valid (empty_valid name scope rule).1 orderly
  refine ⟨valid.accurate, fun call orderly => ?_⟩
  obtain ⟨_, moves, calm⟩ := perform_orderly valid orderly
  exact ⟨calm, moves⟩

private def errand : List Operation :=
  [ .add "mill" [] ["stone"], .add "bake" [] ["oven", "stone"], .add "sell" ["mill", "mill"] [],
    .locks (.createTree "staff" 2), .locks (.createChild ⟨0, 0⟩),
    .locks (.tryLock (.resource 0 "oven") 0), .populate, .select ⟨0, 1⟩ 0, .locks (.release 0),
    .complete 0, .fail 0 (.internal "late"), .complete 0, .select ⟨0, 1⟩ 0 ]

theorem errand_accurate :
    (run { plan := empty "shop" 0 true, desk := { books := [{}] } } errand).plan.Accurate ∧
      (run { plan := empty "shop" 0 true, desk := { books := [{}] } } errand).plan.entries.map
        (·.node.state) = [.succeeded, .executing, .ready] :=
  ⟨(records_accurate "shop" 0 true { books := [{}] } errand (by decide)).1, by decide +kernel⟩

end Session
end Foreman.Plan
