import Foreman.Plan.Stop
import Foreman.Plan.Complete
import Foreman.Proofs.PassLocks
import Foreman.Proofs.PlanMoves
import Foreman.Proofs.SkipWalk

/-! What follows from the end of a node, and from a stop. Either way the plan is
again as it should be, and the nodes that nobody handled have only drifted. -/

namespace Foreman.Plan

variable {plan before after : Plan} {owed : Nat → Nat} {stale : Nat → Prop} {position : Nat}
  {entry : Entry}

/-! Dependents of a node that succeeded. -/

private theorem Coherent.waive (coherent : plan.Coherent owed stale) {owed' : Nat → Nat}
    (same : ∀ other, other ≠ position → owed' other = owed other)
    (settled : ∀ entry, plan.entries[position]? = some entry →
      ¬ (entry.node.state = .notReady ∧ entry.enumerated = true)) :
    plan.Coherent owed' stale :=
  { coherent with
    waiting := fun other entry found idle seen => by
      by_cases here : other = position
      · subst here
        exact absurd ⟨idle, seen⟩ (settled entry found)
      · rw [same other here]
        exact coherent.waiting other entry found idle seen }

private theorem Coherent.meet (coherent : plan.Coherent owed stale) (position : Nat)
    (due : 0 < owed position) :
    (plan.meet position).Coherent
        (fun other => if other = position then owed position - 1 else owed other) stale ∧
      plan.Drifts (plan.meet position) := by
  have same (other : Nat) (differs : other ≠ position) :
      (if other = position then owed position - 1 else owed other) = owed other := if_neg differs
  cases found : plan.entries[position]? with
  | none =>
    have unchanged : plan.meet position = plan := by simp [Plan.meet, found]
    rw [unchanged]
    exact ⟨coherent.waive same (by simp [found]), .refl plan⟩
  | some entry =>
    by_cases waiting : entry.node.state = .notReady ∧ entry.enumerated = true
    · obtain ⟨idle, seen⟩ := waiting
      have waits := coherent.waiting position entry found idle seen
      have counted := waits.unmet
      have positive := waits.positive
      have meets : plan.meet position =
          if entry.unmet = 1 then
            (plan.modify position fun entry => { entry with unmet := entry.unmet - 1 }).markReady position
          else plan.modify position fun entry => { entry with unmet := entry.unmet - 1 } := by
        simp [Plan.meet, found, idle, seen, Nat.pos_iff_ne_zero.mp positive]
      rw [meets]
      split
      next last =>
        refine coherent.markReady found idle ?_ ⟨rfl, rfl, rfl, rfl, fun seen => seen⟩ rfl same
        have none : plan.unserved entry.node.deps = 0 := by omega
        intro dep member
        have := List.countP_eq_zero.mp none dep member
        simpa using this
      next more =>
        refine ⟨coherent.handle found ⟨rfl, rfl, rfl, rfl, fun seen => seen⟩ rfl
          (coherent.holding position entry found) same ?_, ?_⟩
        · intro _ _
          refine ⟨?_, ?_, waits.hopeful⟩
          · simp only [if_pos]
            omega
          · simp only
            omega
        · exact (Replaces.handle coherent found ⟨rfl, rfl, rfl, rfl, fun seen => seen⟩ rfl).drifts
            (.refl _)
    · have unchanged : plan.meet position = plan := by
        rw [and_comm] at waiting
        simp only [Plan.meet, found, Bool.and_eq_true, decide_eq_true_eq]
        rw [if_neg fun all => waiting all.1]
      rw [unchanged]
      refine ⟨coherent.waive same ?_, .refl plan⟩
      intro other again
      cases Option.some.inj (found.symm.trans again)
      exact waiting

/-- The successors of a node count it as often as they mention it. -/
theorem Coherent.meetAll {positions : List Nat} (coherent : plan.Coherent positions.count stale) :
    (positions.foldl Plan.meet plan).Coherent (fun _ => 0) stale ∧
      plan.Drifts (positions.foldl Plan.meet plan) := by
  induction positions generalizing plan with
  | nil => exact ⟨coherent, .refl plan⟩
  | cons first rest ih =>
    obtain ⟨met, drifted⟩ := coherent.meet first (by simp)
    have counts : (fun other => if other = first then (first :: rest).count first - 1
        else (first :: rest).count other) = rest.count := by
      funext other
      split
      next same => simp [same]
      next differs => simp [Ne.symm differs]
    rw [counts] at met
    obtain ⟨done, later⟩ := ih met
    exact ⟨done, drifted.trans later⟩

/-! Dependents of a node that failed. -/

/-- After skipping some nodes only those are stale that wait for one of them, or
were stale before. -/
theorem Coherent.skipAll (coherent : plan.Coherent owed stale) (positions : List Nat) :
    (positions.foldl Plan.skip plan).Coherent owed
        (fun other => stale other ∨ ∃ skipped ∈ positions, skipped ∈ plan.depsOf other) ∧
      plan.Drifts (positions.foldl Plan.skip plan) ∧
      ∀ skipped ∈ positions, ∀ state, (positions.foldl Plan.skip plan).state? skipped = some state →
        state.isUnscheduled = false := by
  induction positions generalizing plan stale with
  | nil =>
    refine ⟨?_, .refl plan, by simp⟩
    simpa using coherent
  | cons first rest ih =>
    obtain ⟨skips, drifted, settled⟩ := coherent.skip first
    obtain ⟨done, later, others⟩ := ih skips
    refine ⟨?_, drifted.trans later, ?_⟩
    · have staleness : (fun other => (stale other ∨ first ∈ plan.depsOf other) ∨
            ∃ skipped ∈ rest, skipped ∈ (plan.skip first).depsOf other) =
          fun other => stale other ∨ ∃ skipped ∈ first :: rest, skipped ∈ plan.depsOf other := by
        funext other
        simp only [drifted.keeps.depsOf, List.mem_cons, exists_eq_or_imp, or_assoc]
      rwa [staleness] at done
    · intro skipped member state now
      rcases List.mem_cons.mp member with rfl | member
      · obtain ⟨entry, found, rfl⟩ := entry_of_state? now
        obtain ⟨earlier, present, _, drift⟩ := later.back found
        have free := settled _ (state?_eq present)
        rw [drift.settled free]
        exact free
      · exact others skipped member state now

/-- No node is stale once all that wait for a failed one are skipped. -/
theorem Coherent.freshen (coherent : plan.Coherent owed stale)
    (settled : ∀ position, stale position → ∀ state, plan.state? position = some state →
      state.isUnscheduled = false) : plan.Coherent owed (fun _ => False) :=
  { coherent with
    waiting := fun position entry found idle seen =>
      have waits := coherent.waiting position entry found idle seen
      ⟨waits.unmet, waits.positive, fun _ => waits.hopeful fun isStale => by
        have free := settled position isStale _ (state?_eq found)
        simp [idle, State.isUnscheduled] at free⟩ }

theorem Coherent.skipDependents {root : Nat}
    (coherent : plan.Coherent owed (fun other => root ∈ plan.depsOf other)) :
    (plan.skipDependents root).Coherent owed (fun _ => False) ∧
      plan.Drifts (plan.skipDependents root) := by
  obtain ⟨done, drifts, settled⟩ := coherent.skipAll (plan.descendants root)
  refine ⟨done.freshen ?_, drifts⟩
  intro position isStale
  apply settled position
  rcases isStale with direct | ⟨skipped, descends, named⟩
  · exact mem_descendants_of_dep coherent.graph direct
  · exact descendants_closed coherent.graph descends named

/-! Stopping. -/

theorem stop_node (entry : Entry) : entry.stop.node =
    if entry.node.state.isUnscheduled then entry.node.enter .skipped else entry.node := rfl

theorem stop_drifts (entry : Entry) : entry.node.Drifts entry.stop.node := by
  rw [stop_node]
  split
  next free => exact ⟨rfl, rfl, Or.inr ⟨free, Or.inr rfl⟩⟩
  · exact .refl _

theorem stop_links (entry : Entry) : entry.Links entry.stop := by
  refine ⟨?_, ?_, ?_, rfl, fun _ => rfl⟩
  all_goals
    rw [stop_node]
    split <;> rfl

theorem stop_settled (entry : Entry) : entry.stop.node.state.isUnscheduled = false := by
  rw [stop_node]
  split
  · rfl
  next settled => simpa using settled

/-- Nobody can be selected any more. -/
def Stopped (plan : Plan) : Prop :=
  ∀ (position : Nat) (entry : Entry), plan.entries[position]? = some entry →
    entry.node.state.isUnscheduled = false

theorem Stopped.drift (stopped : before.Stopped) (drifts : before.Drifts after) : after.Stopped := by
  intro position entry found
  obtain ⟨earlier, present, _, drift⟩ := drifts.back found
  have settled := stopped position earlier present
  rw [drift.settled settled]
  exact settled

theorem Stopped.queue (stopped : plan.Stopped) (coherent : plan.Coherent owed stale) :
    plan.queue = [] := by
  rw [List.eq_nil_iff_forall_not_mem]
  intro position member
  obtain ⟨entry, found, state⟩ := entry_of_state? ((coherent.queued position).mp member)
  have settled := stopped position entry found
  simp [state, State.isUnscheduled] at settled

def Over (plan : Plan) : Prop :=
  ∀ (position : Nat) (entry : Entry), plan.entries[position]? = some entry →
    entry.node.state.isTerminal = true

theorem Over.stopped (finished : plan.Over) : plan.Stopped :=
  fun position entry found => State.settled_of_terminal (finished position entry found)

theorem Over.drift (finished : before.Over) (drifts : before.Drifts after) : after.Over := by
  intro position entry found
  obtain ⟨earlier, present, _, drift⟩ := drifts.back found
  rw [drift.settled (finished.stopped position earlier present)]
  exact finished position earlier present

theorem Coherent.finished (coherent : plan.Coherent owed stale) (none : plan.remaining = 0) :
    plan.Over := by
  intro position entry found
  rw [coherent.remaining] at none
  have terminal := List.countP_eq_zero.mp (Int.ofNat_eq_zero.mp none) entry
    (List.mem_of_getElem? found)
  simpa using terminal

/-- Among open nodes there is one that does not wait for any other. -/
theorem Coherent.exhausted (coherent : plan.Coherent (fun _ => 0) (fun _ => False))
    (looked : ∀ (position : Nat) (entry : Entry), plan.entries[position]? = some entry →
      entry.enumerated = true)
    (empty : plan.queue = []) (idle : ∀ position, plan.state? position ≠ some .executing) :
    plan.remaining = 0 := by
  have terminal (position : Nat) : ∀ entry, plan.entries[position]? = some entry →
      entry.node.state.isTerminal = true := by
    induction position using Nat.strongRecOn with
    | ind position earlier =>
      intro entry found
      have state := state?_eq found
      cases here : entry.node.state with
      | succeeded | failed | skipped => rfl
      | ready =>
        have queued := (coherent.queued position).mpr (here ▸ state)
        rw [empty] at queued
        cases queued
      | executing => exact absurd (here ▸ state) (idle position)
      | notReady =>
        have waits := coherent.waiting position entry found here (looked position entry found)
        have unserved : 0 < plan.unserved entry.node.deps := by
          have positive := waits.positive
          have unmet := waits.unmet
          omega
        obtain ⟨dep, member, open_⟩ := List.countP_pos_iff.mp unserved
        have before := coherent.graph.earlier position dep (depsOf_eq found ▸ member)
        have inside : dep < plan.entries.length :=
          Nat.lt_trans before (List.getElem?_eq_some_iff.mp found).1
        have present := List.getElem?_eq_getElem inside
        have ended := earlier dep before _ present
        have settled := state?_eq present
        have hopeful := waits.hopeful id
        simp only [decide_eq_true_eq] at open_
        exfalso
        cases there : plan.entries[dep].node.state with
        | notReady | ready | executing => simp [there, State.isTerminal] at ended
        | succeeded => exact open_ (there ▸ settled)
        | failed => exact hopeful ⟨dep, member, Or.inl (there ▸ settled)⟩
        | skipped => exact hopeful ⟨dep, member, Or.inr (there ▸ settled)⟩
  rw [coherent.remaining, Int.ofNat_eq_zero, List.countP_eq_zero]
  intro entry member
  obtain ⟨position, found⟩ := List.getElem?_of_mem member
  simp [terminal position entry found]

private theorem count_stop (entries : List Entry) :
    (entries.map Entry.stop).countP (fun entry => !entry.node.state.isTerminal) +
        entries.countP (·.isUnscheduled) =
      entries.countP fun entry => !entry.node.state.isTerminal := by
  have one (entry : Entry) : (if (!entry.stop.node.state.isTerminal) = true then 1 else 0) +
      (if entry.isUnscheduled = true then 1 else 0) =
        if (!entry.node.state.isTerminal) = true then 1 else 0 := by
    obtain ⟨⟨_, _, _, state, _, _, _, _⟩, _, _, _⟩ := entry
    cases state <;> rfl
  induction entries with
  | nil => rfl
  | cons entry rest ih =>
    have head := one entry
    simp only [List.map_cons, List.countP_cons]
    omega

private theorem skipUnscheduled_found (plan : Plan) (position : Nat) :
    plan.skipUnscheduled.2.entries[position]? = plan.entries[position]?.map Entry.stop := by
  simp [skipUnscheduled]

theorem skipUnscheduled_drifts (plan : Plan) : plan.Drifts plan.skipUnscheduled.2 := by
  refine ⟨⟨rfl, rfl, rfl, by simp [skipUnscheduled, size], ?_⟩, ?_⟩
  · intro position entry found
    exact ⟨entry.stop, by rw [skipUnscheduled_found, found]; rfl, stop_links entry⟩
  · intro position entry later found again
    rw [skipUnscheduled_found, found] at again
    cases again
    exact stop_drifts entry

theorem skipUnscheduled_stopped (plan : Plan) : plan.skipUnscheduled.2.Stopped := by
  intro position entry found
  rw [skipUnscheduled_found] at found
  obtain ⟨earlier, _, rfl⟩ := Option.map_eq_some_iff.mp found
  exact stop_settled earlier

/-- A stop puts a plan in order, whatever it owed. -/
theorem Coherent.stop (coherent : plan.Coherent owed stale) : plan.skipUnscheduled.2.Valid := by
  have drifts := skipUnscheduled_drifts plan
  have stopped := skipUnscheduled_stopped plan
  refine ⟨⟨coherent.graph.keep drifts.keeps, ?_, List.nodup_nil, ?_, ?_, ?_, ?_⟩, Or.inl ⟨rfl, ?_, ?_⟩⟩
  · have count := count_stop plan.entries
    simp only [skipUnscheduled, coherent.remaining]
    omega
  · intro position
    constructor
    · intro member
      cases member
    · intro ready
      obtain ⟨entry, found, state⟩ := entry_of_state? ready
      have := stopped position entry found
      simp [state, State.isUnscheduled] at this
  · intro position entry found moved unskipped dep member
    obtain ⟨earlier, present, links, drift⟩ := drifts.back found
    have same : entry.node.state = earlier.node.state := by
      rcases drift.state with same | ⟨_, ready | skipped⟩
      · exact same
      · have := stopped position entry found
        simp [ready, State.isUnscheduled] at this
      · exact absurd skipped unskipped
    exact drifts.state? (coherent.served position earlier present (same ▸ moved) (same ▸ unskipped)
      dep (links.deps ▸ member)) rfl
  · intro position entry found idle
    have := stopped position entry found
    simp [idle, State.isUnscheduled] at this
  · intro position entry found held
    obtain ⟨earlier, present, _, drift⟩ := drifts.back found
    have executing := coherent.holding position earlier present (drift.held ▸ held)
    rw [drift.settled (by simp [executing, State.isUnscheduled]), executing]
  · simp [skipUnscheduled, size]
  · intro position entry found
    rw [skipUnscheduled_found] at found
    obtain ⟨earlier, _, rfl⟩ := Option.map_eq_some_iff.mp found
    rfl

theorem Valid.annotate (valid : plan.Valid) (cancelRecorded collected : Bool)
    (failures : List Failure) : Valid { plan with cancelRecorded, collected, failures } :=
  ⟨{ valid.coherent with
      graph := ⟨valid.coherent.graph.earlier, valid.coherent.graph.dependents⟩
      waiting := fun position entry found idle seen =>
        have waits := valid.coherent.waiting position entry found idle seen
        ⟨waits.unmet, waits.positive, waits.hopeful⟩ },
    valid.phase.imp (fun begun => ⟨begun.started, begun.next, begun.enumerated⟩)
      fun idle => ⟨idle.started, idle.next, idle.untouched⟩⟩

theorem annotate_drifts (plan : Plan) (cancelRecorded collected : Bool) (failures : List Failure) :
    plan.Drifts { plan with cancelRecorded, collected, failures } :=
  ⟨⟨rfl, rfl, rfl, rfl, (Keeps.refl plan).entry⟩, (Drifts.refl plan).node⟩

theorem Valid.cancel (valid : plan.Valid) : plan.cancel.2.Valid := by
  have stopped := valid.coherent.stop
  simp only [Plan.cancel]
  split
  · exact stopped.annotate _ _ _
  · exact stopped

theorem cancel_drifts (plan : Plan) : plan.Drifts plan.cancel.2 := by
  have drifts := skipUnscheduled_drifts plan
  simp only [cancel]
  split
  · exact drifts.trans (annotate_drifts _ _ _ _)
  · exact drifts

theorem cancel_unchanged (unchanged : plan.cancel.1 = false) :
    plan.cancel.2.queue = [] ∧ plan.cancel.2.remaining = plan.remaining := by
  have none : plan.entries.any (·.isUnscheduled) = false := by
    simp only [cancel] at unchanged
    split at unchanged <;> exact unchanged
  have zero : plan.entries.countP (·.isUnscheduled) = 0 := by
    simpa [List.countP_eq_zero] using none
  simp [cancel, skipUnscheduled, none, zero]

theorem Valid.abort (valid : plan.Valid) (failure : Failure) : (plan.abort failure).Valid :=
  valid.coherent.stop.annotate _ _ _

theorem abort_drifts (plan : Plan) (failure : Failure) : plan.Drifts (plan.abort failure) :=
  (skipUnscheduled_drifts plan).trans (annotate_drifts _ _ _ _)

theorem abort_enumerated (failure : Failure)
    (found : (plan.abort failure).entries[position]? = some entry) : entry.enumerated = true := by
  have stopped : plan.skipUnscheduled.2.entries[position]? = some entry := found
  rw [skipUnscheduled_found] at stopped
  obtain ⟨earlier, _, rfl⟩ := Option.map_eq_some_iff.mp stopped
  rfl

theorem abort_stopped (plan : Plan) (failure : Failure) : (plan.abort failure).Stopped :=
  skipUnscheduled_stopped plan

theorem Valid.collect (valid : plan.Valid) : plan.collect.2.Valid := by
  simp only [Plan.collect]
  split
  · exact valid
  · exact valid.annotate _ _ _

theorem collect_drifts (plan : Plan) : plan.Drifts plan.collect.2 := by
  simp only [collect]
  split
  · exact .refl plan
  · exact annotate_drifts _ _ _ _

/-! The end of a node as the plan takes it in. -/

/-- An executing node ended with the failure that it had, if any. Its locks are
gone from it, and the other nodes have drifted. -/
structure Ends (before : Plan) (position : Nat) (entry : Entry) (after : Plan) : Prop where
  keeps : before.Keeps after
  others : ∀ (other : Nat) (old new : Entry), other ≠ position →
    before.entries[other]? = some old → after.entries[other]? = some new → old.node.Drifts new.node
  own : ∃ later, after.entries[position]? = some later ∧ later.node.failure = entry.node.failure ∧
    later.node.held = [] ∧
    later.node.state = if entry.node.failure.isSome then .failed else .succeeded

theorem Replaces.ends {state : State} (replaces : plan.Replaces position entry (closed entry state) before)
    (drifts : before.Drifts after) (terminal : state.isTerminal = true)
    (outcome : state = if entry.node.failure.isSome then .failed else .succeeded) :
    plan.Ends position entry after := by
  refine ⟨replaces.keeps.trans drifts.keeps, ?_, ?_⟩
  · intro other old new differs found again
    have between : before.entries[other]? = some old := by
      rw [replaces.lookup, if_neg differs]
      exact found
    exact drifts.node other old new between again
  · have between : before.entries[position]? = some (closed entry state) := by
      rw [replaces.lookup, if_pos rfl]
    obtain ⟨later, found, _, drift⟩ := drifts.ahead between
    have settled : (closed entry state).node.state.isUnscheduled = false :=
      State.settled_of_terminal terminal
    exact ⟨later, found, drift.failure, drift.held, (drift.settled settled).trans outcome⟩

theorem Ends.begun (ends : before.Ends position entry after) (valid : after.Valid) : after.Begun := by
  obtain ⟨later, found, _, _, state⟩ := ends.own
  apply valid.begun found
  rw [state]
  split <;> simp

theorem Ends.state? (ends : before.Ends position entry after) : after.state? position =
    some (if entry.node.failure.isSome then .failed else .succeeded) := by
  obtain ⟨later, found, _, _, state⟩ := ends.own
  rw [state?_eq found, state]

/-- The end of a node can make another one ready or skip it, if nobody has selected it. -/
theorem Ends.moved {node : Nat} (ends : before.Ends position entry after)
    (differs : node ≠ position) (changed : after.state? node ≠ before.state? node) :
    before.state? node = some .notReady ∧ after.state? node = some .ready ∨
      (before.state? node = some .notReady ∨ before.state? node = some .ready) ∧
        after.state? node = some .skipped := by
  cases found : before.entries[node]? with
  | none =>
    have absent : after.entries[node]? = none := by
      rw [List.getElem?_eq_none_iff] at found ⊢
      exact Nat.le_trans (Nat.le_of_eq ends.keeps.size) found
    simp [Plan.state?, node?, found, absent] at changed
  | some old =>
    obtain ⟨new, present, _⟩ := ends.keeps.entry node old found
    rw [state?_eq found, state?_eq present, ne_eq, Option.some.injEq] at changed
    simp only [state?_eq found, state?_eq present, Option.some.injEq]
    rcases (ends.others node old new differs found present).state with same | ⟨free, ready | skipped⟩
    · exact absurd same changed
    · cases state : old.node.state <;> simp_all [State.isUnscheduled]
    · cases state : old.node.state <;> simp_all [State.isUnscheduled]

theorem Stopped.ends (stopped : before.Stopped) (ends : before.Ends position entry after) :
    after.Stopped := by
  intro other new found
  by_cases own : other = position
  · subst own
    obtain ⟨later, present, _, _, state⟩ := ends.own
    cases Option.some.inj (present.symm.trans found)
    rw [state]
    split <;> rfl
  · obtain ⟨old, present, _⟩ := ends.keeps.back found
    have settled := stopped other old present
    rw [(ends.others other old new own present found).settled settled]
    exact settled

theorem meet_touches (plan : Plan) (position : Nat) : plan.Touches (plan.meet position) := by
  unfold meet
  split
  · exact .refl plan
  · split
    · simp only
      split <;> exact ⟨_, _, _, rfl⟩
    · exact .refl plan

/-- What completing an executing node comes to. -/
theorem complete_closes (found : plan.entries[position]? = some entry)
    (executing : entry.node.state = .executing) (locks : Locks) :
    (plan.complete position locks).1 =
      if entry.node.failure.isSome then
        if plan.continueOnFailure then (plan.close position .failed).skipDependents position
        else (plan.close position .failed).skipUnscheduled.2
      else entry.dependents.foldl meet (plan.close position .succeeded) := by
  simp only [complete, found, executing, if_pos, finish]
  rfl

/-- The plan after the end of a node is in order, and others have only drifted. -/
theorem complete_executing (valid : plan.Valid) (found : plan.entries[position]? = some entry)
    (executing : entry.node.state = .executing) (locks : Locks) :
    (plan.complete position locks).1.Valid ∧
      plan.Ends position entry (plan.complete position locks).1 := by
  have begun := valid.begun found (by simp [executing])
  rw [complete_closes found executing]
  have closing (state : State) (terminal : state.isTerminal = true) :=
    Replaces.close valid.coherent found executing terminal
  split
  next failed =>
    have stale := valid.coherent.fail found executing
    have replaces := closing .failed rfl
    have outcome : State.failed = if entry.node.failure.isSome then .failed else .succeeded := by
      rw [if_pos failed]
    split
    · have waiting : (plan.close position .failed).Coherent (fun _ => 0)
          (fun other => position ∈ (plan.close position .failed).depsOf other) := by
        simpa only [replaces.keeps.depsOf, false_or] using stale
      obtain ⟨coherent, drifts⟩ := waiting.skipDependents
      have touches := (Touches.foldl skip_touches
        ((plan.close position .failed).descendants position) (plan.close position .failed)).phase
      exact ⟨⟨coherent, Or.inl (begun.keep (replaces.keeps.trans drifts.keeps) touches.1 touches.2)⟩,
        replaces.ends drifts rfl outcome⟩
    · exact ⟨stale.stop, replaces.ends (skipUnscheduled_drifts _) rfl outcome⟩
  next fine =>
    have owing := valid.coherent.succeed found executing
    have replaces := closing .succeeded rfl
    have counts : (fun other => (plan.depsOf other).count position) = entry.dependents.count := by
      funext other
      rw [valid.coherent.graph.dependents position entry found, count_mentions]
    rw [counts] at owing
    obtain ⟨coherent, drifts⟩ := owing.meetAll
    have touches := (Touches.foldl meet_touches entry.dependents (plan.close position .succeeded)).phase
    exact ⟨⟨coherent, Or.inl (begun.keep (replaces.keeps.trans drifts.keeps) touches.1 touches.2)⟩,
      replaces.ends drifts rfl (by rw [if_neg fine])⟩

theorem complete_locks (found : plan.entries[position]? = some entry) (locks : Locks) :
    (plan.complete position locks).2 = locks.unlockAll entry.node.held := by
  simp [complete, found]

theorem complete_steady (plan : Plan) (position : Nat) (locks : Locks) :
    Pass.Steady locks (plan.complete position locks).2 := by
  cases found : plan.entries[position]? with
  | none =>
    simp only [complete, found]
    exact .refl locks
  | some entry =>
    rw [complete_locks found]
    exact .unlockAll locks _

theorem complete_other (found : plan.entries[position]? = some entry)
    (other : entry.node.state ≠ .executing) (locks : Locks) :
    (plan.complete position locks).1 = plan.modifyNode position fun node => { node with held := [] } := by
  simp [complete, found, other]

/-- A node that is completed ends if it is being executed, and otherwise only gives its
locks back. -/
theorem complete_cases (valid : plan.Valid) (position : Nat) (locks : Locks) :
    (∃ entry, plan.entries[position]? = some entry ∧ entry.node.state = .executing ∧
        (plan.complete position locks).1.Valid ∧
        plan.Ends position entry (plan.complete position locks).1) ∨
      plan.state? position ≠ some .executing ∧
        (plan.complete position locks).1 =
          plan.modifyNode position fun node => { node with held := [] } := by
  cases found : plan.entries[position]? with
  | none =>
    refine Or.inr ⟨by simp [state?, node?, found], ?_⟩
    rw [modifyNode, modify_absent found]
    simp only [complete, found]
  | some entry =>
    by_cases executing : entry.node.state = .executing
    · exact Or.inl ⟨entry, rfl, executing, complete_executing valid found executing locks⟩
    · refine Or.inr ⟨?_, complete_other found executing locks⟩
      rw [state?_eq found]
      exact fun same => executing (Option.some.inj same)

theorem Valid.complete (valid : plan.Valid) (position : Nat) (locks : Locks) :
    (plan.complete position locks).1.Valid := by
  rcases complete_cases valid position locks with ⟨_, _, _, later, _⟩ | ⟨_, same⟩
  · exact later
  · rw [same]
    exact valid.clear position

theorem complete_keeps (valid : plan.Valid) (position : Nat) (locks : Locks) :
    plan.Keeps (plan.complete position locks).1 := by
  rcases complete_cases valid position locks with ⟨_, _, _, _, ends⟩ | ⟨_, same⟩
  · exact ends.keeps
  · rw [same]
    exact modifyNode_keeps plan position (f := fun node => { node with held := [] })
      (fun _ => rfl) (fun _ => rfl) fun _ => rfl

end Foreman.Plan
