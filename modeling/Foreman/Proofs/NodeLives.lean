import Foreman.Proofs.NodeMarks
import Mathlib.Data.List.Chain

/-! The life of a node, whatever is called on its plan and in whatever order. It waits,
becomes ready once all its dependencies have succeeded, is selected at most once and
ends as its first failure says, or it is skipped before it was selected. -/

namespace Foreman.Plan.Session

variable {session start : Session} {call : Operation} {calls : List Operation} {position : Nat}
  {old new : Entry}

/-! What a history tells of a node. -/

def selections (start : Session) (calls : List Operation) : List Nat :=
  (start.chronicle calls).filterMap fun step => step.1.selected? step.2

/-- The failures that were noted on the node, in order. Before it is in the plan there
is nothing to note them on. -/
def given (start : Session) (calls : List Operation) (position : Nat) : List Failure :=
  (start.chronicle calls).filterMap fun step =>
    if position < step.1.plan.size then step.2.given? position else none

/-- The states of the node from its addition on, before each call and after the last. -/
def trail (start : Session) (calls : List Operation) (position : Nat) : List State :=
  (start.chronicle calls).filterMap (fun step => step.1.plan.state? position) ++
    ((start.run calls).plan.state? position).toList

theorem selections_concat (start : Session) (calls : List Operation) (call : Operation) :
    start.selections (calls ++ [call]) =
      start.selections calls ++ ((start.run calls).selected? call).toList := by
  rw [selections, chronicle_concat, List.filterMap_append]
  cases selected : (start.run calls).selected? call <;> simp [selections, selected]

theorem given_concat (start : Session) (calls : List Operation) (call : Operation)
    (position : Nat) : start.given (calls ++ [call]) position = start.given calls position ++
      (if position < (start.run calls).plan.size then call.given? position else none).toList := by
  rw [given, chronicle_concat, List.filterMap_append]
  cases noted : (if position < (start.run calls).plan.size then call.given? position else none) <;>
    simp [given, noted]

theorem trail_concat (start : Session) (calls : List Operation) (call : Operation)
    (position : Nat) : start.trail (calls ++ [call]) position =
      start.trail calls position ++
        ((start.run (calls ++ [call])).plan.state? position).toList := by
  rw [trail, chronicle_concat, List.filterMap_append]
  cases state : (start.run calls).plan.state? position <;> simp [trail, state]

theorem trail_last (found : (start.run calls).plan.entries[position]? = some old) :
    (start.trail calls position).getLast? = some old.node.state := by
  rw [trail, state?_eq found]
  exact List.getLast?_concat

/-! One call in the life of a node. -/

/-- The end of a node, as the call that completed it found it. -/
def Ended (start : Session) (calls : List Operation) (position : Nat) (failed : Bool) : Prop :=
  ∃ step ∈ start.chronicle calls, step.2 = .complete position ∧
    ∃ entry, step.1.plan.entries[position]? = some entry ∧ entry.node.state = .executing ∧
      entry.node.failure.isSome = failed

theorem Ended.concat {failed : Bool} (ended : start.Ended calls position failed)
    (call : Operation) : start.Ended (calls ++ [call]) position failed := by
  obtain ⟨step, member, rest⟩ := ended
  refine ⟨step, ?_, rest⟩
  rw [chronicle_concat]
  exact List.mem_append_left _ member

/-- What a history tells of a node that it has brought about. -/
structure Lived (start : Session) (calls : List Operation) (position : Nat) (node : Node) :
    Prop where
  born : (start.trail calls position).head? = some .notReady
  path : (start.trail calls position).IsChain fun earlier later =>
    later = earlier ∨ earlier.canMoveTo later = true
  selected : position ∈ start.selections calls ↔ node.state.wasSelected = true
  failure : node.failure =
    (start.given calls position).head?.map (·.withDetail "node_id" node.id)
  failed : node.state = .failed → node.failure.isSome = true ∧ start.Ended calls position true
  succeeded : node.state = .succeeded → start.Ended calls position false

structure Unborn (start : Session) (calls : List Operation) (position : Nat) : Prop where
  trail : start.trail calls position = []
  selected : position ∉ start.selections calls
  given : start.given calls position = []

theorem Fate.moves (fate : session.Fate call position old.node new.node) :
    new.node.state = old.node.state ∨ old.node.state.canMoveTo new.node.state = true := by
  cases fate with
  | drifts drift => exact moves_of_drift drift
  | handed ready executing =>
    rw [ready, executing]
    exact Or.inr rfl
  | noted failure _ same =>
    rw [same]
    exact Or.inl rfl
  | idled _ _ same =>
    rw [same]
    exact Or.inl rfl
  | ended _ executing _ state =>
    rw [state, executing]
    split <;> exact Or.inr rfl

theorem Fate.selected (fate : session.Fate call position old.node new.node) :
    new.node.state.wasSelected = true ↔
      old.node.state.wasSelected = true ∨ session.selected? call = some position := by
  cases fate with
  | drifts drift unselected =>
    rw [drift.selected]
    exact (or_iff_left unselected).symm
  | handed ready executing _ selected =>
    rw [executing]
    exact iff_of_true rfl (Or.inr selected)
  | noted failure own same =>
    rw [same, own]
    simp [Node.fail, selected?, perform]
  | idled own _ same =>
    rw [same, own]
    simp [selected?, perform]
  | ended _ executing _ state =>
    rw [state, executing]
    refine iff_of_true ?_ (Or.inl rfl)
    split <;> rfl

/-- A failure that is noted counts only if there was none before. -/
theorem Fate.failure (fate : session.Fate call position old.node new.node) :
    new.node.failure =
      old.node.failure.or ((call.given? position).map (·.withDetail "node_id" old.node.id)) := by
  cases fate with
  | drifts drift _ ungiven => rw [drift.failure, ungiven, Option.map_none, Option.or_none]
  | handed _ _ failure _ ungiven => rw [failure, ungiven, Option.map_none, Option.or_none]
  | noted failure own same =>
    rw [same, own]
    simp [Node.fail, Operation.given?, Option.orElse_eq_or]
  | idled own _ same =>
    rw [same, own]
    simp [Operation.given?]
  | ended own _ failure =>
    rw [failure, own]
    simp [Operation.given?]

/-- A node gets into an end only by being completed. -/
theorem Fate.ended_of (fate : session.Fate call position old.node new.node)
    (failed : Bool) (state : new.node.state = if failed then .failed else .succeeded) :
    new.node.state = old.node.state ∨ call = .complete position ∧
      old.node.state = .executing ∧ old.node.failure.isSome = failed := by
  cases fate with
  | drifts drift =>
    rcases drift.state with same | ⟨_, ready | skipped⟩
    · exact Or.inl same
    · cases failed <;> simp [ready] at state
    · cases failed <;> simp [skipped] at state
  | handed _ executing => cases failed <;> simp [executing] at state
  | noted failure _ same => exact Or.inl (by rw [same]; rfl)
  | idled _ _ same => exact Or.inl (by rw [same])
  | ended own executing _ outcome =>
    refine Or.inr ⟨own, executing, ?_⟩
    rw [state] at outcome
    cases failed <;> cases noted : old.node.failure <;> simp_all

section

variable (found : (start.run calls).plan.entries[position]? = some old)
  (present : (start.run (calls ++ [call])).plan.entries[position]? = some new)
  (fate : (start.run calls).Fate call position old.node new.node)
include found fate

private theorem Fate.end_told (failed : Bool)
    (state : new.node.state = if failed then .failed else .succeeded)
    (earlier : old.node.state = new.node.state → start.Ended calls position failed) :
    start.Ended (calls ++ [call]) position failed := by
  rcases fate.ended_of failed state with same | ⟨own, executing, noted⟩
  · exact (earlier same.symm).concat call
  · refine ⟨(start.run calls, call), ?_, own, old, found, executing, noted⟩
    rw [chronicle_concat]
    exact List.mem_append_right _ List.mem_cons_self

include present

/-- What the history told of a node before a call it tells after the call. -/
theorem Lived.concat (lived : start.Lived calls position old.node)
    (id : new.node.id = old.node.id) : start.Lived (calls ++ [call]) position new.node := by
  have trail : start.trail (calls ++ [call]) position =
      start.trail calls position ++ [new.node.state] := by
    rw [trail_concat, state?_eq present]
    rfl
  constructor
  · rw [trail, List.head?_append, lived.born]
    rfl
  · rw [trail]
    apply lived.path.append (List.isChain_singleton _)
    intro earlier last later first
    rw [trail_last found] at last
    cases last
    cases first
    exact fate.moves
  · rw [selections_concat, List.mem_append, lived.selected, fate.selected, Option.mem_toList]
  · have inside : position < (start.run calls).plan.size := (List.getElem?_eq_some_iff.mp found).1
    rw [given_concat, if_pos inside, List.head?_append, Option.head?_toList, Option.map_or, id,
      ← lived.failure]
    exact fate.failure
  · intro state
    have ended := fate.end_told found true state fun same =>
      (lived.failed (same.trans state)).2
    refine ⟨?_, ended⟩
    rw [fate.failure, Option.isSome_or, Bool.or_eq_true]
    apply Or.inl
    rcases fate.ended_of true state with same | ⟨_, _, noted⟩
    · exact (lived.failed (same.symm.trans state)).1
    · exact noted
  · intro state
    exact fate.end_told found false state fun same =>
      lived.succeeded (same.trans state)

end

private theorem Unborn.begins (unborn : start.Unborn calls position)
    (absent : (start.run calls).plan.entries[position]? = none)
    (unselected : (start.run calls).selected? call ≠ some position)
    (present : (start.run (calls ++ [call])).plan.entries[position]? = some new)
    (idle : new.node.state = .notReady) (blank : new.node.failure = none) :
    start.Lived (calls ++ [call]) position new.node := by
  have trail : start.trail (calls ++ [call]) position = [.notReady] := by
    rw [trail_concat, state?_eq present, unborn.trail, idle]
    rfl
  have outside : ¬ position < (start.run calls).plan.size :=
    Nat.not_lt.mpr (List.getElem?_eq_none_iff.mp absent)
  constructor
  · rw [trail]
    rfl
  · rw [trail]
    exact List.isChain_singleton _
  · rw [selections_concat, List.mem_append, Option.mem_toList, idle]
    exact iff_of_false (not_or.mpr ⟨unborn.selected, unselected⟩) Bool.false_ne_true
  · rw [given_concat, if_neg outside, unborn.given, blank]
    rfl
  · rw [idle]
    intro state
    cases state
  · rw [idle]
    intro state
    cases state

private theorem Unborn.concat (unborn : start.Unborn calls position)
    (absent : (start.run calls).plan.entries[position]? = none)
    (unselected : (start.run calls).selected? call ≠ some position)
    (still : (start.run (calls ++ [call])).plan.entries[position]? = none) :
    start.Unborn (calls ++ [call]) position := by
  have outside : ¬ position < (start.run calls).plan.size :=
    Nat.not_lt.mpr (List.getElem?_eq_none_iff.mp absent)
  constructor
  · rw [trail_concat, unborn.trail, state?, node?, still]
    rfl
  · rw [selections_concat, List.mem_append, Option.mem_toList]
    exact not_or.mpr ⟨unborn.selected, unselected⟩
  · rw [given_concat, if_neg outside, unborn.given]
    rfl

/-! A whole run. -/

private def Told (start : Session) (calls : List Operation) (position : Nat) : Prop :=
  match (start.run calls).plan.entries[position]? with
  | none => start.Unborn calls position
  | some entry => start.Lived calls position entry.node

private theorem Told.concat (valid : (start.run calls).plan.Valid)
    (orderly : call.isOrderly = true) (told : start.Told calls position) :
    start.Told (calls ++ [call]) position := by
  have stepped := run_concat start calls call
  unfold Told at told ⊢
  cases found : (start.run calls).plan.entries[position]? with
  | some old =>
    rw [found] at told
    obtain ⟨new, present, id, fate⟩ := perform_fate valid orderly found
    rw [← stepped] at present
    rw [present]
    exact told.concat found present fate id
  | none =>
    rw [found] at told
    have unselected : (start.run calls).selected? call ≠ some position := by
      intro selected
      obtain ⟨entry, present, _⟩ := selected_ready valid selected
      rw [found] at present
      cases present
    cases present : (start.run (calls ++ [call])).plan.entries[position]? with
    | none => exact told.concat found unselected present
    | some new =>
      obtain ⟨idle, blank⟩ := perform_born valid orderly found (stepped ▸ present)
      exact told.begins found unselected present idle blank

private theorem selections_fresh (valid : (start.run calls).plan.Valid)
    (told : start.Told calls position)
    (selected : (start.run calls).selected? call = some position) :
    position ∉ start.selections calls := by
  obtain ⟨entry, found, ready⟩ := selected_ready valid selected
  unfold Told at told
  rw [found] at told
  rw [told.selected, ready]
  exact Bool.false_ne_true

/-- When a node was selected, all that it depends on had succeeded. -/
def SelectsServed (start : Session) (calls : List Operation) : Prop :=
  ∀ step ∈ start.chronicle calls, ∀ node, step.1.selected? step.2 = some node →
    ∃ entry, step.1.plan.entries[node]? = some entry ∧
      ∀ dep ∈ entry.node.deps, step.1.plan.state? dep = some .succeeded

private theorem SelectsServed.concat (served : start.SelectsServed calls)
    (valid : (start.run calls).plan.Valid) : start.SelectsServed (calls ++ [call]) := by
  intro step member node selected
  rw [chronicle_concat] at member
  rcases List.mem_append.mp member with earlier | last
  · exact served step earlier node selected
  · cases List.mem_singleton.mp last
    obtain ⟨entry, found, ready⟩ := selected_ready valid selected
    refine ⟨entry, found, ?_⟩
    apply valid.coherent.served node entry found <;> simp [ready]

private structure Tells (start : Session) (calls : List Operation) : Prop where
  told : ∀ position, start.Told calls position
  once : (start.selections calls).Nodup
  served : start.SelectsServed calls
  marked : (start.run calls).plan.Marked

private theorem Tells.fresh (name : String) (scope : Nat) (rule : Bool) (desk : Desk) :
    Tells { plan := empty name scope rule, desk } [] := by
  refine ⟨fun position => ⟨rfl, List.not_mem_nil, rfl⟩, List.nodup_nil, ?_, ?_⟩
  · intro step member
    cases member
  · intro entry member
    cases member

private theorem Tells.concat (tells : start.Tells calls) (valid : (start.run calls).plan.Valid)
    (orderly : call.isOrderly = true) : start.Tells (calls ++ [call]) := by
  refine ⟨fun position => (tells.told position).concat valid orderly, ?_,
    tells.served.concat valid, ?_⟩
  · rw [selections_concat]
    apply List.nodup_append.mpr
    refine ⟨tells.once, ?_, ?_⟩
    · cases (start.run calls).selected? call <;> simp
    · rintro position earlier _ now rfl
      exact selections_fresh valid (tells.told position) (Option.mem_toList.mp now) earlier
  · rw [run_concat]
    exact perform_marked valid orderly tells.marked

/-- Whatever is called on a fresh plan and on the locks, in whatever order: no node is
selected twice, or before all that it depends on has succeeded. A node that was added
waits, and from then on keeps its state or makes a move that its rules allow. While it
is ready or executed, and when it has ended, all that it depends on has succeeded. It
fails only with a failure and succeeds only without one; the first failure noted on it
is the one that it has. It is marked as started if and only if it was selected, and as
finished if and only if it is terminal. -/
theorem nodes_live_once (name : String) (scope : Nat) (rule : Bool) (desk : Desk)
    (calls : List Operation) (orderly : ∀ call ∈ calls, call.isOrderly = true) :
    let start : Session := { plan := empty name scope rule, desk }
    (start.selections calls).Nodup ∧ start.SelectsServed calls ∧
      ∀ (position : Nat) (entry : Entry), (start.run calls).plan.entries[position]? = some entry →
        start.Lived calls position entry.node ∧
        (entry.node.state ≠ .notReady → entry.node.state ≠ .skipped →
          ∀ dep ∈ entry.node.deps, (start.run calls).plan.state? dep = some .succeeded) ∧
        (entry.node.started = true ↔ position ∈ start.selections calls) ∧
        (entry.node.finished = true ↔ entry.node.state.isTerminal = true) := by
  intro start
  have fresh : start.plan.Valid := (empty_valid name scope rule).1
  have tells : start.Tells calls := by
    apply run_keeps fresh (Tells.fresh name scope rule desk) _ orderly
    exact fun calls call valid orderly tells => tells.concat valid orderly
  refine ⟨tells.once, tells.served, fun position entry found => ?_⟩
  have lived := tells.told position
  unfold Told at lived
  rw [found] at lived
  have marks := tells.marked entry (List.mem_of_getElem? found)
  refine ⟨lived, ?_, ?_, ?_⟩
  · exact (run_valid fresh orderly).coherent.served position entry found
  · rw [marks.started, lived.selected]
  · rw [marks.finished]

/-- The bed is taken, so that the last node stays ready until the cancellation. The
second node had its failure before it was selected, and the first gets one after it has
ended. -/
private def outing : List Operation :=
  [ .add "pack" [] [], .add "drive" ["pack"] [], .add "swim" ["drive", "drive"] [],
    .add "sleep" [] ["bed"], .locks (.createTree "crew" 1), .locks (.createChild ⟨0, 0⟩),
    .locks (.tryLock (.resource 0 "bed") 1), .populate, .fail 1 (.internal "fog"),
    .select ⟨0, 1⟩ 0, .complete 0, .fail 0 (.internal "late"), .complete 0, .select ⟨0, 1⟩ 0,
    .fail 1 (.internal "rain"), .complete 1, .select ⟨0, 1⟩ 0, .cancel, .select ⟨0, 1⟩ 0 ]

private def holiday : Session :=
  { plan := empty "holiday" 0 true, desk := { books := [{}, {}] } }

theorem outing_lived : holiday.selections outing = [0, 1] ∧ (holiday.selections outing).Nodup ∧
    (holiday.run outing).plan.entries.map (·.node.state) =
      [.succeeded, .failed, .skipped, .skipped] ∧
    ∃ entry, (holiday.run outing).plan.entries[1]? = some entry ∧
      entry.node.failure = some { Failure.internal "fog" with details := [("node_id", "drive")] } ∧
      holiday.Lived outing 1 entry.node := by
  obtain ⟨once, _, lives⟩ := nodes_live_once "holiday" 0 true { books := [{}, {}] } outing (by decide)
  have states : (holiday.run outing).plan.entries.map (·.node.state) =
      [.succeeded, .failed, .skipped, .skipped] := by decide +kernel
  have noted : (holiday.run outing).plan.entries[1]?.bind (·.node.failure) =
      some { Failure.internal "fog" with details := [("node_id", "drive")] } := by decide +kernel
  obtain ⟨entry, found, failure⟩ := Option.bind_eq_some_iff.mp noted
  exact ⟨by decide +kernel, once, states, entry, found, failure, (lives 1 entry found).1⟩

end Foreman.Plan.Session
