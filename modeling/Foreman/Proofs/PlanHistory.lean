import Foreman.Plan.Add
import Foreman.Proofs.Completion
import Foreman.Proofs.Enumeration
import Foreman.Proofs.Selection

/-! The plans that can come about: those that were only built, and those that any
calls on them have led to. All of them are in order. -/

namespace Foreman.Plan

variable {plan after : Plan}

def empty (name : String) (scope : Nat) (continueOnFailure : Bool) : Plan :=
  { name, scope, continueOnFailure }

theorem empty_valid (name : String) (scope : Nat) (rule : Bool) :
    (empty name scope rule).Valid ∧ (empty name scope rule).Idle := by
  have nothing (position : Nat) (entry : Entry)
      (found : (empty name scope rule).entries[position]? = some entry) : False := by
    simp [empty] at found
  have idle : (empty name scope rule).Idle :=
    ⟨rfl, rfl, fun position entry found => (nothing position entry found).elim⟩
  refine ⟨⟨⟨⟨?_, ?_⟩, rfl, List.nodup_nil, ?_, ?_, ?_, ?_⟩, Or.inr idle⟩, idle⟩
  · intro position dep member
    simp [depsOf, node?, empty] at member
  · exact fun position entry found => (nothing position entry found).elim
  · simp [empty, state?, node?]
  · exact fun position entry found => (nothing position entry found).elim
  · exact fun position entry found => (nothing position entry found).elim
  · exact fun position entry found => (nothing position entry found).elim

theorem add_attached {id : String} {names resources : List String}
    (added : plan.add id names resources = .ok after) :
    plan.started = false ∧
      ∃ deps, (∀ dep ∈ deps, dep < plan.size) ∧ after = plan.attach id deps resources := by
  simp only [add] at added
  split at added
  · cases added
  next fresh =>
    split at added
    · cases added
    · split at added
      · cases added
      · cases resolved : plan.resolve id names with
        | error refusal =>
          rw [resolved] at added
          cases added
        | ok deps =>
          rw [resolved] at added
          cases added
          exact ⟨by simpa using fresh, deps, resolve_lt resolved, rfl⟩

theorem Valid.idle (valid : plan.Valid) (fresh : plan.started = false) : plan.Idle := by
  rcases valid.phase with begun | idle
  · simp [begun.started] at fresh
  · exact idle

private theorem Idle.attach {id : String} {deps : List Nat} {resources : List String}
    (idle : plan.Idle) : (plan.attach id deps resources).Idle := by
  refine ⟨idle.started, idle.next, fun position entry found => ?_⟩
  rw [attach_found] at found
  split at found
  · cases found
    exact ⟨rfl, rfl⟩
  · obtain ⟨earlier, present, rfl⟩ := Option.map_eq_some_iff.mp found
    exact idle.untouched position earlier present

/-- In a plan of waiting nodes all counts are what they are at the start. -/
private theorem Idle.valid (idle : plan.Idle) (graph : plan.Graph)
    (remaining : plan.remaining = plan.size) (queue : plan.queue = [])
    (held : ∀ (position : Nat) (entry : Entry), plan.entries[position]? = some entry →
      entry.node.held = []) : plan.Valid := by
  refine ⟨⟨graph, ?_, by simp [queue], ?_, ?_, ?_, ?_⟩, Or.inr idle⟩
  · rw [remaining, List.countP_eq_length.mpr]
    · rfl
    · intro entry member
      obtain ⟨position, found⟩ := List.mem_iff_getElem?.mp member
      simp [(idle.untouched position entry found).1, State.isTerminal]
  · intro position
    constructor
    · simp [queue]
    · intro ready
      obtain ⟨entry, found, state⟩ := entry_of_state? ready
      simp [(idle.untouched position entry found).1] at state
  · intro position entry found moved
    exact absurd (idle.untouched position entry found).1 moved
  · intro position entry found _ seen
    simp [(idle.untouched position entry found).2] at seen
  · intro position entry found holds
    exact absurd (held position entry found) holds

private theorem Idle.counts (valid : plan.Valid) (idle : plan.Idle) :
    plan.remaining = plan.size ∧ plan.queue = [] ∧
      ∀ (position : Nat) (entry : Entry), plan.entries[position]? = some entry →
        entry.node.held = [] := by
  refine ⟨?_, ?_, ?_⟩
  · rw [valid.coherent.remaining, List.countP_eq_length.mpr]
    · rfl
    · intro entry member
      obtain ⟨position, found⟩ := List.mem_iff_getElem?.mp member
      simp [(idle.untouched position entry found).1, State.isTerminal]
  · apply List.eq_nil_iff_forall_not_mem.mpr
    intro position member
    obtain ⟨entry, found, state⟩ := entry_of_state? ((valid.coherent.queued position).mp member)
    simp [(idle.untouched position entry found).1] at state
  · intro position entry found
    have waiting := (idle.untouched position entry found).1
    apply Decidable.of_not_not
    intro held
    simp [valid.coherent.holding position entry found held] at waiting

theorem Valid.add {id : String} {names resources : List String} (valid : plan.Valid)
    (added : plan.add id names resources = .ok after) : after.Valid := by
  obtain ⟨fresh, deps, earlier, rfl⟩ := add_attached added
  have idle := valid.idle fresh
  obtain ⟨remaining, queue, held⟩ := idle.counts valid
  apply idle.attach.valid (attach_graph valid.coherent.graph earlier)
  · rw [attach_size]
    simp [attach, remaining]
  · exact queue
  · intro position entry found
    rw [attach_found] at found
    split at found
    · cases found
      rfl
    · obtain ⟨before, present, rfl⟩ := Option.map_eq_some_iff.mp found
      exact held position before present

theorem Valid.select {plan : Plan} {lease : Lease} {pass : Pass} (valid : plan.Valid)
    (fresh : pass.book.acquired = []) : (plan.select lease pass).2.1.Valid := by
  have selection := select_selection valid.coherent lease fresh
  generalize plan.select lease pass = result at selection
  cases selection with
  | none later starved idles => exact valid
  | some position entry later selects => exact valid.hand selects.found selects.ready

/-- The plans that nodes were added to and nothing else was done to. -/
inductive Built : Plan → Prop where
  | empty (name : String) (scope : Nat) (continueOnFailure : Bool) :
      Built (empty name scope continueOnFailure)
  | add {plan after : Plan} {id : String} {deps resources : List String} (built : Built plan)
      (added : plan.add id deps resources = .ok after) : Built after

/-- The plans that any calls on them lead to, whoever makes them and when. -/
inductive Reached : Plan → Prop where
  | built {plan : Plan} (built : Built plan) : Reached plan
  | populate {plan : Plan} (reached : Reached plan) : Reached plan.populate
  | select {plan : Plan} (lease : Lease) (locks : Locks) (reached : Reached plan) :
      Reached (plan.select lease { locks }).2.1
  | complete {plan : Plan} (position : Nat) (locks : Locks) (reached : Reached plan) :
      Reached (plan.complete position locks).1
  | fail {plan : Plan} (position : Nat) (failure : Failure) (reached : Reached plan) :
      Reached (plan.failNode position failure)
  | cancel {plan : Plan} (reached : Reached plan) : Reached plan.cancel.2
  | abort {plan : Plan} (failure : Failure) (reached : Reached plan) : Reached (plan.abort failure)
  | collect {plan : Plan} (reached : Reached plan) : Reached plan.collect.2

theorem Built.valid (built : plan.Built) : plan.Valid ∧ plan.Idle := by
  induction built with
  | empty name scope rule => exact empty_valid name scope rule
  | add _ added ih =>
    obtain ⟨_, deps, _, rfl⟩ := add_attached added
    exact ⟨ih.1.add added, ih.2.attach⟩

theorem Reached.valid (reached : plan.Reached) : plan.Valid := by
  induction reached with
  | built built => exact built.valid.1
  | populate _ ih => exact ih.populate.1
  | select lease locks _ ih => exact ih.select rfl
  | complete position locks _ ih => exact ih.complete position locks
  | fail position failure _ ih => exact ih.failNode position failure
  | cancel _ ih => exact ih.cancel
  | abort failure _ ih => exact ih.abort failure
  | collect _ ih => exact ih.collect

theorem Built.blank (built : plan.Built) : plan.failures = [] ∧ plan.collected = false ∧
    ∀ (position : Nat) (entry : Entry), plan.entries[position]? = some entry →
      entry.node.failure = none := by
  induction built with
  | empty name scope rule => exact ⟨rfl, rfl, by simp [Plan.empty]⟩
  | add built added ih =>
    obtain ⟨_, deps, _, rfl⟩ := add_attached added
    refine ⟨ih.1, ih.2.1, fun position entry found => ?_⟩
    rw [attach_found] at found
    split at found
    · cases found
      rfl
    · obtain ⟨before, present, rfl⟩ := Option.map_eq_some_iff.mp found
      exact ih.2.2 position before present

end Foreman.Plan
