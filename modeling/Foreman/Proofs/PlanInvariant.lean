import Foreman.Plan.Skip
import Foreman.Proofs.PlanGraph

/-! What holds of a plan whenever nobody is at work on it. The count of open
nodes, the ready queue and the counts of unmet dependencies all agree with the
states of the nodes. In the middle of a call the counts may owe something to
a node that has just ended, and waiting nodes may not know of a failure yet. -/

namespace Foreman.Plan

def unserved (plan : Plan) (deps : List Nat) : Nat :=
  deps.countP fun dep => plan.state? dep ≠ some .succeeded

def Blocked (plan : Plan) (deps : List Nat) : Prop :=
  ∃ dep ∈ deps, plan.state? dep = some .failed ∨ plan.state? dep = some .skipped

/-- A waiting node counts the mentions that have not succeeded and those that are
`owed` to it. Only a `stale` one may have a dependency that will never succeed. -/
structure Waits (plan : Plan) (owed : Nat) (stale : Prop) (entry : Entry) : Prop where
  unmet : entry.unmet = plan.unserved entry.node.deps + owed
  positive : 0 < entry.unmet
  hopeful : ¬ stale → ¬ plan.Blocked entry.node.deps

/-- The queue and the count of open nodes agree with the states of the nodes, whatever
these are. -/
structure Tallied (plan : Plan) : Prop where
  distinct : plan.queue.Nodup
  queued : ∀ position, position ∈ plan.queue ↔ plan.state? position = some .ready
  remaining : plan.remaining = plan.entries.countP fun entry => !entry.node.state.isTerminal

structure Coherent (owed : Nat → Nat) (stale : Nat → Prop) (plan : Plan) : Prop where
  graph : plan.Graph
  remaining : plan.remaining = plan.entries.countP fun entry => !entry.node.state.isTerminal
  distinct : plan.queue.Nodup
  queued : ∀ position, position ∈ plan.queue ↔ plan.state? position = some .ready
  served : ∀ (position : Nat) (entry : Entry), plan.entries[position]? = some entry →
    entry.node.state ≠ .notReady → entry.node.state ≠ .skipped →
    ∀ dep ∈ entry.node.deps, plan.state? dep = some .succeeded
  waiting : ∀ (position : Nat) (entry : Entry), plan.entries[position]? = some entry →
    entry.node.state = .notReady → entry.enumerated = true →
    plan.Waits (owed position) (stale position) entry
  holding : ∀ (position : Nat) (entry : Entry), plan.entries[position]? = some entry →
    entry.node.held ≠ [] → entry.node.state = .executing

/-- Every node was looked at, so from here on only the ends of nodes make others
ready. -/
structure Begun (plan : Plan) : Prop where
  started : plan.started = true
  next : plan.next = plan.size
  enumerated : ∀ (position : Nat) (entry : Entry), plan.entries[position]? = some entry →
    entry.enumerated = true

structure Idle (plan : Plan) : Prop where
  started : plan.started = false
  next : plan.next = 0
  untouched : ∀ (position : Nat) (entry : Entry), plan.entries[position]? = some entry →
    entry.node.state = .notReady ∧ entry.enumerated = false

structure Valid (plan : Plan) : Prop where
  coherent : plan.Coherent (fun _ => 0) (fun _ => False)
  phase : plan.Begun ∨ plan.Idle

variable {plan after : Plan} {owed : Nat → Nat} {stale : Nat → Prop} {position : Nat}
  {entry : Entry}

theorem Coherent.tallied (coherent : plan.Coherent owed stale) : plan.Tallied :=
  ⟨coherent.distinct, coherent.queued, coherent.remaining⟩

theorem Begun.keep (begun : plan.Begun) (keeps : plan.Keeps after)
    (started : after.started = plan.started) (next : after.next = plan.next) : after.Begun := by
  refine ⟨started.trans begun.started, next.trans (begun.next.trans keeps.size.symm), ?_⟩
  intro position entry found
  obtain ⟨earlier, present, links⟩ := keeps.back found
  exact links.enumerated (begun.enumerated position earlier present)

theorem Valid.begun (valid : plan.Valid) (found : plan.entries[position]? = some entry)
    (moved : entry.node.state ≠ .notReady) : plan.Begun := by
  rcases valid.phase with begun | idle
  · exact begun
  · exact absurd (idle.untouched position entry found).1 moved

theorem Valid.begun_of_started (valid : plan.Valid) (started : plan.started = true) : plan.Begun := by
  apply valid.phase.resolve_right
  intro idle
  simp [idle.started] at started

/-! Replacing one entry by a later one. -/

/-- A plan that differs from an earlier one in one entry, and in its queue and its
count as that entry demands. -/
structure Replaces (plan : Plan) (position : Nat) (old new : Entry) (after : Plan) : Prop where
  name : after.name = plan.name
  scope : after.scope = plan.scope
  rule : after.continueOnFailure = plan.continueOnFailure
  found : plan.entries[position]? = some old
  links : old.Links new
  entries : after.entries = plan.entries.set position new
  remaining : after.remaining =
    plan.remaining - (!old.node.state.isTerminal).toNat + (!new.node.state.isTerminal).toNat
  distinct : after.queue.Nodup
  queued : ∀ other, other ∈ after.queue ↔
    if other = position then new.node.state = .ready else other ∈ plan.queue

section
variable {old new : Entry}

theorem Replaces.lookup (replaces : plan.Replaces position old new after) (other : Nat) :
    after.entries[other]? = if other = position then some new else plan.entries[other]? := by
  have inside := (List.getElem?_eq_some_iff.mp replaces.found).1
  rw [replaces.entries, List.getElem?_set]
  by_cases same : position = other
  · simp [same, same ▸ inside]
  · simp [same, Ne.symm same]

theorem Replaces.state? (replaces : plan.Replaces position old new after) (other : Nat) :
    after.state? other = if other = position then some new.node.state else plan.state? other := by
  simp only [Plan.state?, node?, replaces.lookup]
  split <;> rfl

theorem Replaces.keeps (replaces : plan.Replaces position old new after) : plan.Keeps after := by
  refine ⟨replaces.name, replaces.scope, replaces.rule, by simp [size, replaces.entries], ?_⟩
  intro other entry found
  rw [replaces.lookup]
  split
  next same =>
    subst same
    cases Option.some.inj (replaces.found.symm.trans found)
    exact ⟨new, rfl, replaces.links⟩
  · exact ⟨entry, found, .refl entry⟩

private theorem Replaces.count (replaces : plan.Replaces position old new after)
    (remaining : plan.remaining = plan.entries.countP fun entry => !entry.node.state.isTerminal) :
    after.remaining = after.entries.countP fun entry => !entry.node.state.isTerminal := by
  obtain ⟨inside, present⟩ := List.getElem?_eq_some_iff.mp replaces.found
  have bound : (!old.node.state.isTerminal).toNat ≤
      plan.entries.countP fun entry => !entry.node.state.isTerminal := by
    cases holds : old.node.state.isTerminal with
    | true => exact Nat.zero_le _
    | false =>
      exact List.countP_pos_iff.mpr ⟨old, List.mem_of_getElem? replaces.found, by simp [holds]⟩
  rw [replaces.remaining, replaces.entries, List.countP_set inside, present, remaining]
  cases before : old.node.state.isTerminal <;> cases new.node.state.isTerminal <;>
    simp only [before, Bool.not_true, Bool.not_false, Bool.toNat_true, Bool.toNat_false,
      reduceIte, Bool.false_eq_true] at bound ⊢ <;> omega

theorem Replaces.tallied (replaces : plan.Replaces position old new after)
    (tallied : plan.Tallied) : after.Tallied := by
  refine ⟨replaces.distinct, fun other => ?_, replaces.count tallied.remaining⟩
  rw [replaces.queued, replaces.state?]
  split
  · simp
  · exact tallied.queued other

/-- How the count of a waiting node changes with one of its dependencies. -/
theorem Replaces.unserved (replaces : plan.Replaces position old new after)
    (kept : old.node.state = .succeeded → new.node.state = .succeeded) (deps : List Nat) :
    after.unserved deps +
        (if new.node.state = .succeeded ∧ old.node.state ≠ .succeeded then deps.count position
          else 0) = plan.unserved deps := by
  have before := state?_eq replaces.found
  induction deps with
  | nil => simp [Plan.unserved]
  | cons dep rest ih =>
    simp only [Plan.unserved, List.countP_cons, List.count_cons] at ih ⊢
    rw [replaces.state? dep]
    by_cases same : dep = position
    · subst same
      by_cases served : new.node.state = .succeeded <;>
        by_cases earlier : old.node.state = .succeeded <;> simp_all
      omega
    · simp [same] at ih ⊢
      omega

/-- The other nodes owe nothing new unless the entry has just succeeded, and learn
of a failure only where they are declared stale. -/
theorem Coherent.replace {owed' : Nat → Nat} {stale' : Nat → Prop}
    (coherent : plan.Coherent owed stale) (replaces : plan.Replaces position old new after)
    (kept : old.node.state = .succeeded → new.node.state = .succeeded)
    (served : new.node.state ≠ .notReady → new.node.state ≠ .skipped →
      ∀ dep ∈ old.node.deps, plan.state? dep = some .succeeded)
    (holding : new.node.held ≠ [] → new.node.state = .executing)
    (owes : ∀ other, other ≠ position → owed' other = owed other +
      if new.node.state = .succeeded ∧ old.node.state ≠ .succeeded
        then (plan.depsOf other).count position else 0)
    (informed : ∀ other, other ≠ position → ¬ stale' other → ¬ stale other ∧
      (position ∈ plan.depsOf other → new.node.state = old.node.state ∨
        new.node.state ≠ .failed ∧ new.node.state ≠ .skipped))
    (waits : new.node.state = .notReady → new.enumerated = true →
      plan.Waits (owed' position) (stale' position) new) : after.Coherent owed' stale' := by
  have counts (deps : List Nat) := replaces.unserved kept deps
  have hopes (deps : List Nat) (hopeful : ¬ plan.Blocked deps)
      (fine : position ∈ deps → new.node.state = old.node.state ∨
        new.node.state ≠ .failed ∧ new.node.state ≠ .skipped) : ¬ after.Blocked deps := by
    intro blocked
    obtain ⟨dep, member, bad⟩ := blocked
    rw [replaces.state? dep] at bad
    split at bad
    next same =>
      subst same
      rcases fine member with same | ⟨unfailed, unskipped⟩
      · rw [same, ← state?_eq replaces.found] at bad
        exact hopeful ⟨dep, member, bad⟩
      · simp only [Option.some.injEq] at bad
        exact bad.elim unfailed unskipped
    · exact hopeful ⟨dep, member, bad⟩
  have tallied := replaces.tallied coherent.tallied
  refine ⟨coherent.graph.keep replaces.keeps, tallied.remaining, tallied.distinct, tallied.queued,
    ?_, ?_, ?_⟩
  · intro other entry found moved unskipped dep member
    rw [replaces.lookup] at found
    have earlier : plan.state? dep = some .succeeded := by
      split at found
      · cases found
        exact served moved unskipped dep (replaces.links.deps ▸ member)
      · exact coherent.served other entry found moved unskipped dep member
    rw [replaces.state?]
    split
    next same =>
      subst same
      have := (state?_eq replaces.found).symm.trans earlier
      rw [kept (Option.some.inj this)]
    · exact earlier
  · intro other entry found idle seen
    rw [replaces.lookup] at found
    split at found
    next same =>
      cases found
      subst same
      have waits := waits idle seen
      have own : other ∉ new.node.deps := by
        intro member
        rw [replaces.links.deps, ← depsOf_eq replaces.found] at member
        exact Nat.lt_irrefl _ (coherent.graph.earlier other other member)
      refine ⟨?_, waits.positive, fun fresh => hopes _ (waits.hopeful fresh) (absurd · own)⟩
      have count := counts new.node.deps
      rw [waits.unmet, ← count, List.count_eq_zero.mpr own]
      simp
    next differs =>
      have waits := coherent.waiting other entry found idle seen
      have owes := owes other differs
      have count := counts entry.node.deps
      rw [depsOf_eq found] at owes
      refine ⟨?_, waits.positive, fun fresh => ?_⟩
      · rw [waits.unmet, owes, ← count]
        omega
      · obtain ⟨before, fine⟩ := informed other differs fresh
        rw [depsOf_eq found] at fine
        exact hopes _ (waits.hopeful before) fine
  · intro other entry found held
    rw [replaces.lookup] at found
    split at found
    · cases found
      exact holding held
    · exact coherent.holding other entry found held

end
end Foreman.Plan
