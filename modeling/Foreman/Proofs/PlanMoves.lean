import Foreman.Plan.Select
import Foreman.Proofs.PlanInvariant

/-! The single moves of nodes. Nodes that nobody has selected drift: they become
ready or are skipped, and nothing else about them changes. -/

namespace Foreman

/-- What happens to a node that nobody handles. -/
structure Node.Drifts (before after : Node) : Prop where
  failure : after.failure = before.failure
  held : after.held = before.held
  state : after.state = before.state ∨
    before.state.isUnscheduled = true ∧ (after.state = .ready ∨ after.state = .skipped)

theorem State.settled_of_terminal {state : State} (terminal : state.isTerminal = true) :
    state.isUnscheduled = false := by
  cases state with
  | notReady | ready | executing => cases terminal
  | succeeded | failed | skipped => rfl

namespace Node

variable {first middle last : Node}

theorem Drifts.refl (node : Node) : node.Drifts node := ⟨rfl, rfl, Or.inl rfl⟩

theorem Drifts.trans (left : first.Drifts middle) (right : middle.Drifts last) :
    first.Drifts last := by
  refine ⟨right.failure.trans left.failure, right.held.trans left.held, ?_⟩
  rcases right.state with same | ⟨free, moved⟩
  · rw [same]
    exact left.state
  · rcases left.state with same | ⟨free, _⟩
    · exact Or.inr ⟨same ▸ free, moved⟩
    · exact Or.inr ⟨free, moved⟩

theorem Drifts.settled (drifts : first.Drifts last) (settled : first.state.isUnscheduled = false) :
    last.state = first.state := by
  rcases drifts.state with same | ⟨free, _⟩
  · exact same
  · simp [settled] at free

end Node

namespace Plan

variable {plan before middle after : Plan} {owed : Nat → Nat} {stale : Nat → Prop}
  {position : Nat} {entry : Entry}

/-- Nothing has changed but nodes, the queue and the count of open nodes. -/
def Touches (before after : Plan) : Prop :=
  ∃ entries queue remaining, after = { before with entries, queue, remaining }

theorem Touches.refl (plan : Plan) : plan.Touches plan := ⟨_, _, _, rfl⟩

theorem Touches.trans (left : before.Touches middle) (right : middle.Touches after) :
    before.Touches after := by
  obtain ⟨_, _, _, rfl⟩ := left
  obtain ⟨_, _, _, rfl⟩ := right
  exact ⟨_, _, _, rfl⟩

theorem Touches.foldl {α : Type} {f : Plan → α → Plan} (one : ∀ plan item, Touches plan (f plan item))
    (items : List α) (plan : Plan) : plan.Touches (items.foldl f plan) := by
  induction items generalizing plan with
  | nil => exact .refl plan
  | cons first rest ih => exact (one plan first).trans (ih _)

theorem Touches.phase (touches : before.Touches after) :
    after.started = before.started ∧ after.next = before.next := by
  obtain ⟨_, _, _, rfl⟩ := touches
  exact ⟨rfl, rfl⟩

theorem skip_touches (plan : Plan) (position : Nat) : plan.Touches (plan.skip position) := by
  unfold skip
  split <;> exact ⟨_, _, _, rfl⟩

structure Drifts (before after : Plan) : Prop where
  keeps : before.Keeps after
  node : ∀ (position : Nat) (entry later : Entry), before.entries[position]? = some entry →
    after.entries[position]? = some later → entry.node.Drifts later.node

theorem Drifts.refl (plan : Plan) : plan.Drifts plan := by
  refine ⟨.refl plan, fun position entry later found again => ?_⟩
  cases Option.some.inj (found.symm.trans again)
  exact .refl _

theorem Drifts.trans (left : before.Drifts middle) (right : middle.Drifts after) :
    before.Drifts after := by
  refine ⟨left.keeps.trans right.keeps, fun position entry later found again => ?_⟩
  obtain ⟨between, present, _⟩ := left.keeps.entry position entry found
  exact (left.node _ _ _ found present).trans (right.node _ _ _ present again)

theorem Drifts.back (drifts : before.Drifts after) (found : after.entries[position]? = some entry) :
    ∃ earlier, before.entries[position]? = some earlier ∧ earlier.Links entry ∧
      earlier.node.Drifts entry.node := by
  obtain ⟨earlier, present, links⟩ := drifts.keeps.back found
  exact ⟨earlier, present, links, drifts.node _ _ _ present found⟩

theorem Drifts.ahead (drifts : before.Drifts after)
    (found : before.entries[position]? = some entry) :
    ∃ later, after.entries[position]? = some later ∧ entry.Links later ∧
      entry.node.Drifts later.node := by
  obtain ⟨later, present, links⟩ := drifts.keeps.entry position entry found
  exact ⟨later, present, links, drifts.node _ _ _ found present⟩

theorem Drifts.state? (drifts : before.Drifts after) {state : State}
    (found : before.state? position = some state) (settled : state.isUnscheduled = false) :
    after.state? position = some state := by
  obtain ⟨entry, present, rfl⟩ := entry_of_state? found
  obtain ⟨later, again, _, drift⟩ := drifts.ahead present
  rw [state?_eq again, drift.settled settled]

theorem Replaces.drifts {old new : Entry} (replaces : plan.Replaces position old new after)
    (drift : old.node.Drifts new.node) : plan.Drifts after := by
  refine ⟨replaces.keeps, fun other entry later found again => ?_⟩
  rw [replaces.lookup] at again
  split at again
  next same =>
    subst same
    cases again
    cases Option.some.inj (replaces.found.symm.trans found)
    exact drift
  · cases Option.some.inj (found.symm.trans again)
    exact .refl _

/-! The moves of one node. -/

/-- The queue as it is agrees with an entry whose readiness does not change. -/
private theorem queued_same (queued : ∀ other, other ∈ plan.queue ↔ plan.state? other = some .ready)
    (found : plan.entries[position]? = some entry) {state : State}
    (same : state = .ready ↔ entry.node.state = .ready) (other : Nat) :
    other ∈ plan.queue ↔ if other = position then state = .ready else other ∈ plan.queue := by
  split
  next here =>
    rw [queued, here, state?_eq found, same, Option.some.injEq]
  · rfl

theorem modify_modify (found : plan.entries[position]? = some entry) (f g : Entry → Entry) :
    ((plan.modify position f).modify position g).entries = plan.entries.set position (g (f entry)) := by
  have first : (plan.modify position f).entries[position]? = some (f entry) := by
    rw [entries_modify, if_pos rfl, found]
    rfl
  rw [modify_set first, modify_set found, List.set_set]

/-- A waiting node all of whose dependencies have succeeded becomes ready, whatever
the plan notes about it on the way. -/
theorem Coherent.markReady {f : Entry → Entry} {owed' : Nat → Nat}
    (coherent : plan.Coherent owed stale) (found : plan.entries[position]? = some entry)
    (idle : entry.node.state = .notReady)
    (served : ∀ dep ∈ entry.node.deps, plan.state? dep = some .succeeded)
    (links : entry.Links (f entry)) (node : (f entry).node = entry.node)
    (same : ∀ other, other ≠ position → owed' other = owed other) :
    ((plan.modify position f).markReady position).Coherent owed' stale ∧
      plan.Drifts ((plan.modify position f).markReady position) := by
  have absent : position ∉ plan.queue := by
    rw [coherent.queued, state?_eq found, idle]
    simp
  have replaces : plan.Replaces position entry { f entry with node := (f entry).node.enter .ready }
      ((plan.modify position f).markReady position) :=
    { name := rfl
      scope := rfl
      rule := rfl
      found := found
      links := ⟨links.id, links.deps, links.resources, links.dependents, links.enumerated⟩
      entries := modify_modify found f _
      remaining := by
        simp [Plan.markReady, modifyNode, modify, idle, Node.enter, State.isTerminal]
      distinct := List.nodup_append.mpr ⟨coherent.distinct, by simp, by
        intro other member _ single same
        subst same
        exact absent (List.mem_singleton.mp single ▸ member)⟩
      queued := by
        intro other
        simp only [Plan.markReady, modifyNode, modify, List.mem_append, List.mem_singleton,
          Node.enter]
        split <;> simp_all }
  refine ⟨coherent.replace replaces ?_ ?_ ?_ ?_ ?_ ?_, replaces.drifts ⟨?_, ?_, Or.inr ?_⟩⟩
  · simp [idle]
  · exact fun _ _ => served
  · intro held
    exact absurd (coherent.holding position entry found (by simpa [Node.enter, node] using held))
      (by simp [idle])
  · intro other differs
    simp [Node.enter, same other differs]
  · exact fun other _ fresh => ⟨fresh, fun _ => Or.inr (by simp [Node.enter])⟩
  · simp [Node.enter]
  · simp [Node.enter, node]
  · simp [Node.enter, node]
  · simp [idle, Node.enter, State.isUnscheduled]

/-- Nobody has selected the node yet, and somebody still may. -/
def isUnscheduled (plan : Plan) (position : Nat) : Bool :=
  (plan.state? position).any (·.isUnscheduled)

theorem isUnscheduled_entry (unscheduled : plan.isUnscheduled position = true) :
    ∃ entry, plan.entries[position]? = some entry ∧ entry.node.state.isUnscheduled = true := by
  obtain ⟨state, known, free⟩ := (Option.any_eq_true _ _).mp unscheduled
  obtain ⟨entry, found, rfl⟩ := entry_of_state? known
  exact ⟨entry, found, free⟩

theorem skip_scheduled (scheduled : plan.isUnscheduled position = false) :
    plan.skip position = plan := by
  rw [isUnscheduled] at scheduled
  cases state : plan.state? position with
  | none => simp [skip, state]
  | some current => cases current <;> simp_all [skip, State.isUnscheduled]

theorem Replaces.skip (tallied : plan.Tallied)
    (found : plan.entries[position]? = some entry)
    (free : entry.node.state.isUnscheduled = true) :
    plan.Replaces position entry { entry with node := entry.node.enter .skipped }
      (plan.skip position) := by
  have state := state?_eq found
  cases current : entry.node.state with
  | executing | succeeded | failed | skipped => simp [current, State.isUnscheduled] at free
  | notReady =>
    rw [current] at state
    have skips : plan.skip position = plan.markTerminal position .skipped := by
      simp [Plan.skip, state]
    rw [skips]
    exact
      { name := rfl
        scope := rfl
        rule := rfl
        found := found
        links := ⟨rfl, rfl, rfl, rfl, id⟩
        entries := modify_set found _
        remaining := by simp [markTerminal, modifyNode, modify, current, Node.enter, State.isTerminal]
        distinct := tallied.distinct
        queued := queued_same tallied.queued found (by simp [current, Node.enter]) }
  | ready =>
    rw [current] at state
    have skips : plan.skip position =
        { plan.markTerminal position .skipped with queue := plan.queue.filter (· ≠ position) } := by
      simp [Plan.skip, state]
    rw [skips]
    exact
      { name := rfl
        scope := rfl
        rule := rfl
        found := found
        links := ⟨rfl, rfl, rfl, rfl, id⟩
        entries := modify_set found _
        remaining := by simp [markTerminal, modifyNode, modify, current, Node.enter, State.isTerminal]
        distinct := tallied.distinct.filter _
        queued := by
          intro other
          simp only [List.mem_filter, decide_eq_true_eq, Node.enter]
          split <;> simp_all }

/-- A node that is skipped leaves those behind that wait for it. -/
theorem Coherent.skip (coherent : plan.Coherent owed stale) (position : Nat) :
    (plan.skip position).Coherent owed (fun other => stale other ∨ position ∈ plan.depsOf other) ∧
      plan.Drifts (plan.skip position) ∧
      ∀ state, (plan.skip position).state? position = some state → state.isUnscheduled = false := by
  have loosen : plan.Coherent owed (fun other => stale other ∨ position ∈ plan.depsOf other) :=
    { coherent with
      waiting := fun other entry found idle seen =>
        have waits := coherent.waiting other entry found idle seen
        ⟨waits.unmet, waits.positive, fun fresh => waits.hopeful fun old => fresh (Or.inl old)⟩ }
  cases unscheduled : plan.isUnscheduled position with
  | true =>
    obtain ⟨entry, found, free⟩ := isUnscheduled_entry unscheduled
    have replaces := Replaces.skip coherent.tallied found free
    refine ⟨coherent.replace replaces ?_ ?_ ?_ ?_ ?_ ?_, replaces.drifts ⟨rfl, rfl, Or.inr ?_⟩, ?_⟩
    · intro succeeded
      simp [succeeded, State.isUnscheduled] at free
    · simp [Node.enter]
    · intro held
      have := coherent.holding position entry found held
      simp [this, State.isUnscheduled] at free
    · simp [Node.enter]
    · intro other _ fresh
      exact ⟨fun old => fresh (Or.inl old), fun named => absurd (Or.inr named) fresh⟩
    · simp [Node.enter]
    · exact ⟨free, Or.inr rfl⟩
    · intro state now
      rw [replaces.state?, if_pos rfl] at now
      cases now
      rfl
  | false =>
    rw [skip_scheduled unscheduled]
    refine ⟨loosen, .refl plan, fun state now => ?_⟩
    simpa [isUnscheduled, now] using unscheduled

/-! A node that is handled: it is selected, fails, gives its locks back or ends. -/

theorem modify_absent (absent : plan.entries[position]? = none) (f : Entry → Entry) :
    plan.modify position f = plan := by
  rw [modify, List.modify_eq_self (List.getElem?_eq_none_iff.mp absent)]

theorem Replaces.handle (coherent : plan.Coherent owed stale)
    (found : plan.entries[position]? = some entry) {f : Entry → Entry}
    (links : entry.Links (f entry)) (state : (f entry).node.state = entry.node.state) :
    plan.Replaces position entry (f entry) (plan.modify position f) :=
  { name := rfl
    scope := rfl
    rule := rfl
    found := found
    links := links
    entries := modify_set found f
    remaining := by simp [modify, state]
    distinct := coherent.distinct
    queued := queued_same coherent.queued found (by rw [state]) }

theorem Coherent.handle {owed' : Nat → Nat} (coherent : plan.Coherent owed stale)
    (found : plan.entries[position]? = some entry) {f : Entry → Entry}
    (links : entry.Links (f entry)) (state : (f entry).node.state = entry.node.state)
    (holding : (f entry).node.held ≠ [] → entry.node.state = .executing)
    (owes : ∀ other, other ≠ position → owed' other = owed other)
    (waits : entry.node.state = .notReady → (f entry).enumerated = true →
      plan.Waits (owed' position) (stale position) (f entry)) :
    (plan.modify position f).Coherent owed' stale := by
  have replaces := Replaces.handle coherent found links state
  apply coherent.replace replaces
  · exact fun succeeded => state.trans succeeded
  · rw [state]
    exact coherent.served position entry found
  · rw [state]
    exact holding
  · intro other differs
    rw [state, owes other differs]
    simp
  · exact fun other _ fresh => ⟨fresh, fun _ => Or.inl state⟩
  · rw [state]
    exact waits

theorem Coherent.modifyNode (coherent : plan.Coherent owed stale) (position : Nat) {f : Node → Node}
    (id : ∀ node, (f node).id = node.id) (deps : ∀ node, (f node).deps = node.deps)
    (resources : ∀ node, (f node).resources = node.resources)
    (state : ∀ node, (f node).state = node.state)
    (held : ∀ node, (f node).held ≠ [] → node.held ≠ []) :
    (plan.modifyNode position f).Coherent owed stale := by
  cases found : plan.entries[position]? with
  | none => rwa [Plan.modifyNode, modify_absent found]
  | some entry =>
    apply coherent.handle found (f := fun entry => { entry with node := f entry.node })
    · exact ⟨id _, deps _, resources _, rfl, fun seen => seen⟩
    · exact state _
    · exact fun holds => coherent.holding position entry found (held _ holds)
    · exact fun _ _ => rfl
    · intro idle seen
      have waits := coherent.waiting position entry found idle seen
      exact ⟨by simpa only [deps] using waits.unmet, waits.positive,
        by simpa only [deps] using waits.hopeful⟩

theorem modifyNode_keeps (plan : Plan) (position : Nat) {f : Node → Node}
    (id : ∀ node, (f node).id = node.id) (deps : ∀ node, (f node).deps = node.deps)
    (resources : ∀ node, (f node).resources = node.resources) :
    plan.Keeps (plan.modifyNode position f) :=
  modify_keeps plan position fun entry =>
    ⟨id entry.node, deps entry.node, resources entry.node, rfl, fun seen => seen⟩

theorem Valid.modifyNode (valid : plan.Valid) (position : Nat) {f : Node → Node}
    (id : ∀ node, (f node).id = node.id) (deps : ∀ node, (f node).deps = node.deps)
    (resources : ∀ node, (f node).resources = node.resources)
    (state : ∀ node, (f node).state = node.state)
    (held : ∀ node, (f node).held ≠ [] → node.held ≠ []) :
    (plan.modifyNode position f).Valid := by
  refine ⟨valid.coherent.modifyNode position id deps resources state held, ?_⟩
  rcases valid.phase with begun | idle
  · exact Or.inl (begun.keep (modifyNode_keeps plan position id deps resources) rfl rfl)
  · refine Or.inr ⟨idle.started, idle.next, fun other entry found => ?_⟩
    rw [Plan.modifyNode, entries_modify] at found
    split at found
    · obtain ⟨earlier, present, rfl⟩ := Option.map_eq_some_iff.mp found
      have untouched := idle.untouched other earlier present
      exact ⟨(state _).trans untouched.1, untouched.2⟩
    · exact idle.untouched other entry found

theorem Valid.failNode (valid : plan.Valid) (position : Nat) (failure : Failure) :
    (plan.failNode position failure).Valid :=
  valid.modifyNode position (fun _ => rfl) (fun _ => rfl) (fun _ => rfl) (fun _ => rfl)
    (fun _ held => held)

theorem Valid.clear (valid : plan.Valid) (position : Nat) :
    (plan.modifyNode position fun node => { node with held := [] }).Valid :=
  valid.modifyNode position (fun _ => rfl) (fun _ => rfl) (fun _ => rfl) (fun _ => rfl)
    (fun _ held => absurd rfl held)

/-! The end of an executing node. -/

/-- The plan after a node has given its locks back and become terminal. -/
def close (plan : Plan) (position : Nat) (state : State) : Plan :=
  (plan.modifyNode position fun node => { node with held := [] }).markTerminal position state

def closed (entry : Entry) (state : State) : Entry :=
  { entry with node := { entry.node with held := [] }.enter state }

theorem Replaces.close (coherent : plan.Coherent owed stale)
    (found : plan.entries[position]? = some entry) (executing : entry.node.state = .executing)
    {state : State} (terminal : state.isTerminal = true) :
    plan.Replaces position entry (closed entry state) (plan.close position state) :=
  { name := rfl
    scope := rfl
    rule := rfl
    found := found
    links := ⟨rfl, rfl, rfl, rfl, fun seen => seen⟩
    entries := modify_modify found _ _
    remaining := by
      have before : entry.node.state.isTerminal = false := by rw [executing]; rfl
      simp [Plan.close, markTerminal, Plan.modifyNode, modify, before, closed, Node.enter, terminal]
    distinct := coherent.distinct
    queued := queued_same coherent.queued found (by
      cases state <;> simp_all [closed, Node.enter, State.isTerminal]) }

/-- The nodes that wait for a node that succeeded are owed as many of their
dependencies as they have mentions of it. -/
theorem Coherent.succeed (coherent : plan.Coherent (fun _ => 0) stale)
    (found : plan.entries[position]? = some entry) (executing : entry.node.state = .executing) :
    (plan.close position .succeeded).Coherent
      (fun other => (plan.depsOf other).count position) stale := by
  apply coherent.replace (Replaces.close coherent found executing rfl)
  · exact fun _ => rfl
  · exact fun _ _ => coherent.served position entry found (by simp [executing]) (by simp [executing])
  · exact fun held => absurd rfl held
  · simp [closed, Node.enter, executing]
  · exact fun other _ fresh => ⟨fresh, fun _ => Or.inr (by simp [closed, Node.enter])⟩
  · simp [closed, Node.enter]

/-- The nodes that wait for a node that failed are stale. -/
theorem Coherent.fail (coherent : plan.Coherent owed stale)
    (found : plan.entries[position]? = some entry) (executing : entry.node.state = .executing) :
    (plan.close position .failed).Coherent owed
      (fun other => stale other ∨ position ∈ plan.depsOf other) := by
  apply coherent.replace (Replaces.close coherent found executing rfl)
  · simp [executing]
  · exact fun _ _ => coherent.served position entry found (by simp [executing]) (by simp [executing])
  · exact fun held => absurd rfl held
  · simp [closed, Node.enter]
  · intro other _ fresh
    exact ⟨fun old => fresh (Or.inl old), fun named => absurd (Or.inr named) fresh⟩
  · simp [closed, Node.enter]

end Plan
end Foreman
