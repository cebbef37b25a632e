import Foreman.Proofs.PlanHistory

/-! What workers do to the nodes that they own, as far as others can tell. Failures
that are noted and locks that are taken away leave the states of all nodes alone;
most work on a plan leaves alone who owns which node and with which locks. -/

namespace Foreman.Plan

variable {plan before middle after : Plan} {position : Nat} {entry : Entry}

def failAll (plan : Plan) (position : Nat) (failures : List Failure) : Plan :=
  failures.foldl (fun plan failure => plan.failNode position failure) plan

def heldBy (plan : Plan) : Option Nat → List Lock
  | none => []
  | some position => ((plan.node? position).map (·.held)).getD []

/-- The plan once a node, if there is one, has given its locks back. -/
def disown (plan : Plan) : Option Nat → Plan
  | none => plan
  | some position => plan.modifyNode position fun node => { node with held := [] }

theorem heldBy_eq (found : plan.entries[position]? = some entry) :
    plan.heldBy (some position) = entry.node.held := by
  simp [heldBy, node?, found]

theorem failNode_lookup (plan : Plan) (position other : Nat) (failure : Failure) :
    (plan.failNode position failure).entries[other]? =
      plan.entries[other]?.map fun entry =>
        if position = other then { entry with node := entry.node.fail failure } else entry := by
  rw [failNode, modifyNode, entries_modify]
  split
  · rfl
  · simp

theorem failNode_keeps (plan : Plan) (position : Nat) (failure : Failure) :
    plan.Keeps (plan.failNode position failure) :=
  modifyNode_keeps plan position (f := (·.fail failure)) (fun _ => rfl) (fun _ => rfl) fun _ => rfl

/-- Of all failures that are recorded the first is kept, unless there was one. -/
theorem failAll_lookup (plan : Plan) (position other : Nat) (failures : List Failure) :
    (plan.failAll position failures).entries[other]? =
      plan.entries[other]?.map fun entry =>
        if position = other then
          { entry with
            node.failure := entry.node.failure <|>
              failures.head?.map (·.withDetail "node_id" entry.node.id) }
        else entry := by
  induction failures generalizing plan with
  | nil => simp [failAll]
  | cons failure rest ih =>
    have step : plan.failAll position (failure :: rest) =
        (plan.failNode position failure).failAll position rest := rfl
    rw [step, ih, failNode_lookup, Option.map_map]
    cases plan.entries[other]? with
    | none => rfl
    | some entry =>
      simp only [Option.map_some, Function.comp, Node.fail, List.head?_cons]
      split
      · cases entry.node.failure <;> simp
      · rfl

theorem failAll_keeps (plan : Plan) (position : Nat) (failures : List Failure) :
    plan.Keeps (plan.failAll position failures) := by
  induction failures generalizing plan with
  | nil => exact .refl plan
  | cons failure rest ih => exact (failNode_keeps plan position failure).trans (ih _)

theorem Valid.failAll (valid : plan.Valid) (position : Nat) (failures : List Failure) :
    (plan.failAll position failures).Valid := by
  induction failures generalizing plan with
  | nil => exact valid
  | cons failure rest ih => exact ih (valid.failNode position failure)

theorem failAll_counts (plan : Plan) (position : Nat) (failures : List Failure) :
    (plan.failAll position failures).queue = plan.queue ∧
      (plan.failAll position failures).remaining = plan.remaining ∧
      (plan.failAll position failures).started = plan.started := by
  induction failures generalizing plan with
  | nil => exact ⟨rfl, rfl, rfl⟩
  | cons failure rest ih => exact ih (plan.failNode position failure)

theorem failAll_state? (plan : Plan) (position : Nat) (failures : List Failure) (node : Nat) :
    (plan.failAll position failures).state? node = plan.state? node := by
  simp only [state?, node?, failAll_lookup]
  cases plan.entries[node]? with
  | none => rfl
  | some entry =>
    simp only [Option.map_some]
    split <;> rfl

theorem Stopped.failAll (stopped : plan.Stopped) (position : Nat) (failures : List Failure) :
    (plan.failAll position failures).Stopped := by
  intro other entry found
  have same := failAll_state? plan position failures other
  obtain ⟨earlier, present, state⟩ := entry_of_state? (same.symm.trans (state?_eq found))
  rw [← state]
  exact stopped other earlier present

theorem Over.failAll (finished : plan.Over) (position : Nat) (failures : List Failure) :
    (plan.failAll position failures).Over := by
  intro other entry found
  have same := failAll_state? plan position failures other
  obtain ⟨earlier, present, state⟩ := entry_of_state? (same.symm.trans (state?_eq found))
  rw [← state]
  exact finished other earlier present

theorem disown_lookup (plan : Plan) (node : Option Nat) (other : Nat) :
    (plan.disown node).entries[other]? =
      plan.entries[other]?.map fun entry =>
        if node = some other then { entry with node.held := [] } else entry := by
  cases node with
  | none => simp [disown]
  | some position =>
    rw [disown, modifyNode, entries_modify]
    simp only [Option.some.injEq]
    split
    · rfl
    · simp

theorem disown_state? (plan : Plan) (position : Option Nat) (node : Nat) :
    (plan.disown position).state? node = plan.state? node := by
  simp only [state?, node?, disown_lookup]
  cases plan.entries[node]? with
  | none => rfl
  | some entry =>
    simp only [Option.map_some]
    split <;> rfl

theorem Over.disown (finished : plan.Over) (node : Option Nat) : (plan.disown node).Over := by
  intro other entry found
  have same := disown_state? plan node other
  obtain ⟨earlier, present, state⟩ := entry_of_state? (same.symm.trans (state?_eq found))
  rw [← state]
  exact finished other earlier present

theorem disown_keeps (plan : Plan) (node : Option Nat) : plan.Keeps (plan.disown node) := by
  cases node with
  | none => exact .refl plan
  | some position =>
    exact modifyNode_keeps plan position (f := fun node => { node with held := [] })
      (fun _ => rfl) (fun _ => rfl) fun _ => rfl

theorem Valid.disown (valid : plan.Valid) (node : Option Nat) : (plan.disown node).Valid := by
  cases node with
  | none => exact valid
  | some position => exact valid.clear position

/-! Work that leaves alone who owns what. -/

/-- The same nodes are being executed, and each node has the locks that it had. -/
structure Calm (before after : Plan) : Prop where
  keeps : before.Keeps after
  node : ∀ (position : Nat) (entry later : Entry), before.entries[position]? = some entry →
    after.entries[position]? = some later →
    later.node.held = entry.node.held ∧
      (later.node.state = .executing ↔ entry.node.state = .executing)

theorem Calm.refl (plan : Plan) : plan.Calm plan := by
  refine ⟨.refl plan, ?_⟩
  intro position entry later found again
  cases Option.some.inj (found.symm.trans again)
  exact ⟨rfl, Iff.rfl⟩

theorem Calm.back (calm : before.Calm after) (found : after.entries[position]? = some entry) :
    ∃ earlier, before.entries[position]? = some earlier ∧ earlier.Links entry ∧
      entry.node.held = earlier.node.held ∧
      (entry.node.state = .executing ↔ earlier.node.state = .executing) := by
  obtain ⟨earlier, present, links⟩ := calm.keeps.back found
  exact ⟨earlier, present, links, calm.node position earlier entry present found⟩

theorem Calm.ahead (calm : before.Calm after) (found : before.entries[position]? = some entry) :
    ∃ later, after.entries[position]? = some later ∧ entry.Links later ∧
      later.node.held = entry.node.held ∧
      (later.node.state = .executing ↔ entry.node.state = .executing) := by
  obtain ⟨later, present, links⟩ := calm.keeps.entry position entry found
  exact ⟨later, present, links, calm.node position entry later found present⟩

private theorem executing_drift {entry later : Entry} (drift : entry.node.Drifts later.node) :
    later.node.state = .executing ↔ entry.node.state = .executing := by
  constructor
  · intro executing
    rcases drift.state with same | ⟨_, ready | skipped⟩
    · exact same.symm.trans executing
    · simp [ready] at executing
    · simp [skipped] at executing
  · intro executing
    rw [drift.settled (by simp [executing, State.isUnscheduled]), executing]

theorem Drifts.calm (drifts : before.Drifts after) : before.Calm after := by
  refine ⟨drifts.keeps, fun position entry later found again => ?_⟩
  have drift := drifts.node position entry later found again
  exact ⟨drift.held, executing_drift drift⟩

theorem failAll_calm (plan : Plan) (position : Nat) (failures : List Failure) :
    plan.Calm (plan.failAll position failures) := by
  refine ⟨failAll_keeps plan position failures, fun other entry later found again => ?_⟩
  rw [failAll_lookup, found] at again
  cases again
  split <;> exact ⟨rfl, Iff.rfl⟩

/-! Work on one node, which leaves alone who owns the others. -/

structure Handles (before : Plan) (node : Option Nat) (after : Plan) : Prop where
  keeps : before.Keeps after
  others : ∀ (position : Nat) (entry later : Entry), node ≠ some position →
    before.entries[position]? = some entry → after.entries[position]? = some later →
    later.node.held = entry.node.held ∧
      (later.node.state = .executing ↔ entry.node.state = .executing)

theorem Calm.handles (calm : before.Calm middle) {node : Option Nat}
    (handles : middle.Handles node after) : before.Handles node after := by
  refine ⟨calm.keeps.trans handles.keeps, fun position entry later other found again => ?_⟩
  obtain ⟨between, present, _, held, executing⟩ := calm.ahead found
  obtain ⟨held', executing'⟩ := handles.others position between later other present again
  exact ⟨held'.trans held, executing'.trans executing⟩

theorem Handles.calm {node : Option Nat} (handles : before.Handles node middle)
    (calm : middle.Calm after) : before.Handles node after := by
  refine ⟨handles.keeps.trans calm.keeps, fun position entry later other found again => ?_⟩
  obtain ⟨between, present, _, held, executing⟩ := calm.back again
  obtain ⟨held', executing'⟩ := handles.others position entry between other found present
  exact ⟨held.trans held', executing.trans executing'⟩

theorem Ends.handles (ends : before.Ends position entry after) : before.Handles (some position) after := by
  refine ⟨ends.keeps, fun other old new differs found again => ?_⟩
  have drift := ends.others other old new (fun same => differs (same ▸ rfl)) found again
  exact ⟨drift.held, executing_drift drift⟩

theorem hand_handles (coherent : plan.Valid) {lease : Lease}
    (found : plan.entries[position]? = some entry) (ready : entry.node.state = .ready) :
    plan.Handles (some position) (plan.hand lease position entry) := by
  have replaces := Replaces.hand coherent.coherent lease found ready
  refine ⟨replaces.keeps, fun other old new differs present again => ?_⟩
  have apart : other ≠ position := fun same => differs (same ▸ rfl)
  rw [replaces.lookup, if_neg apart, present] at again
  cases again
  exact ⟨rfl, Iff.rfl⟩

theorem disown_handles (plan : Plan) (node : Option Nat) : plan.Handles node (plan.disown node) := by
  refine ⟨disown_keeps plan node, fun other old new differs found again => ?_⟩
  rw [disown_lookup, found, Option.map_some, if_neg differs] at again
  cases again
  exact ⟨rfl, Iff.rfl⟩

end Foreman.Plan
