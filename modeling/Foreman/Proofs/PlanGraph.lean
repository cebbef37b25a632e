import Foreman.Plan.Add

/-! The graph of a plan. Nodes depend on earlier nodes only, and each node knows
exactly the later nodes that name it, as often as they do. Work on the plan
leaves the graph alone. -/

namespace Foreman

/-- What no work on a plan changes about an entry. -/
structure Entry.Links (before after : Entry) : Prop where
  id : after.node.id = before.node.id
  deps : after.node.deps = before.node.deps
  resources : after.node.resources = before.node.resources
  dependents : after.dependents = before.dependents
  enumerated : before.enumerated = true → after.enumerated = true

theorem Entry.Links.refl (entry : Entry) : entry.Links entry :=
  ⟨rfl, rfl, rfl, rfl, fun seen => seen⟩

theorem Entry.Links.trans {first middle last : Entry} (left : first.Links middle)
    (right : middle.Links last) : first.Links last :=
  ⟨right.id.trans left.id, right.deps.trans left.deps, right.resources.trans left.resources,
    right.dependents.trans left.dependents, fun seen => right.enumerated (left.enumerated seen)⟩

namespace Plan

variable {plan before middle after : Plan} {position : Nat} {entry : Entry}

def depsOf (plan : Plan) (position : Nat) : List Nat :=
  ((plan.node? position).map (·.deps)).getD []

theorem depsOf_eq (found : plan.entries[position]? = some entry) :
    plan.depsOf position = entry.node.deps := by
  simp [depsOf, node?, found]

theorem state?_eq (found : plan.entries[position]? = some entry) :
    plan.state? position = some entry.node.state := by
  simp [state?, node?, found]

theorem node?_eq (found : plan.entries[position]? = some entry) :
    plan.node? position = some entry.node := by
  simp [node?, found]

theorem entry_of_node? {node : Node} (found : plan.node? position = some node) :
    ∃ entry, plan.entries[position]? = some entry ∧ entry.node = node := by
  simpa [node?] using found

theorem entry_of_state? {state : State} (found : plan.state? position = some state) :
    ∃ entry, plan.entries[position]? = some entry ∧ entry.node.state = state := by
  simpa [state?, node?] using found

/-- The later plan has the graph and the settings of the earlier one. -/
structure Keeps (before after : Plan) : Prop where
  name : after.name = before.name
  scope : after.scope = before.scope
  rule : after.continueOnFailure = before.continueOnFailure
  size : after.size = before.size
  entry : ∀ (position : Nat) (entry : Entry), before.entries[position]? = some entry →
    ∃ later, after.entries[position]? = some later ∧ entry.Links later

theorem Keeps.refl (plan : Plan) : plan.Keeps plan :=
  ⟨rfl, rfl, rfl, rfl, fun _ entry found => ⟨entry, found, .refl entry⟩⟩

theorem Keeps.trans (left : before.Keeps middle) (right : middle.Keeps after) :
    before.Keeps after := by
  refine ⟨right.name.trans left.name, right.scope.trans left.scope, right.rule.trans left.rule,
    right.size.trans left.size, fun position entry found => ?_⟩
  obtain ⟨between, found, first⟩ := left.entry position entry found
  obtain ⟨later, found, second⟩ := right.entry position between found
  exact ⟨later, found, first.trans second⟩

theorem Keeps.back (keeps : before.Keeps after) (found : after.entries[position]? = some entry) :
    ∃ earlier, before.entries[position]? = some earlier ∧ earlier.Links entry := by
  have inside : position < before.entries.length := by
    have := (List.getElem?_eq_some_iff.mp found).1
    have size := keeps.size
    simp only [Plan.size] at size this
    omega
  have present := List.getElem?_eq_getElem inside
  obtain ⟨later, again, links⟩ := keeps.entry position _ present
  cases Option.some.inj (found.symm.trans again)
  exact ⟨_, present, links⟩

theorem Keeps.absent (keeps : before.Keeps after) (absent : after.entries[position]? = none) :
    before.entries[position]? = none := by
  have size := keeps.size
  simp only [Plan.size, List.getElem?_eq_none_iff] at size absent ⊢
  omega

theorem Keeps.depsOf (keeps : before.Keeps after) (position : Nat) :
    after.depsOf position = before.depsOf position := by
  cases found : after.entries[position]? with
  | some entry =>
    obtain ⟨earlier, present, links⟩ := keeps.back found
    rw [depsOf_eq found, depsOf_eq present, links.deps]
  | none => simp [Plan.depsOf, node?, found, keeps.absent found]

theorem Keeps.resourceLock (keeps : before.Keeps after) :
    after.resourceLock = before.resourceLock := by
  funext name
  rw [Plan.resourceLock, Plan.resourceLock, keeps.scope]

/-! Changing one entry. -/

theorem entries_modify (plan : Plan) (position other : Nat) (f : Entry → Entry) :
    (plan.modify position f).entries[other]? =
      if position = other then plan.entries[other]?.map f else plan.entries[other]? := by
  simp only [modify, List.getElem?_modify]
  split <;> simp

theorem modify_set (found : plan.entries[position]? = some entry) (f : Entry → Entry) :
    (plan.modify position f).entries = plan.entries.set position (f entry) := by
  apply List.ext_getElem?
  intro other
  have inside := (List.getElem?_eq_some_iff.mp found).1
  rw [entries_modify, List.getElem?_set]
  by_cases same : position = other
  · subst same
    rw [found, if_pos rfl, if_pos rfl, if_pos inside]
    rfl
  · rw [if_neg same, if_neg same]

theorem modify_keeps (plan : Plan) (position : Nat) {f : Entry → Entry}
    (links : ∀ entry : Entry, entry.Links (f entry)) : plan.Keeps (plan.modify position f) := by
  refine ⟨rfl, rfl, rfl, by simp [size, modify], fun other entry found => ?_⟩
  rw [entries_modify]
  split
  next same =>
    subst same
    exact ⟨f entry, by rw [found]; rfl, links entry⟩
  · exact ⟨entry, found, .refl entry⟩

theorem state?_modify_other {other : Nat} {f : Entry → Entry} (differs : other ≠ position) :
    (plan.modify position f).state? other = plan.state? other := by
  simp [state?, node?, entries_modify, Ne.symm differs]

/-! The graph. -/

def mentions (plan : Plan) (position : Nat) : List Nat :=
  (List.range plan.size).flatMap fun other =>
    List.replicate ((plan.depsOf other).count position) other

structure Graph (plan : Plan) : Prop where
  earlier : ∀ position, ∀ dep ∈ plan.depsOf position, dep < position
  dependents : ∀ (position : Nat) (entry : Entry), plan.entries[position]? = some entry →
    entry.dependents = plan.mentions position

theorem depsOf_outside (outside : plan.size ≤ position) : plan.depsOf position = [] := by
  have absent : plan.entries[position]? = none := List.getElem?_eq_none_iff.mpr outside
  simp [depsOf, node?, absent]

private theorem count_flatMap_replicate (length other : Nat) (times : Nat → Nat) :
    ((List.range length).flatMap fun place => List.replicate (times place) place).count other =
      if other < length then times other else 0 := by
  induction length with
  | zero => simp
  | succ length ih =>
    rw [List.range_succ, List.flatMap_append, List.count_append, ih, List.flatMap_singleton,
      List.count_replicate]
    by_cases last : length = other
    · subst last
      simp
    · have different : (length == other) = false := beq_eq_false_iff_ne.mpr last
      have inside : other < length + 1 ↔ other < length := by omega
      simp [different, inside]

theorem count_mentions (plan : Plan) (position other : Nat) :
    (plan.mentions position).count other = (plan.depsOf other).count position := by
  rw [mentions, count_flatMap_replicate]
  split
  · rfl
  next outside =>
    rw [depsOf_outside (Nat.le_of_not_lt outside)]
    rfl

theorem mem_mentions {other : Nat} :
    other ∈ plan.mentions position ↔ position ∈ plan.depsOf other := by
  rw [← List.count_pos_iff, count_mentions, List.count_pos_iff]

theorem Keeps.mentions (keeps : before.Keeps after) (position : Nat) :
    after.mentions position = before.mentions position := by
  simp only [Plan.mentions, keeps.size, keeps.depsOf]

theorem Graph.keep (graph : before.Graph) (keeps : before.Keeps after) : after.Graph := by
  constructor
  · intro position dep member
    rw [keeps.depsOf] at member
    exact graph.earlier position dep member
  · intro position entry found
    obtain ⟨earlier, present, links⟩ := keeps.back found
    rw [links.dependents, graph.dependents position earlier present, keeps.mentions]

/-! Adding a node. -/

theorem position?_lt {id : String} (found : plan.position? id = some position) :
    position < plan.size := by
  rw [position?, List.findIdx?_eq_some_iff_getElem] at found
  exact found.1

theorem resolve_lt {id : String} {names : List String} {deps : List Nat}
    (resolved : plan.resolve id names = .ok deps) : ∀ dep ∈ deps, dep < plan.size := by
  induction names generalizing deps with
  | nil =>
    cases resolved
    simp
  | cons name rest ih =>
    simp only [resolve] at resolved
    split at resolved
    · cases resolved
    · split at resolved
      · cases resolved
      next position found =>
        cases later : plan.resolve id rest with
        | error refusal =>
          rw [later] at resolved
          cases resolved
        | ok others =>
          rw [later] at resolved
          cases resolved
          intro dep member
          rcases List.mem_cons.mp member with rfl | member
          · exact position?_lt found
          · exact ih later dep member

section
variable {id : String} {deps : List Nat} {resources : List String}

theorem attach_size : (plan.attach id deps resources).size = plan.size + 1 := by
  simp [attach, size]

theorem attach_found (position : Nat) :
    (plan.attach id deps resources).entries[position]? =
      if position = plan.size then some { node := { id, deps, resources } }
      else plan.entries[position]?.map fun entry =>
        { entry with
          dependents := entry.dependents ++ List.replicate (deps.count position) plan.size } := by
  simp only [attach, List.getElem?_append, List.length_mapIdx, List.getElem?_mapIdx]
  split
  next inside =>
    have before : position ≠ plan.size := Nat.ne_of_lt inside
    rw [if_neg before]
  next outside =>
    by_cases last : position = plan.size
    · rw [if_pos last]
      simp [last, size]
    · have beyond : plan.entries.length < position := Nat.lt_of_le_of_ne (Nat.le_of_not_lt outside) (Ne.symm last)
      rw [if_neg last, List.getElem?_eq_none_iff.mpr (Nat.le_of_lt beyond)]
      simp only [List.getElem?_eq_none_iff, List.length_singleton, Option.map_none]
      omega

private theorem attach_depsOf (position : Nat) :
    (plan.attach id deps resources).depsOf position =
      if position = plan.size then deps else plan.depsOf position := by
  simp only [depsOf, node?, attach_found]
  split
  · rfl
  · simp only [Option.map_map]
    rfl

theorem attach_graph (graph : plan.Graph) (earlier : ∀ dep ∈ deps, dep < plan.size) :
    (plan.attach id deps resources).Graph := by
  have mentions (position : Nat) : (plan.attach id deps resources).mentions position =
      plan.mentions position ++ List.replicate (deps.count position) plan.size := by
    simp only [Plan.mentions, attach_size, List.range_succ, List.flatMap_append, attach_depsOf]
    congr 1
    · rw [List.flatMap_def, List.flatMap_def]
      congr 1
      apply List.map_congr_left
      intro other member
      rw [if_neg (Nat.ne_of_lt (List.mem_range.mp member))]
    · simp
  constructor
  · intro position dep member
    rw [attach_depsOf] at member
    split at member
    next last => exact last ▸ earlier dep member
    · exact graph.earlier position dep member
  · intro position entry found
    rw [attach_found] at found
    rw [mentions]
    split at found
    next last =>
      cases found
      have unnamed : deps.count position = 0 :=
        List.count_eq_zero.mpr fun member => Nat.lt_irrefl _ (last ▸ earlier position member)
      have nobody : plan.mentions position = [] := by
        apply List.eq_nil_iff_forall_not_mem.mpr
        intro other member
        have named := mem_mentions.mp member
        have inside := graph.earlier other position named
        rw [depsOf_outside (by omega)] at named
        simp at named
      rw [unnamed, nobody]
      rfl
    · obtain ⟨old, present, rfl⟩ := Option.map_eq_some_iff.mp found
      rw [graph.dependents position old present]

end

end Plan
end Foreman
