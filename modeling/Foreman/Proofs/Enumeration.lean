import Foreman.Plan.Enumerate
import Foreman.Proofs.PlanMoves

/-! Enumeration. The first one decides for each node whether it is ready or waits;
a later one finds nothing left to do. -/

namespace Foreman.Plan

variable {plan after : Plan} {owed : Nat → Nat} {stale : Nat → Prop} {position : Nat}
  {entry : Entry}

/-! Looking at one node. -/

private theorem modify_compose (plan : Plan) (position : Nat) (f g : Entry → Entry) :
    (plan.modify position f).modify position g = plan.modify position (g ∘ f) := by
  simp [modify, List.modify_modify_eq]

theorem state?_modify_same {f : Entry → Entry} (same : ∀ entry, (f entry).node = entry.node)
    (other : Nat) : (plan.modify position f).state? other = plan.state? other := by
  simp only [state?, node?, entries_modify]
  split
  · cases plan.entries[other]? <;> simp [same]
  · rfl

private theorem countUnmet_eq {deps : List Nat} (hopeful : ¬ plan.Blocked deps) :
    plan.countUnmet deps = (plan.unserved deps, false) := by
  induction deps with
  | nil => rfl
  | cons dep rest ih =>
    have later := ih fun ⟨other, member, bad⟩ => hopeful ⟨other, List.mem_cons_of_mem _ member, bad⟩
    have fine (state : State) (found : plan.state? dep = some state) :
        state ≠ .failed ∧ state ≠ .skipped := by
      constructor
      · intro failed
        exact hopeful ⟨dep, List.mem_cons_self, Or.inl (failed ▸ found)⟩
      · intro skipped
        exact hopeful ⟨dep, List.mem_cons_self, Or.inr (skipped ▸ found)⟩
    simp only [countUnmet, unserved, List.countP_cons] at later ⊢
    split
    next succeeded => simp [later, succeeded]
    next failed => exact absurd rfl (fine _ failed).1
    next skipped => exact absurd rfl (fine _ skipped).2
    next open_ _ _ =>
      have pending : plan.state? dep ≠ some .succeeded := open_
      simp [later, pending]

private theorem countUnmet_modify (plan : Plan) (position : Nat) {f : Entry → Entry}
    (same : ∀ entry, (f entry).node = entry.node)
    (deps : List Nat) : (plan.modify position f).countUnmet deps = plan.countUnmet deps := by
  induction deps with
  | nil => rfl
  | cons dep rest ih => simp only [countUnmet, state?_modify_same same, ih]

private def looked (plan : Plan) (deps : List Nat) (entry : Entry) : Entry :=
  { entry with enumerated := true, unmet := plan.unserved deps }

private theorem enumerate_waiting (found : plan.entries[position]? = some entry)
    (idle : entry.node.state = .notReady) (hopeful : ¬ plan.Blocked entry.node.deps) :
    plan.enumerate position =
      if plan.unserved entry.node.deps = 0 then
        (plan.modify position (plan.looked entry.node.deps)).markReady position
      else plan.modify position (plan.looked entry.node.deps) := by
  have counted := (countUnmet_modify plan position
    (f := fun entry => { entry with enumerated := true }) (fun _ => rfl) entry.node.deps).trans
    (countUnmet_eq hopeful)
  simp only [enumerate, node?_eq found, idle, ne_eq, not_true, if_false, counted,
    Bool.false_eq_true, modify_compose]
  rfl

private theorem enumerate_other (found : plan.entries[position]? = some entry)
    (moved : entry.node.state ≠ .notReady) :
    plan.enumerate position = plan.modify position fun entry => { entry with enumerated := true } := by
  simp [enumerate, node?_eq found, moved]

/-- A node that may still run is enumerated as ready or as waiting. -/
private theorem Coherent.enumerate (coherent : plan.Coherent (fun _ => 0) stale)
    (found : plan.entries[position]? = some entry) (hopeful : ¬ plan.Blocked entry.node.deps) :
    (plan.enumerate position).Coherent (fun _ => 0) stale ∧ plan.Drifts (plan.enumerate position) ∧
      ∃ later, (plan.enumerate position).entries[position]? = some later ∧
        later.enumerated = true := by
  by_cases idle : entry.node.state = .notReady
  · have links : entry.Links (plan.looked entry.node.deps entry) := ⟨rfl, rfl, rfl, rfl, fun _ => rfl⟩
    have seen (plan : Plan) (f : Entry → Entry) (g : Entry → Entry)
        (found : plan.entries[position]? = some entry) (kept : ∀ entry, (g (f entry)).enumerated = true) :
        ∃ later, ((plan.modify position f).modify position g).entries[position]? = some later ∧
          later.enumerated = true := by
      rw [modify_compose, entries_modify, if_pos rfl, found]
      exact ⟨_, rfl, kept entry⟩
    rw [enumerate_waiting found idle hopeful]
    split
    next none =>
      have served : ∀ dep ∈ entry.node.deps, plan.state? dep = some .succeeded := by
        intro dep member
        simpa using List.countP_eq_zero.mp none dep member
      obtain ⟨ready, drifts⟩ := coherent.markReady found idle served links rfl fun _ _ => rfl
      exact ⟨ready, drifts, seen _ _ _ found fun _ => rfl⟩
    next some =>
      have replaces := Replaces.handle coherent found links rfl
      refine ⟨coherent.handle found links rfl (coherent.holding position entry found)
        (fun _ _ => rfl) ?_, replaces.drifts (.refl _), _, replaces.lookup position |>.trans (if_pos rfl), rfl⟩
      exact fun _ _ => ⟨rfl, Nat.pos_of_ne_zero some, fun _ => hopeful⟩
  · have links : entry.Links { entry with enumerated := true } := ⟨rfl, rfl, rfl, rfl, fun _ => rfl⟩
    have replaces := Replaces.handle coherent found (f := fun entry => { entry with enumerated := true }) links rfl
    rw [enumerate_other found idle]
    refine ⟨coherent.handle found links rfl (coherent.holding position entry found)
      (fun _ _ => rfl) ?_, replaces.drifts (.refl _), _, replaces.lookup position |>.trans (if_pos rfl), rfl⟩
    exact fun waiting _ => absurd waiting idle

/-! Looking at all nodes. -/

/-- No node was selected or skipped yet. -/
def Open (plan : Plan) : Prop :=
  ∀ (position : Nat) (entry : Entry), plan.entries[position]? = some entry →
    entry.node.state = .notReady ∨ entry.node.state = .ready

theorem Open.hopeful (unscheduled : plan.Open) (deps : List Nat) : ¬ plan.Blocked deps := by
  intro blocked
  obtain ⟨dep, _, bad⟩ := blocked
  rcases bad with failed | skipped
  · obtain ⟨entry, found, state⟩ := entry_of_state? failed
    simpa [state] using unscheduled dep entry found
  · obtain ⟨entry, found, state⟩ := entry_of_state? skipped
    simpa [state] using unscheduled dep entry found

private theorem Open.modify (unscheduled : plan.Open) {f : Entry → Entry}
    (kept : ∀ entry : Entry, (f entry).node.state = entry.node.state ∨ (f entry).node.state = .ready) :
    (plan.modify position f).Open := by
  intro other entry found
  rw [entries_modify] at found
  split at found
  · obtain ⟨earlier, present, rfl⟩ := Option.map_eq_some_iff.mp found
    rcases kept earlier with same | ready
    · rw [same]
      exact unscheduled other earlier present
    · exact Or.inr ready
  · exact unscheduled other entry found

private theorem Open.enumerate (unscheduled : plan.Open)
    (found : plan.entries[position]? = some entry) : (plan.enumerate position).Open := by
  by_cases idle : entry.node.state = .notReady
  · rw [enumerate_waiting found idle (unscheduled.hopeful _)]
    have noted : (plan.modify position (plan.looked entry.node.deps)).Open :=
      unscheduled.modify fun _ => Or.inl rfl
    split
    · exact noted.modify fun _ => Or.inr rfl
    · exact noted
  · rw [enumerate_other found idle]
    exact unscheduled.modify fun _ => Or.inl rfl

private theorem Coherent.enumerateAll {positions : List Nat}
    (coherent : plan.Coherent (fun _ => 0) stale) (unscheduled : plan.Open)
    (inside : ∀ position ∈ positions, position < plan.size) :
    (positions.foldl Plan.enumerate plan).Coherent (fun _ => 0) stale ∧
      plan.Drifts (positions.foldl Plan.enumerate plan) ∧
      (positions.foldl Plan.enumerate plan).Open ∧
      ∀ position ∈ positions, ∀ entry,
        (positions.foldl Plan.enumerate plan).entries[position]? = some entry →
        entry.enumerated = true := by
  induction positions generalizing plan with
  | nil => exact ⟨coherent, .refl plan, unscheduled, by simp⟩
  | cons head rest ih =>
    have found := List.getElem?_eq_getElem (inside head List.mem_cons_self)
    obtain ⟨looked, drifted, seen, present, enumerated⟩ :=
      coherent.enumerate found (unscheduled.hopeful _)
    obtain ⟨done, later, closed, others⟩ := ih looked (unscheduled.enumerate found)
      fun position member => by
        have := inside position (List.mem_cons_of_mem _ member)
        rwa [drifted.keeps.size]
    refine ⟨done, drifted.trans later, closed, ?_⟩
    intro position member entry again
    rcases List.mem_cons.mp member with rfl | member
    · obtain ⟨earlier, before, links⟩ := later.keeps.back again
      cases Option.some.inj (present.symm.trans before)
      exact links.enumerated enumerated
    · exact others position member entry again

/-- A node that may still run is ready at once if it depends on nothing. -/
private theorem Open.queue_enumerate (unscheduled : plan.Open)
    (found : plan.entries[position]? = some entry) (idle : entry.node.state = .notReady) :
    (plan.enumerate position).queue =
      plan.queue ++ if plan.depsOf position = [] then [position] else [] := by
  have unserved : plan.unserved entry.node.deps = entry.node.deps.length := by
    rw [Plan.unserved, List.countP_eq_length]
    intro dep _
    rw [decide_eq_true_iff]
    intro succeeded
    obtain ⟨other, present, state⟩ := entry_of_state? succeeded
    simpa [state] using unscheduled dep other present
  rw [enumerate_waiting found idle (unscheduled.hopeful _), unserved, depsOf_eq found]
  simp only [List.length_eq_zero_iff]
  split
  · rfl
  · exact (List.append_nil _).symm

private theorem Open.enumerate_elsewhere {other : Nat} (unscheduled : plan.Open)
    (found : plan.entries[position]? = some entry) (idle : entry.node.state = .notReady)
    (differs : other ≠ position) : (plan.enumerate position).state? other = plan.state? other := by
  rw [enumerate_waiting found idle (unscheduled.hopeful _)]
  split
  · exact (state?_modify_other differs).trans (state?_modify_other differs)
  · exact state?_modify_other differs

private theorem Coherent.queue_enumerateAll {positions : List Nat}
    (coherent : plan.Coherent (fun _ => 0) stale) (unscheduled : plan.Open)
    (distinct : positions.Nodup)
    (waiting : ∀ position ∈ positions, plan.state? position = some .notReady) :
    (positions.foldl Plan.enumerate plan).queue =
      plan.queue ++ positions.filter fun position => plan.depsOf position = [] := by
  induction positions generalizing plan with
  | nil => simp
  | cons head rest ih =>
    obtain ⟨absent, distinct⟩ := List.nodup_cons.mp distinct
    obtain ⟨entry, found, idle⟩ := entry_of_state? (waiting head List.mem_cons_self)
    obtain ⟨looked, drifted, _⟩ := coherent.enumerate found (unscheduled.hopeful _)
    have later (position : Nat) (member : position ∈ rest) :
        (plan.enumerate head).state? position = some .notReady := by
      have differs : position ≠ head := fun same => absent (same ▸ member)
      rw [unscheduled.enumerate_elsewhere found idle differs]
      exact waiting position (List.mem_cons_of_mem _ member)
    rw [List.foldl_cons, ih looked (unscheduled.enumerate found) distinct later,
      unscheduled.queue_enumerate found idle, List.filter_cons, List.append_assoc]
    simp only [drifted.keeps.depsOf, decide_eq_true_eq]
    split <;> rfl

theorem populate_begun (begun : plan.Begun) : plan.populate = plan := by
  have started := begun.started
  have next := begun.next
  simp [populate, next, ← started]
  simp only [← next]

theorem Idle.open (idle : plan.Idle) : plan.Open :=
  fun position entry found => Or.inl (idle.untouched position entry found).1

theorem populate_idle (valid : plan.Valid) (idle : plan.Idle) :
    plan.populate.Valid ∧ plan.Drifts plan.populate ∧ plan.populate.Open ∧ plan.populate.Begun := by
  have inside : ∀ position ∈ List.range' plan.next (plan.size - plan.next), position < plan.size := by
    intro position member
    rw [List.mem_range'_1] at member
    omega
  obtain ⟨coherent, drifts, unscheduled, enumerated⟩ :=
    valid.coherent.enumerateAll idle.open inside
  have begun : plan.populate.Begun := by
    refine ⟨rfl, drifts.keeps.size.symm, fun position entry found => ?_⟩
    apply enumerated position _ entry found
    have := (List.getElem?_eq_some_iff.mp found).1
    have := drifts.keeps.size
    simp only [List.mem_range'_1, idle.next, size] at *
    exact ⟨Nat.zero_le _, by simp only [populate, idle.next, size] at *; omega⟩
  have same : plan.populate.Coherent (fun _ => 0) (fun _ => False) :=
    { coherent with
      graph := ⟨coherent.graph.earlier, coherent.graph.dependents⟩
      waiting := fun position entry found idle seen =>
        have waits := coherent.waiting position entry found idle seen
        ⟨waits.unmet, waits.positive, waits.hopeful⟩ }
  refine ⟨⟨same, Or.inl begun⟩, ?_, unscheduled, begun⟩
  exact ⟨⟨drifts.keeps.name, drifts.keeps.scope, drifts.keeps.rule, drifts.keeps.size,
    drifts.keeps.entry⟩, drifts.node⟩

/-- The first enumeration queues the nodes that depend on nothing, in their order. -/
theorem queue_populate (valid : plan.Valid) (idle : plan.Idle) :
    plan.populate.queue = (List.range plan.size).filter fun position => plan.depsOf position = [] := by
  have waiting (position : Nat) (inside : position < plan.size) :
      plan.state? position = some .notReady := by
    have found := List.getElem?_eq_getElem inside
    rw [state?_eq found, (idle.untouched position _ found).1]
  have empty : plan.queue = [] := by
    rw [List.eq_nil_iff_forall_not_mem]
    intro position member
    obtain ⟨entry, found, state⟩ := entry_of_state? ((valid.coherent.queued position).mp member)
    simp [(idle.untouched position entry found).1] at state
  have queue := valid.coherent.queue_enumerateAll idle.open List.nodup_range
    fun position member => waiting position (List.mem_range.mp member)
  rw [empty, List.nil_append] at queue
  rw [← queue, populate, idle.next, Nat.sub_zero, List.range_eq_range']

theorem Valid.populate (valid : plan.Valid) :
    plan.populate.Valid ∧ plan.Drifts plan.populate ∧ plan.populate.Begun := by
  rcases valid.phase with begun | idle
  · rw [populate_begun begun]
    exact ⟨valid, .refl plan, begun⟩
  · obtain ⟨done, drifts, _, begun⟩ := populate_idle valid idle
    exact ⟨done, drifts, begun⟩

end Foreman.Plan
