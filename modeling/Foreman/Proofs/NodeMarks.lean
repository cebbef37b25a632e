import Foreman.Proofs.PlanCalls

/-! The marks of a node. A node that was selected is marked as started and a terminal
node as finished, and no other node is. -/

namespace Foreman

/-- The node was selected, and it may have ended since. -/
def State.wasSelected : State → Bool
  | .executing | .succeeded | .failed => true
  | _ => false

structure Node.Marked (node : Node) : Prop where
  started : node.started = node.state.wasSelected
  finished : node.finished = node.state.isTerminal

theorem Node.Marked.enter {node : Node} {target : State} (marked : node.Marked)
    (legal : node.state.canMoveTo target = true) : (node.enter target).Marked := by
  constructor
  · simp only [Node.enter, marked.started]
    cases source : node.state <;> cases target <;> simp_all [State.canMoveTo, State.wasSelected]
  · simp only [Node.enter, marked.finished]
    cases source : node.state <;> cases target <;> simp_all [State.canMoveTo, State.isTerminal]

theorem Node.Drifts.selected {before after : Node} (drift : before.Drifts after) :
    after.state.wasSelected = before.state.wasSelected := by
  rcases drift.state with same | ⟨free, moved⟩
  · rw [same]
  · have unselected : before.state.wasSelected = false := by
      cases state : before.state <;> simp_all [State.isUnscheduled, State.wasSelected]
    rw [unselected]
    rcases moved with ready | skipped
    · rw [ready]
      rfl
    · rw [skipped]
      rfl

namespace Plan

variable {plan : Plan} {position : Nat} {entry : Entry}

def Marked (plan : Plan) : Prop := ∀ entry ∈ plan.entries, entry.node.Marked

/-! Single changes. -/

private theorem Marked.at (marked : plan.Marked) (found : plan.entries[position]? = some entry) :
    entry.node.Marked :=
  marked entry (List.mem_of_getElem? found)

private theorem Marked.modify (marked : plan.Marked) {f : Entry → Entry}
    (kept : ∀ entry, plan.entries[position]? = some entry → entry.node.Marked →
      (f entry).node.Marked) : (plan.modify position f).Marked := by
  intro later member
  obtain ⟨other, found⟩ := List.mem_iff_getElem?.mp member
  rw [entries_modify] at found
  split at found
  next own =>
    subst own
    obtain ⟨entry, present, rfl⟩ := Option.map_eq_some_iff.mp found
    exact kept entry present (marked.at present)
  · exact marked.at found

private theorem Marked.enter (marked : plan.Marked) {source target : State}
    (state : plan.state? position = some source) (legal : source.canMoveTo target = true) :
    (plan.modifyNode position (·.enter target)).Marked := by
  apply marked.modify
  intro entry found marked
  rw [state?_eq found, Option.some.injEq] at state
  exact marked.enter (state ▸ legal)

private theorem Marked.foldl {f : Plan → Nat → Plan}
    (one : ∀ (plan : Plan) (position : Nat), plan.Marked → (f plan position).Marked)
    (marked : plan.Marked) (positions : List Nat) : (positions.foldl f plan).Marked := by
  induction positions generalizing plan with
  | nil => exact marked
  | cons first rest ih => exact ih (one plan first marked)

private theorem Marked.note (marked : plan.Marked) {f : Entry → Entry}
    (same : ∀ entry, (f entry).node = entry.node) (position : Nat) :
    (plan.modify position f).Marked :=
  marked.modify fun entry _ marked => same entry ▸ marked

/-! What the plan does to its nodes. -/

private theorem Marked.enumerate (plan : Plan) (position : Nat) (marked : plan.Marked) :
    (plan.enumerate position).Marked := by
  unfold Plan.enumerate
  split
  · exact marked
  next node found =>
    simp only
    have seen := marked.note (f := fun entry => { entry with enumerated := true }) (fun _ => rfl) position
    split
    · exact seen
    next idle =>
      generalize (plan.modify position fun entry => { entry with enumerated := true }).countUnmet
        node.deps = counted
      have noted := seen.note (f := fun entry => { entry with unmet := counted.1 }) (fun _ => rfl) position
      have state : ((plan.modify position fun entry => { entry with enumerated := true }).modify
          position fun entry => { entry with unmet := counted.1 }).state? position =
            some .notReady := by
        rw [state?_modify_same, state?_modify_same, state?, found]
        · simpa using idle
        all_goals exact fun _ => rfl
      split
      · exact noted.enter state rfl
      · split
        · exact noted.enter state rfl
        · exact noted

private theorem Marked.meet (plan : Plan) (position : Nat) (marked : plan.Marked) :
    (plan.meet position).Marked := by
  unfold Plan.meet
  split
  · exact marked
  next entry found =>
    split
    next waits =>
      have noted := marked.note (f := fun entry => { entry with unmet := entry.unmet - 1 })
        (fun _ => rfl) position
      have idle : entry.node.state = .notReady := by simp_all
      have state : (plan.modify position fun entry => { entry with unmet := entry.unmet - 1 }).state?
          position = some .notReady := by
        rw [state?_modify_same, state?_eq found, idle]
        exact fun _ => rfl
      simp only
      split
      · exact noted.enter state rfl
      · exact noted
    · exact marked

private theorem Marked.skip (plan : Plan) (position : Nat) (marked : plan.Marked) :
    (plan.skip position).Marked := by
  unfold Plan.skip
  split
  next state => exact marked.enter state rfl
  next state => exact marked.enter state rfl
  · exact marked

private theorem Marked.stop (marked : plan.Marked) : plan.skipUnscheduled.2.Marked := by
  intro later member
  obtain ⟨entry, present, rfl⟩ := List.mem_map.mp member
  rw [stop_node]
  split
  next free =>
    refine (marked entry present).enter ?_
    cases state : entry.node.state <;> simp_all [State.isUnscheduled, State.canMoveTo]
  · exact marked entry present

private theorem Marked.disown (marked : plan.Marked) (position : Nat) :
    (plan.modifyNode position fun node => { node with held := [] }).Marked :=
  marked.modify fun _ _ marked => ⟨marked.started, marked.finished⟩

private theorem Marked.close (marked : plan.Marked) {state : State}
    (executing : plan.state? position = some .executing)
    (legal : State.executing.canMoveTo state = true) : (plan.close position state).Marked := by
  refine (marked.disown position).enter ?_ legal
  exact (disown_state? plan (some position) position).trans executing

/-! What the calls do to them. -/

private theorem Marked.complete (marked : plan.Marked) (position : Nat) (locks : Locks) :
    (plan.complete position locks).1.Marked := by
  unfold Plan.complete
  split
  · exact marked
  next entry found =>
    simp only
    split
    next executing =>
      have closes (state : State) (legal : State.executing.canMoveTo state = true) :
          (plan.close position state).Marked :=
        marked.close (by rw [state?_eq found, executing]) legal
      unfold Plan.finish
      split
      · simp only
        split
        · exact (closes .failed rfl).foldl Marked.skip _
        · exact (closes .failed rfl).stop
      · exact (closes .succeeded rfl).foldl Marked.meet _
    · exact marked.disown position

theorem Marked.add {after : Plan} {id : String} {names resources : List String}
    (marked : plan.Marked) (added : plan.add id names resources = .ok after) : after.Marked := by
  obtain ⟨_, deps, _, rfl⟩ := add_attached added
  intro later member
  obtain ⟨position, found⟩ := List.mem_iff_getElem?.mp member
  rw [attach_found] at found
  split at found
  · cases found
    exact ⟨rfl, rfl⟩
  · obtain ⟨entry, present, rfl⟩ := Option.map_eq_some_iff.mp found
    have kept := marked.at present
    exact kept

theorem Marked.hand (marked : plan.Marked) (found : plan.entries[position]? = some entry)
    (ready : entry.node.state = .ready) (lease : Lease) :
    (plan.hand lease position entry).Marked := by
  intro later member
  rcases List.mem_or_eq_of_mem_set member with earlier | rfl
  · exact marked later earlier
  · have legal : entry.node.state.canMoveTo .executing = true := by rw [ready]; rfl
    have entered := (marked.at found).enter legal
    exact ⟨entered.started, entered.finished⟩

namespace Session

variable {session : Session}

theorem perform_marked (valid : session.plan.Valid) {call : Operation}
    (orderly : call.isOrderly = true) (marked : session.plan.Marked) :
    (session.perform call).2.plan.Marked := by
  cases call with
  | move _ _ | force _ _ => cases orderly
  | locks command => exact marked
  | add id deps resources =>
    simp only [perform]
    split
    next added => exact marked.add added
    · exact marked
  | populate => exact marked.foldl Marked.enumerate _
  | complete position => exact marked.complete position _
  | fail position failure =>
    exact marked.modify fun _ _ marked => ⟨marked.started, marked.finished⟩
  | abort failure => exact marked.stop
  | cancel =>
    simp only [perform, cancel]
    split <;> exact marked.stop
  | collect =>
    simp only [perform, collect]
    split <;> exact marked
  | select lease book =>
    rcases perform_select valid lease book with ⟨_, same⟩ | ⟨node, entry, found, ready, _, hands⟩
    · rw [same]
      exact marked
    · rw [hands]
      exact marked.hand found ready lease

end Session
end Plan
end Foreman
