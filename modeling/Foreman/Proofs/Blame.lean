import Foreman.Proofs.PlanHandling

/-! Why nodes are skipped. In a plan that nobody stops a node is skipped only if
something that it depends on failed or was skipped itself. -/

namespace Foreman.Plan

variable {plan before after : Plan} {position root node : Nat} {entry : Entry}
  {owed : Nat → Nat} {stale : Nat → Prop} {lease : Lease}

def Blamed (plan : Plan) : Prop :=
  ∀ node, plan.state? node = some .skipped → plan.Blocked (plan.depsOf node)

theorem Open.blamed (unscheduled : plan.Open) : plan.Blamed := by
  intro node skipped
  obtain ⟨entry, found, state⟩ := entry_of_state? skipped
  simpa [state] using unscheduled node entry found

theorem Blamed.later (blamed : before.Blamed) (keeps : before.Keeps after)
    (settled : ∀ node state, state.isTerminal = true → before.state? node = some state →
      after.state? node = some state)
    (fresh : ∀ node, after.state? node = some .skipped →
      before.state? node = some .skipped ∨ after.Blocked (after.depsOf node)) : after.Blamed := by
  intro node skipped
  rcases fresh node skipped with earlier | blocked
  · obtain ⟨dep, member, bad⟩ := blamed node earlier
    rw [keeps.depsOf]
    exact ⟨dep, member, bad.imp (settled dep _ rfl) (settled dep _ rfl)⟩
  · exact blocked

theorem Drifts.terminal (drifts : before.Drifts after) {state : State}
    (terminal : state.isTerminal = true) (found : before.state? node = some state) :
    after.state? node = some state :=
  drifts.state? found (State.settled_of_terminal terminal)

theorem Replaces.blamed {old new : Entry} (replaces : before.Replaces position old new after)
    (blamed : before.Blamed) (moved : old.node.state.isTerminal = false)
    (unskipped : new.node.state ≠ .skipped) : after.Blamed := by
  refine blamed.later replaces.keeps (fun node state terminal found => ?_) fun node skipped => ?_
  · rw [replaces.state?, if_neg]
    · exact found
    · intro same
      subst same
      cases Option.some.inj ((state?_eq replaces.found).symm.trans found)
      simp [terminal] at moved
  · rw [replaces.state?] at skipped
    split at skipped
    · exact absurd (Option.some.inj skipped) unskipped
    · exact Or.inl skipped

theorem Blamed.hand (blamed : plan.Blamed) (valid : plan.Valid)
    (found : plan.entries[position]? = some entry) (ready : entry.node.state = .ready) :
    (plan.hand lease position entry).Blamed :=
  (Replaces.hand valid.coherent lease found ready).blamed blamed (by simp [ready, State.isTerminal])
    (by simp [handed, Node.enter])

theorem Blamed.failAll (blamed : plan.Blamed) (position : Nat) (failures : List Failure) :
    (plan.failAll position failures).Blamed :=
  blamed.later (failAll_keeps _ _ _)
    (fun node _ _ found => (failAll_state? plan position failures node).trans found)
    fun node skipped => Or.inl ((failAll_state? plan position failures node).symm.trans skipped)

theorem Blamed.disown (blamed : plan.Blamed) (node : Option Nat) : (plan.disown node).Blamed :=
  blamed.later (disown_keeps _ _) (fun other _ _ found => (disown_state? plan node other).trans found)
    fun other skipped => Or.inl ((disown_state? plan node other).symm.trans skipped)

theorem Blamed.populate (blamed : plan.Blamed) (valid : plan.Valid) : plan.populate.Blamed := by
  rcases valid.phase with begun | idle
  · rwa [populate_begun begun]
  · exact (populate_idle valid idle).2.2.1.blamed

/-! The end of a node. -/

/-- What depends on a node that did not succeed has not been selected. -/
theorem descendants_idle (coherent : plan.Coherent owed stale) (inside : root < plan.size)
    (unserved : plan.state? root ≠ some .succeeded) :
    ∀ state, node ∈ plan.descendants root → plan.state? node = some state →
      state = .notReady ∨ state = .skipped := by
  induction node using Nat.strongRecOn with
  | ind node earlier =>
    intro state descends known
    obtain ⟨entry, found, rfl⟩ := entry_of_state? known
    apply Classical.byContradiction
    intro moved
    obtain ⟨waiting, unskipped⟩ := not_or.mp moved
    have served := coherent.served node entry found waiting unskipped
    rw [← depsOf_eq found] at served
    rcases descendants_source coherent.graph inside descends with direct | ⟨other, between, member⟩
    · exact unserved (served root direct)
    · have before := coherent.graph.earlier node other member
      rcases earlier other before .succeeded between (served other member) with same | same <;>
        cases same

theorem skip_other (plan : Plan) (differs : node ≠ position) :
    (plan.skip position).state? node = plan.state? node := by
  unfold skip
  split
  · exact state?_modify_other differs
  · exact state?_modify_other differs
  · rfl

/-- Work on some nodes leaves the states of the others alone if each part of it does. -/
theorem foldl_other {f : Plan → Nat → Plan}
    (one : ∀ (plan : Plan) (position node : Nat), node ≠ position →
      (f plan position).state? node = plan.state? node)
    {positions : List Nat} (outside : node ∉ positions) (plan : Plan) :
    (positions.foldl f plan).state? node = plan.state? node := by
  induction positions generalizing plan with
  | nil => rfl
  | cons first rest ih =>
    obtain ⟨differs, outside⟩ := not_or.mp (mt List.mem_cons.mpr outside)
    exact (ih outside (f plan first)).trans (one plan first node differs)

theorem Blamed.skipDependents (blamed : plan.Blamed)
    (coherent : plan.Coherent owed (fun other => root ∈ plan.depsOf other))
    (failed : plan.state? root = some .failed) : (plan.skipDependents root).Blamed := by
  obtain ⟨_, drifts, settled⟩ := coherent.skipAll (plan.descendants root)
  have inside : root < plan.size := by
    obtain ⟨entry, found, _⟩ := entry_of_state? failed
    exact (List.getElem?_eq_some_iff.mp found).1
  have idle (node : Nat) (state : State) :
      node ∈ plan.descendants root → plan.state? node = some state →
        state = .notReady ∨ state = .skipped :=
    descendants_idle coherent inside (by simp [failed]) state
  refine blamed.later drifts.keeps (fun node state => drifts.terminal) fun node skipped => ?_
  by_cases descends : node ∈ plan.descendants root
  · have deps : (plan.skipDependents root).depsOf node = plan.depsOf node := drifts.keeps.depsOf node
    rw [deps]
    rcases descendants_source coherent.graph inside descends with direct | ⟨other, between, member⟩
    · exact Or.inr ⟨root, direct, Or.inl (drifts.terminal rfl failed)⟩
    · refine Or.inr ⟨other, member, Or.inr ?_⟩
      -- the node between was not selected, and now it is settled
      have known := List.getElem?_eq_getElem (coherent.graph.dep_inside member)
      obtain ⟨later, present, _, drift⟩ := drifts.ahead known
      have free := settled other between _ (state?_eq present)
      refine (state?_eq present).trans ?_
      rcases drift.state with same | ⟨_, ready | skipped⟩
      · rcases idle other _ between (state?_eq known) with waiting | skipped
        · simp [same, waiting, State.isUnscheduled] at free
        · rw [same, skipped]
      · simp [ready, State.isUnscheduled] at free
      · rw [skipped]
  · exact Or.inl ((foldl_other (fun plan _ _ => skip_other plan) descends plan).symm.trans skipped)

private theorem markReady_skipped (skipped : (plan.markReady position).state? node = some .skipped) :
    plan.state? node = some .skipped := by
  by_cases own : node = position
  · subst own
    simp only [markReady, modifyNode, state?, node?, entries_modify, if_pos] at skipped
    cases found : plan.entries[node]? with
    | none => simp [found] at skipped
    | some entry => simp [found, Node.enter] at skipped
  · exact (state?_modify_other own).symm.trans skipped

private theorem meet_skipped (skipped : (plan.meet position).state? node = some .skipped) :
    plan.state? node = some .skipped := by
  have counted : (plan.modify position fun entry => { entry with unmet := entry.unmet - 1 }).state?
      node = plan.state? node := by
    simp only [state?, node?, entries_modify]
    split
    · cases plan.entries[node]? <;> rfl
    · rfl
  unfold meet at skipped
  split at skipped
  · exact skipped
  · split at skipped
    · simp only at skipped
      split at skipped
      · exact counted.symm.trans (markReady_skipped skipped)
      · exact counted.symm.trans skipped
    · exact skipped

theorem meetAll_skipped {positions : List Nat} (plan : Plan)
    (skipped : (positions.foldl meet plan).state? node = some .skipped) :
    plan.state? node = some .skipped := by
  induction positions generalizing plan with
  | nil => exact skipped
  | cons first rest ih => exact meet_skipped (ih (plan.meet first) skipped)

/-- The plan that has closed a node in that state blames what it did before. -/
private theorem Blamed.close (blamed : plan.Blamed) (valid : plan.Valid)
    (found : plan.entries[position]? = some entry) (executing : entry.node.state = .executing)
    (state : State) (terminal : state.isTerminal = true) (unskipped : state ≠ .skipped) :
    (plan.close position state).Blamed :=
  (Replaces.close valid.coherent found executing terminal).blamed blamed
    (by simp [executing, State.isTerminal]) (by simpa [Plan.closed, Node.enter] using unskipped)

theorem Blamed.succeed (blamed : plan.Blamed) (valid : plan.Valid)
    (found : plan.entries[position]? = some entry) (executing : entry.node.state = .executing)
    (unfailed : ¬ entry.node.failure.isSome) (locks : Locks) :
    (plan.complete position locks).1.Blamed := by
  rw [complete_closes found executing, if_neg unfailed]
  have closed := blamed.close valid found executing .succeeded rfl (by simp)
  have owing := valid.coherent.succeed found executing
  have counts : (fun other => (plan.depsOf other).count position) = entry.dependents.count := by
    funext other
    rw [valid.coherent.graph.dependents position entry found, count_mentions]
  rw [counts] at owing
  have drifts := owing.meetAll.2
  exact closed.later drifts.keeps (fun _ _ => drifts.terminal)
    fun _ skipped => Or.inl (meetAll_skipped _ skipped)

/-- The end of a node leaves nobody skipped without a reason. -/
theorem Blamed.complete (blamed : plan.Blamed) (valid : plan.Valid)
    (rule : plan.continueOnFailure = true) (found : plan.entries[position]? = some entry)
    (executing : entry.node.state = .executing) (locks : Locks) :
    (plan.complete position locks).1.Blamed := by
  by_cases failed : entry.node.failure.isSome
  · have replaces : plan.Replaces position entry (closed entry .failed)
        (plan.close position .failed) := Replaces.close valid.coherent found executing rfl
    have closed := blamed.close valid found executing .failed rfl (by simp)
    have stale : (plan.close position .failed).Coherent (fun _ => 0)
        (fun other => position ∈ (plan.close position .failed).depsOf other) := by
      simpa only [replaces.keeps.depsOf, false_or] using valid.coherent.fail found executing
    rw [complete_closes found executing, if_pos failed, if_pos rule]
    apply closed.skipDependents stale
    rw [replaces.state?, if_pos rfl]
    rfl
  · exact blamed.succeed valid found executing failed locks

end Foreman.Plan
