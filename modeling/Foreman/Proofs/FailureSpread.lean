import Foreman.Proofs.Blame
import Foreman.Proofs.PlanCalls
import Mathlib.Logic.Relation

/-! How failures spread in a plan that goes on after them and that nobody stops. Exactly
those nodes are skipped that depend on a failed node, directly or through others. A node
that ends changes no node but itself, those that waited for it alone and, if it failed,
those that depend on it. -/

namespace Foreman

namespace Plan

variable {plan : Plan} {position node dep root : Nat} {entry : Entry}

/-- The first node waits for the second, directly or through nodes between. -/
def DependsOn (plan : Plan) : Nat → Nat → Prop :=
  Relation.TransGen fun node dep => dep ∈ plan.depsOf node

theorem Keeps.dependsOn {after : Plan} (keeps : plan.Keeps after) :
    after.DependsOn = plan.DependsOn := by
  simp only [DependsOn, keeps.depsOf]

/-- The walk over dependents comes to all that depend on its start and to nothing else. -/
theorem mem_descendants (graph : plan.Graph) (inside : root < plan.size) :
    node ∈ plan.descendants root ↔ plan.DependsOn node root := by
  constructor
  · induction node using Nat.strongRecOn with
    | ind node earlier =>
      intro descends
      rcases descendants_source graph inside descends with direct | ⟨between, walked, member⟩
      · exact .single direct
      · exact .head member (earlier between (graph.earlier node between member) walked)
  · intro depends
    induction depends using Relation.TransGen.head_induction_on with
    | single direct => exact mem_descendants_of_dep graph direct
    | head member _ walked => exact descendants_closed graph walked member

/-! What the states of dependencies say about a node. -/

/-- A node is skipped as soon as a dependency cannot succeed any more. -/
theorem Valid.spreads (valid : plan.Valid) (begun : plan.Begun) (member : dep ∈ plan.depsOf node)
    (lost : plan.state? dep = some .failed ∨ plan.state? dep = some .skipped) :
    plan.state? node = some .skipped := by
  obtain ⟨entry, found⟩ : ∃ entry, plan.entries[node]? = some entry :=
    ⟨_, List.getElem?_eq_getElem (depsOf_inside member)⟩
  rw [depsOf_eq found] at member
  have unserved : plan.state? dep ≠ some .succeeded := by
    intro served
    rcases lost with same | same <;> simp [served] at same
  by_cases idle : entry.node.state = .notReady
  · have waits := valid.coherent.waiting node entry found idle (begun.enumerated node entry found)
    exact absurd ⟨dep, member, lost⟩ (waits.hopeful id)
  · by_cases skipped : entry.node.state = .skipped
    · rw [state?_eq found, skipped]
    · exact absurd (valid.coherent.served node entry found idle skipped dep member) unserved

theorem Blamed.skipped_iff (blamed : plan.Blamed) (valid : plan.Valid) (begun : plan.Begun)
    (node : Nat) : plan.state? node = some .skipped ↔
      ∃ dep, plan.DependsOn node dep ∧ plan.state? dep = some .failed := by
  constructor
  · induction node using Nat.strongRecOn with
    | ind node earlier =>
      intro skipped
      obtain ⟨dep, member, failed | skipped⟩ := blamed node skipped
      · exact ⟨dep, .single member, failed⟩
      · obtain ⟨root, depends, failed⟩ :=
          earlier dep (valid.coherent.graph.earlier node dep member) skipped
        exact ⟨root, .head member depends, failed⟩
  · rintro ⟨root, depends, failed⟩
    induction depends using Relation.TransGen.head_induction_on with
    | single member => exact valid.spreads begun member (Or.inl failed)
    | head member _ skipped => exact valid.spreads begun member (Or.inr skipped)

/-- A node that begun plans hold back has a dependency that has not succeeded. -/
theorem Valid.unserved (valid : plan.Valid) (begun : plan.Begun)
    (idle : plan.state? node = some .notReady) :
    ∃ dep ∈ plan.depsOf node, plan.state? dep ≠ some .succeeded := by
  obtain ⟨entry, found, waiting⟩ := entry_of_state? idle
  have waits := valid.coherent.waiting node entry found waiting (begun.enumerated node entry found)
  have some_ : 0 < plan.unserved entry.node.deps := by
    have unmet := waits.unmet
    have positive := waits.positive
    omega
  obtain ⟨dep, member, pending⟩ := List.countP_pos_iff.mp some_
  exact ⟨dep, depsOf_eq found ▸ member, by simpa using pending⟩

theorem Blamed.waiting_iff (blamed : plan.Blamed) (valid : plan.Valid) (begun : plan.Begun)
    (node : Nat) : plan.state? node = some .notReady ↔
      (∀ dep, plan.DependsOn node dep → plan.state? dep ≠ some .failed) ∧
        ∃ dep ∈ plan.depsOf node, plan.state? dep ≠ some .succeeded := by
  have skipped := blamed.skipped_iff valid begun node
  constructor
  · intro idle
    refine ⟨fun dep depends failed => ?_, valid.unserved begun idle⟩
    have lost := skipped.mpr ⟨dep, depends, failed⟩
    rw [idle] at lost
    cases lost
  · rintro ⟨hopeful, dep, member, pending⟩
    obtain ⟨entry, found⟩ : ∃ entry, plan.entries[node]? = some entry :=
      ⟨_, List.getElem?_eq_getElem (depsOf_inside member)⟩
    apply Classical.byContradiction
    intro moved
    have unskipped : plan.state? node ≠ some .skipped := by
      intro lost
      obtain ⟨root, depends, failed⟩ := skipped.mp lost
      exact hopeful root depends failed
    rw [state?_eq found, Option.some.injEq] at moved
    rw [state?_eq found, ne_eq, Option.some.injEq] at unskipped
    rw [depsOf_eq found] at member
    exact pending (valid.coherent.served node entry found moved unskipped dep member)

/-- A node that may still succeed, or has, is one whose dependencies have all succeeded. -/
theorem Blamed.served_iff (blamed : plan.Blamed) (valid : plan.Valid) (begun : plan.Begun)
    {state : State} (known : plan.state? node = some state) :
    (state = .ready ∨ state = .executing ∨ state = .succeeded ∨ state = .failed) ↔
      ∀ dep ∈ plan.depsOf node, plan.state? dep = some .succeeded := by
  constructor
  · intro moved
    obtain ⟨entry, found, rfl⟩ := entry_of_state? known
    rw [depsOf_eq found]
    apply valid.coherent.served node entry found
    · intro idle
      simp [idle] at moved
    · intro skipped
      simp [skipped] at moved
  · intro served
    cases state with
    | ready | executing | succeeded | failed => simp
    | notReady =>
      obtain ⟨dep, member, pending⟩ := valid.unserved begun known
      exact absurd (served dep member) pending
    | skipped =>
      obtain ⟨dep, member, failed | skipped⟩ := blamed node known
      · simp [served dep member] at failed
      · simp [served dep member] at skipped

/-! The end of a node. -/

private theorem meet_other (plan : Plan) {position node : Nat} (differs : node ≠ position) :
    (plan.meet position).state? node = plan.state? node := by
  unfold meet
  split
  · rfl
  · split
    · simp only
      split
      · exact (state?_modify_other differs).trans (state?_modify_other differs)
      · exact state?_modify_other differs
    · rfl

/-- How the end of a node can change the state of a node. It ends itself; it makes nodes
ready that name it; or it fails, and those are skipped that wait for it, directly or
through others, and were not skipped before. -/
inductive Spreads (before after : Plan) (position node : Nat) : Prop
  | own (same : node = position) (executing : before.state? node = some .executing)
      (ended : after.state? node = some .succeeded ∨ after.state? node = some .failed)
  | released (named : position ∈ before.depsOf node)
      (succeeded : after.state? position = some .succeeded)
      (idle : before.state? node = some .notReady) (ready : after.state? node = some .ready)
  | skipped (depends : before.DependsOn node position)
      (failed : after.state? position = some .failed)
      (idle : before.state? node = some .notReady) (lost : after.state? node = some .skipped)

private theorem succeed_spreads (valid : plan.Valid)
    (found : plan.entries[position]? = some entry) (executing : entry.node.state = .executing)
    (fine : entry.node.failure.isSome = false) {locks : Locks} (differs : node ≠ position)
    (changed : (plan.complete position locks).1.state? node ≠ plan.state? node) :
    plan.Spreads (plan.complete position locks).1 position node := by
  obtain ⟨_, ends⟩ := complete_executing valid found executing locks
  have ended := ends.state?
  have comes := complete_closes found executing locks
  simp only [fine, Bool.false_eq_true, if_false] at comes ended
  have closed : (plan.close position .succeeded).state? node = plan.state? node := by
    rw [(Replaces.close valid.coherent found executing rfl).state?, if_neg differs]
  have moved := ends.moved differs changed
  have named : node ∈ entry.dependents := by
    apply Classical.byContradiction
    intro apart
    rw [comes] at changed
    exact changed ((foldl_other (fun plan _ _ => meet_other plan) apart _).trans closed)
  rw [valid.coherent.graph.dependents position entry found] at named
  rcases moved with ⟨idle, ready⟩ | ⟨free, skipped⟩
  · exact .released (mem_mentions.mp named) ended idle ready
  · rw [comes] at skipped
    have earlier := closed.symm.trans (meetAll_skipped _ skipped)
    simp [earlier] at free

private theorem fail_spreads (valid : plan.Valid) (rule : plan.continueOnFailure = true)
    (found : plan.entries[position]? = some entry) (executing : entry.node.state = .executing)
    (failed : entry.node.failure.isSome = true) {locks : Locks} (differs : node ≠ position)
    (changed : (plan.complete position locks).1.state? node ≠ plan.state? node) :
    plan.Spreads (plan.complete position locks).1 position node := by
  obtain ⟨_, ends⟩ := complete_executing valid found executing locks
  have ended := ends.state?
  have comes := complete_closes found executing locks
  simp only [failed, if_true, rule] at comes ended
  have replaces : plan.Replaces position entry (closed entry .failed) (plan.close position .failed) :=
    Replaces.close valid.coherent found executing rfl
  have closed : (plan.close position .failed).state? node = plan.state? node := by
    rw [replaces.state?, if_neg differs]
  have moved := ends.moved differs changed
  have inside : position < plan.size := (List.getElem?_eq_some_iff.mp found).1
  have coherent : (plan.close position .failed).Coherent (fun _ => 0)
      (fun other => False ∨ position ∈ plan.depsOf other) := valid.coherent.fail found executing
  have descends : node ∈ (plan.close position .failed).descendants position := by
    apply Classical.byContradiction
    intro apart
    rw [comes] at changed
    exact changed ((foldl_other (fun plan _ _ => skip_other plan) apart _).trans closed)
  have depends : plan.DependsOn node position := by
    rw [← replaces.keeps.dependsOn]
    exact (mem_descendants coherent.graph (replaces.keeps.size.symm ▸ inside)).mp descends
  have settled := (coherent.skipAll ((plan.close position .failed).descendants position)).2.2 node descends
  rcases moved with ⟨_, ready⟩ | ⟨free, skipped⟩
  · exact absurd (settled .ready (by rw [← ready, comes]; rfl)) (by simp [State.isUnscheduled])
  · refine .skipped depends ended ?_ skipped
    -- what waits for an executing node was never ready
    have unserved : plan.state? position ≠ some .succeeded := by
      simp [state?_eq found, executing]
    have descends := (mem_descendants valid.coherent.graph inside).mpr depends
    apply free.resolve_right
    intro ready
    simpa using descendants_idle valid.coherent inside unserved .ready descends ready

theorem complete_spreads (valid : plan.Valid) (rule : plan.continueOnFailure = true)
    (locks : Locks) (changed : (plan.complete position locks).1.state? node ≠ plan.state? node) :
    plan.Spreads (plan.complete position locks).1 position node := by
  rcases complete_cases valid position locks with ⟨entry, found, executing, _, ends⟩ | ⟨_, same⟩
  · by_cases own : node = position
    · subst own
      refine .own rfl (by rw [state?_eq found, executing]) ?_
      rw [ends.state?]
      split
      · exact Or.inr rfl
      · exact Or.inl rfl
    · cases failure : entry.node.failure.isSome with
      | false => exact succeed_spreads valid found executing failure own changed
      | true => exact fail_spreads valid rule found executing failure own changed
  · rw [same] at changed
    exact absurd (disown_state? plan (some position) node) changed

/-! Plans that nobody stops. -/

def Operation.isStop : Operation → Bool
  | .cancel | .abort _ => true
  | _ => false

namespace Session

variable {session start : Session} {call : Operation} {calls : List Operation}

theorem perform_blamed (valid : session.plan.Valid) (rule : session.plan.continueOnFailure = true)
    (orderly : call.isOrderly = true) (goes : call.isStop = false) (blamed : session.plan.Blamed) :
    (session.perform call).2.plan.Blamed := by
  cases call with
  | move _ _ | force _ _ => cases orderly
  | cancel | abort _ => cases goes
  | locks command => exact blamed
  | populate => exact blamed.populate valid
  | fail position failure => exact blamed.failAll position [failure]
  | collect =>
    simp only [perform, collect]
    split <;> exact blamed
  | add id deps resources =>
    simp only [perform]
    split
    next after added =>
      have later := valid.add added
      obtain ⟨fresh, _, _, rfl⟩ := add_attached added
      have idle := later.phase.resolve_left fun begun => by
        have started : session.plan.started = true := begun.started
        simp [fresh] at started
      exact idle.open.blamed
    · exact blamed
  | select lease book =>
    rcases perform_select valid lease book with ⟨_, same⟩ | ⟨node, entry, found, ready, _, hands⟩
    · rw [same]
      exact blamed
    · rw [hands]
      exact blamed.hand valid found ready
  | complete position =>
    simp only [perform]
    rcases complete_cases valid position session.desk.locks with
      ⟨entry, found, executing, _⟩ | ⟨_, same⟩
    · exact blamed.complete valid rule found executing session.desk.locks
    · rw [same]
      exact blamed.disown (some position)

theorem run_begun (valid : start.plan.Valid) (orderly : ∀ call ∈ calls, call.isOrderly = true)
    (populated : .populate ∈ calls) : (start.run calls).plan.Begun := by
  revert populated
  apply run_keeps valid _ _ orderly
  · exact fun never => absurd never List.not_mem_nil
  · intro calls call valid orderly begun populated
    rw [run_concat]
    rcases List.mem_append.mp populated with earlier | last
    · exact perform_begun valid orderly (begun earlier)
    · rw [← List.mem_singleton.mp last]
      exact valid.populate.2.2

private theorem run_blamed (valid : start.plan.Valid) (rule : start.plan.continueOnFailure = true)
    (blamed : start.plan.Blamed) (orderly : ∀ call ∈ calls, call.isOrderly = true)
    (goes : ∀ call ∈ calls, call.isStop = false) :
    (start.run calls).plan.continueOnFailure = true ∧ (start.run calls).plan.Blamed := by
  revert goes
  apply run_keeps valid _ _ orderly
  · exact fun _ => ⟨rule, blamed⟩
  · intro calls call valid orderly earlier goes
    obtain ⟨rule, blamed⟩ := earlier fun other member => goes other (List.mem_append_left _ member)
    rw [run_concat]
    exact ⟨(perform_settings valid orderly).2.2.trans rule,
      perform_blamed valid rule orderly (goes call (by simp)) blamed⟩

/-- In a plan that goes on after failures, from enumeration on and as long as nobody
stops it, a node is skipped if and only if something that it depends on has failed, and
waits if and only if nothing of that kind has but some dependency of its own has not
succeeded. The nodes whose own dependencies have all succeeded are the others. The end
of a node changes the state of itself, of nodes that it makes ready because they wait
for it, and, if it failed, of those that wait for it directly or through others. -/
theorem failures_spread (name : String) (scope : Nat) (desk : Desk) (calls : List Operation)
    (orderly : ∀ call ∈ calls, call.isOrderly = true) (goes : ∀ call ∈ calls, call.isStop = false)
    (populated : .populate ∈ calls) :
    let session := run { plan := empty name scope true, desk } calls
    let plan := session.plan
    (∀ node, plan.state? node = some .skipped ↔
      ∃ dep, plan.DependsOn node dep ∧ plan.state? dep = some .failed) ∧
    (∀ node, plan.state? node = some .notReady ↔
      (∀ dep, plan.DependsOn node dep → plan.state? dep ≠ some .failed) ∧
        ∃ dep ∈ plan.depsOf node, plan.state? dep ≠ some .succeeded) ∧
    (∀ node state, plan.state? node = some state →
      ((state = .ready ∨ state = .executing ∨ state = .succeeded ∨ state = .failed) ↔
        ∀ dep ∈ plan.depsOf node, plan.state? dep = some .succeeded)) ∧
    ∀ position node, (session.perform (.complete position)).2.plan.state? node ≠ plan.state? node →
      plan.Spreads (session.perform (.complete position)).2.plan position node := by
  intro session plan
  have fresh := empty_valid name scope true
  have valid : plan.Valid := run_valid fresh.1 orderly
  have begun : plan.Begun := run_begun fresh.1 orderly populated
  obtain ⟨rule, blamed⟩ : plan.continueOnFailure = true ∧ plan.Blamed :=
    run_blamed fresh.1 rfl fresh.2.open.blamed orderly goes
  exact ⟨blamed.skipped_iff valid begun, blamed.waiting_iff valid begun,
    fun node state => blamed.served_iff valid begun,
    fun position node => complete_spreads valid rule session.desk.locks⟩

/-- The dough needs the mill twice and the toast needs the dough on two ways. The tea needs
only the well, and it is being made. -/
private def morning : List Operation :=
  [ .add "mill" [] [], .add "well" [] [], .add "dough" ["mill", "well", "mill"] [],
    .add "loaf" ["dough"] [], .add "toast" ["loaf", "dough"] [], .add "tea" ["well"] [],
    .add "cup" ["tea", "tea"] [], .locks (.createTree "cooks" 1), .locks (.createChild ⟨0, 0⟩),
    .populate, .select ⟨0, 1⟩ 0, .fail 0 (.internal "jammed"), .complete 0, .select ⟨0, 1⟩ 0,
    .complete 1, .select ⟨0, 1⟩ 0 ]

private def kitchen : Session :=
  { plan := empty "breakfast" 0 true, desk := { books := [{}] } }

theorem morning_spreads :
    (kitchen.run morning).plan.entries.map (·.node.state) =
      [.failed, .succeeded, .skipped, .skipped, .skipped, .executing, .notReady] ∧
    (∃ dep, (kitchen.run morning).plan.DependsOn 4 dep ∧
      (kitchen.run morning).plan.state? dep = some .failed) ∧
    (∀ dep, (kitchen.run morning).plan.DependsOn 6 dep →
      (kitchen.run morning).plan.state? dep ≠ some .failed) := by
  obtain ⟨skipped, waiting, _⟩ := failures_spread "breakfast" 0 { books := [{}] } morning
    (by decide) (by decide) (by simp [morning])
  exact ⟨by decide +kernel, (skipped 4).mp (by decide +kernel), ((waiting 6).mp (by decide +kernel)).1⟩

end Session
end Plan
end Foreman
