import Foreman.Proofs.Floor

/-! What the acts on a floor do. Each of them keeps the floor as it should be: a
selection sends a node out with its locks or changes nothing, a completion brings one
back with them, and all other acts leave alone who is out. -/

namespace Foreman

theorem Locks.createChild_alike (locks : Locks) (parent : Lease) :
    locks.Alike (locks.createChild parent).2 := by
  cases found : locks.tree? parent with
  | some tree => exact fun lock => isLocked_createChild found lock
  | none =>
    have unchanged : (locks.createChild parent).2 = locks := by
      simp only [createChild, modifyTree]
      rw [List.modify_eq_self (List.getElem?_eq_none_iff.mp found)]
    rw [unchanged]
    exact .refl locks

theorem Locks.createTree_alike {locks after : Locks} {name : String} {budget : Int} {root : Lease}
    (created : locks.createTree name budget = .ok (root, after)) :
    locks.Alike after ∧ locks.Grows after := by
  simp only [createTree, LeaseTree.create] at created
  split at created
  · cases created
  · cases created
    constructor
    · intro lock
      cases lock with
      | resource scope name => rfl
      | lease lease =>
        simp only [isLocked, tree?, List.getElem?_append]
        split
        · rfl
        next outside =>
          rw [List.getElem?_eq_none (Nat.le_of_not_lt outside)]
          cases lease.tree - locks.trees.length <;> cases lease.place <;>
            simp [LeaseTree.isLocked]
    · refine ⟨fun index tree found => ⟨tree, ?_, rfl, Nat.le_refl _⟩⟩
      rwa [List.getElem?_append_left (List.getElem?_eq_some_iff.mp found).1]

namespace Floor

variable {floor start after : Floor} {place node : Nat} {plan new : Plan} {lease : Lease}
  {entry : Entry} {answer : Option Nat}

/-! The plans of a floor. -/

private theorem engaged?_set (found : floor.plans[place]? = some plan)
    (plans : after.plans = floor.plans.set place new) (other node : Nat) :
    after.engaged? other node =
      if other = place then new.engaged? node else floor.engaged? other node := by
  have inside := (List.getElem?_eq_some_iff.mp found).1
  simp only [engaged?, plans, List.getElem?_set]
  by_cases same : place = other
  · simp [same, same ▸ inside]
  · simp [same, Ne.symm same]

private theorem Kept.plans_set (kept : floor.Kept) (found : floor.plans[place]? = some plan)
    (plans : after.plans = floor.plans.set place new) (valid : new.Valid)
    (scope : new.scope = plan.scope) (other : Nat) (later : Plan)
    (present : after.plans[other]? = some later) : later.Valid ∧ later.scope = other := by
  rw [plans, List.getElem?_set] at present
  split at present
  next same =>
    subst same
    split at present
    · cases present
      exact ⟨valid, scope.trans (kept.plans place plan found).2⟩
    · cases present
  · exact kept.plans other later present

theorem set_self (found : floor.plans[place]? = some plan) :
    floor.plans.set place plan = floor.plans := by
  obtain ⟨inside, rfl⟩ := List.getElem?_eq_some_iff.mp found
  exact List.set_getElem_self inside

/-! The acts one by one. -/

theorem empty_kept : Kept {} := by
  refine ⟨⟨by simp⟩, by simp, List.nodup_nil, by simp, ?_, ?_, by simp⟩
  · exact fun place node names held engaged => absurd engaged (by simp [engaged?])
  · intro lock
    cases lock <;> simp [Locks.isLocked, Locks.tree?]

private theorem Kept.plant (kept : floor.Kept) {name : String} {budget : Int} {root : Lease}
    {locks : Locks} (created : floor.locks.createTree name budget = .ok (root, locks)) :
    Kept { floor with locks } ∧ Pass.Steady floor.locks locks := by
  obtain ⟨alike, grows⟩ := Locks.createTree_alike created
  have sound := Locks.createTree_sound kept.sound created
  exact ⟨kept.still rfl alike sound kept.plans fun _ _ => rfl, ⟨fun _ => sound, grows⟩⟩

private theorem Kept.enter (kept : floor.Kept) (name : String) (rule : Bool) :
    Kept { floor with plans := floor.plans ++ [.empty name floor.plans.length rule] } := by
  refine kept.still rfl (.refl _) kept.sound ?_ ?_
  · intro place plan found
    rw [List.getElem?_append] at found
    split at found
    · exact kept.plans place plan found
    next outside =>
      have here := (List.getElem?_eq_some_iff.mp found).1
      rw [List.length_singleton] at here
      have last := List.mem_singleton.mp (List.mem_of_getElem? found)
      rw [last]
      exact ⟨(Plan.empty_valid _ _ _).1, by simp only [Plan.empty]; omega⟩
  · intro place node
    simp only [engaged?, List.getElem?_append]
    split
    · rfl
    next outside =>
      rw [List.getElem?_eq_none (Nat.le_of_not_lt outside)]
      cases place - floor.plans.length <;> simp [Plan.engaged?, Plan.empty]

private theorem Kept.hire (kept : floor.Kept) (parent : Lease) :
    Kept { floor with locks := (floor.locks.createChild parent).2 } :=
  kept.still rfl (Locks.createChild_alike _ _) (Locks.createChild_sound kept.sound _) kept.plans
    fun _ _ => rfl

private theorem Kept.tend (kept : floor.Kept) (found : floor.plans[place]? = some plan)
    {call : Plan.Operation} (clerical : call.isClerical = true) :
    Kept { floor with
      plans := floor.plans.set place (Plan.Session.perform { plan } call).2.plan } := by
  obtain ⟨valid, scope, same⟩ :=
    Plan.Session.perform_clerical { plan } (kept.plans place plan found).1 clerical
  refine kept.still rfl (.refl _) kept.sound ?_ ?_
  · exact kept.plans_set found rfl valid scope
  · intro other node
    rw [engaged?_set found rfl]
    split
    next here => rw [here, engaged?_eq found, same]
    · rfl

/-- What comes of a selection: nothing but that the locks were tried, or a node that
is sent out. -/
inductive Serving (floor : Floor) (place : Nat) (lease : Lease) (plan : Plan) :
    Option Nat × Floor → Prop where
  | none (later : Pass) (starved : plan.Starved lease floor.locks)
      (idles : Plan.Idles { locks := floor.locks } later) :
      Serving floor place lease plan (none, { floor with locks := later.release.locks })
  | some (node : Nat) (entry : Entry) (later : Pass)
      (selects : plan.Selects lease { locks := floor.locks } node entry later) :
      Serving floor place lease plan
        (some node,
          { floor with
            locks := later.commit.locks
            plans := floor.plans.set place (plan.hand lease node entry)
            out := ⟨lease, place, node⟩ :: floor.out })

theorem Kept.serving (kept : floor.Kept) (selected : floor.select place lease = some (answer, after)) :
    ∃ plan, floor.plans[place]? = some plan ∧ (∀ ticket ∈ floor.out, ticket.lease ≠ lease) ∧
      floor.Serving place lease plan (answer, after) := by
  obtain ⟨plan, found, selected⟩ := Option.bind_eq_some_iff.mp selected
  split at selected
  next allowed =>
    refine ⟨plan, found, allowed, ?_⟩
    have selection : Plan.Selection plan lease { locks := floor.locks } (plan.select lease _) :=
      Plan.select_selection (kept.plans place plan found).1.coherent lease rfl
    generalize plan.select lease { locks := floor.locks } = result at selection selected
    cases selection with
    | none later starved idles =>
      simp only [set_self found] at selected
      cases selected
      exact .none later starved idles
    | some node entry later selects =>
      cases selected
      exact .some node entry later selects
  · cases selected

private theorem Kept.select (kept : floor.Kept)
    (selected : floor.select place lease = some (answer, after)) :
    after.Kept ∧ Pass.Steady floor.locks after.locks := by
  obtain ⟨plan, found, free, serving⟩ := kept.serving selected
  cases serving with
  | none later starved idles =>
    have sound := idles.steady.sound kept.sound
    exact ⟨kept.still rfl idles.alike sound kept.plans fun _ _ => rfl, idles.steady⟩
  | some node entry later selects =>
    obtain ⟨valid, scope⟩ := kept.plans place plan found
    have handles : plan.Handles (some node) (plan.hand lease node entry) :=
      Plan.hand_handles valid selects.found selects.ready
    have wanted : plan.wanted node = entry.node.resources.map (.resource place) := by
      rw [Plan.wanted_eq selects.found, ← scope]
      rfl
    refine ⟨?_, selects.steady⟩
    refine kept.send ⟨lease, place, node⟩ entry.node.resources rfl
      (selects.steady.sound kept.sound) ?_ ?_ ?_ ?_ ?_ ?_
    · exact kept.plans_set found rfl (valid.hand selects.found selects.ready) rfl
    · rw [engaged?_eq found]
      exact Plan.engaged?_none selects.found (by simp [selects.ready])
    · have handed : (plan.hand lease node entry).entries[node]? = some (plan.handed lease entry) := by
        have inside := (List.getElem?_eq_some_iff.mp selects.found).1
        simp [Plan.hand, inside]
      rw [engaged?_set found rfl, if_pos rfl, Plan.engaged?_iff]
      refine ⟨_, handed, rfl, rfl, ?_⟩
      rw [← scope]
      rfl
    · intro other position elsewhere
      rw [engaged?_set found rfl]
      split
      next here =>
        subst here
        rw [engaged?_eq found]
        exact handles.engaged? fun same => elsewhere ⟨rfl, (Option.some.inj same).symm⟩
      · rfl
    · intro lock member
      rcases List.mem_cons.mp member with rfl | member
      · rw [kept.lease_locked]
        rintro ⟨ticket, out, same⟩
        exact free ticket out same
      · exact selects.free lock (wanted ▸ member)
    · intro lock
      show later.locks.isLocked lock ↔ _
      rw [selects.locked, wanted, Ticket.locks, List.mem_cons, or_assoc]

theorem Kept.ticket (kept : floor.Kept) (found : floor.plans[place]? = some plan)
    (present : plan.entries[node]? = some entry) (executing : entry.node.state = .executing) :
    floor.engaged? place node = some (entry.node.resources, entry.node.held) ∧
      ∃ lease, ⟨lease, place, node⟩ ∈ floor.out ∧
        entry.node.held = .lease lease :: entry.node.resources.map (.resource place) := by
  have engaged : floor.engaged? place node = some (entry.node.resources, entry.node.held) := by
    rw [engaged?_eq found, Plan.engaged?_iff]
    exact ⟨entry, present, executing, rfl, rfl⟩
  obtain ⟨lease, out⟩ := kept.engaged place node _ _ engaged
  obtain ⟨names, sent⟩ := kept.sent _ out
  obtain ⟨same, held⟩ := Prod.mk.inj (Option.some.inj (engaged.symm.trans sent))
  subst same
  exact ⟨engaged, lease, out, held⟩

/-- Completing a node that is not being executed changes neither plan nor locks. -/
theorem Kept.complete_idle (kept : floor.Kept) (found : floor.plans[place]? = some plan)
    (other : plan.state? node ≠ some .executing) :
    plan.complete node floor.locks = (plan, floor.locks) := by
  cases present : plan.entries[node]? with
  | none => simp [Plan.complete, present]
  | some entry =>
    have idle : entry.node.state ≠ .executing := fun executing =>
      other (by rw [Plan.state?_eq present, executing])
    have bare : entry.node.held = [] := by
      apply Decidable.of_not_not
      exact fun holds => idle ((kept.plans place plan found).1.coherent.holding node entry present holds)
    have plans : (plan.complete node floor.locks).1 = plan := by
      have same : { entry with node := { entry.node with held := [] } } = entry := by rw [← bare]
      have entries := Plan.modify_set present fun entry =>
        { entry with node := { entry.node with held := [] } }
      obtain ⟨inside, found⟩ := List.getElem?_eq_some_iff.mp present
      rw [same, ← found, List.set_getElem_self] at entries
      rw [Plan.complete_other present idle]
      exact congrArg (fun entries => { plan with entries }) entries
    have locks : (plan.complete node floor.locks).2 = floor.locks := by
      rw [Plan.complete_locks present, bare]
      rfl
    exact Prod.ext plans locks

theorem Kept.complete (kept : floor.Kept) (completed : floor.complete place node = some after) :
    after.Kept ∧ Pass.Steady floor.locks after.locks := by
  obtain ⟨plan, found, rfl⟩ := Option.map_eq_some_iff.mp completed
  have steady := Plan.complete_steady plan node floor.locks
  refine ⟨?_, steady⟩
  by_cases busy : plan.state? node = some .executing
  · obtain ⟨entry, present, executing⟩ := Plan.entry_of_state? busy
    obtain ⟨valid, scope⟩ := kept.plans place plan found
    obtain ⟨done, ends⟩ := Plan.complete_executing valid present executing floor.locks
    obtain ⟨engaged, lease, out, _⟩ := kept.ticket found present executing
    refine kept.recall out rfl (steady.sound kept.sound) ?_ ?_ ?_ ?_
    · exact kept.plans_set found rfl done ends.keeps.scope
    · obtain ⟨later, last, _, _, state⟩ := ends.own
      rw [engaged?_set found rfl, if_pos rfl]
      apply Plan.engaged?_none last
      rw [state]
      split <;> simp
    · intro other position elsewhere
      rw [engaged?_set found rfl]
      split
      next here =>
        subst here
        rw [engaged?_eq found]
        exact ends.handles.engaged? fun same => elsewhere ⟨rfl, (Option.some.inj same).symm⟩
      · rfl
    · intro lock
      rw [locksOf_eq engaged, Plan.complete_locks present]
      exact Locks.isLocked_unlockAll
  · have unchanged := kept.complete_idle found busy
    have absent (ticket : Ticket) (member : ticket ∈ floor.out) :
        ¬ (ticket.place = place ∧ ticket.node = node) := by
      rintro ⟨rfl, rfl⟩
      obtain ⟨names, sent⟩ := kept.sent ticket member
      rw [engaged?_eq found, Plan.engaged?_iff] at sent
      obtain ⟨entry, present, executing, _⟩ := sent
      exact busy (by rw [Plan.state?_eq present, executing])
    have all : (floor.out.filter fun ticket => ¬ (ticket.place = place ∧ ticket.node = node)) =
        floor.out := List.filter_eq_self.mpr fun ticket member => decide_eq_true (absent ticket member)
    rw [unchanged, set_self found, all]
    exact kept

/-- One act keeps a floor as it should be, and its leases and trees last. -/
theorem Kept.step (kept : floor.Kept) {act : Act} (stepped : floor.step act = some after) :
    after.Kept ∧ Pass.Steady floor.locks after.locks := by
  cases act with
  | plant name budget =>
    simp only [Floor.step] at stepped
    split at stepped
    next created =>
      cases stepped
      exact kept.plant created
    · cases stepped
  | enter name rule =>
    cases stepped
    exact ⟨kept.enter name rule, .refl _⟩
  | hire parent =>
    cases stepped
    exact ⟨kept.hire parent, .createChild _ _⟩
  | tend place call =>
    obtain ⟨plan, found, stepped⟩ := Option.bind_eq_some_iff.mp stepped
    split at stepped
    next clerical =>
      cases stepped
      exact ⟨kept.tend found clerical, .refl _⟩
    · cases stepped
  | select place lease =>
    obtain ⟨⟨answer, later⟩, selected, rfl⟩ := Option.map_eq_some_iff.mp stepped
    exact kept.select selected
  | complete place node => exact kept.complete stepped

theorem Kept.play (kept : start.Kept) {acts : List Act} (played : start.play acts = some floor) :
    floor.Kept ∧ Pass.Steady start.locks floor.locks := by
  induction acts generalizing start with
  | nil =>
    cases played
    exact ⟨kept, .refl _⟩
  | cons act rest ih =>
    obtain ⟨middle, stepped, played⟩ := Option.bind_eq_some_iff.mp played
    obtain ⟨between, steady⟩ := kept.step stepped
    obtain ⟨last, further⟩ := ih between played
    exact ⟨last, steady.trans further⟩

end Floor
end Foreman
