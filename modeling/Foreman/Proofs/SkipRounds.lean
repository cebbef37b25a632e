import Foreman.Proofs.GraphBuilding

/-! Skipping what depends on a node, round by round. A round takes a node off a stack,
skips what names it and was not met before, and puts that on the stack. Whatever the
states of the nodes are, the rounds come to the start and to all that depend on it, each
once, and then the stack is empty. They skip those that nobody has selected yet, in
another order than the plan does, which makes no difference. -/

namespace Foreman

def Entry.skipped (entry : Entry) : Entry :=
  { entry with node := { entry.node with state := .skipped, finished := true } }

namespace Plan

variable {plan after : Plan} {node root : Nat} {nodes lost : List Nat}

theorem isUnscheduled_iff : plan.isUnscheduled node = true ↔
    plan.state? node = some .notReady ∨ plan.state? node = some .ready := by
  rw [isUnscheduled]
  cases plan.state? node with
  | none => simp
  | some state => cases state <;> simp [State.isUnscheduled]

/-! The plan once some nodes are lost. -/

/-- The plan with these nodes skipped, taken off the queue and no longer counted as open. -/
def lose (plan : Plan) (lost : List Nat) : Plan :=
  { plan with
    entries := plan.entries.mapIdx fun node entry => if node ∈ lost then entry.skipped else entry
    queue := plan.queue.filter (· ∉ lost)
    remaining := plan.remaining - lost.length }

theorem lose_found (plan : Plan) (lost : List Nat) (node : Nat) :
    (plan.lose lost).entries[node]? =
      plan.entries[node]?.map fun entry => if node ∈ lost then entry.skipped else entry := by
  simp [lose, List.getElem?_mapIdx]

theorem lose_touches (plan : Plan) (lost : List Nat) : plan.Touches (plan.lose lost) :=
  ⟨_, _, _, rfl⟩

theorem eq_lose (touches : plan.Touches after)
    (found : ∀ node, after.entries[node]? =
      plan.entries[node]?.map fun entry => if node ∈ lost then entry.skipped else entry)
    (queue : after.queue = plan.queue.filter (· ∉ lost))
    (remaining : after.remaining = plan.remaining - lost.length) : after = plan.lose lost := by
  have entries : after.entries = (plan.lose lost).entries :=
    List.ext_getElem? fun node => (found node).trans (lose_found plan lost node).symm
  obtain ⟨_, _, _, rfl⟩ := touches
  subst entries queue remaining
  rfl

theorem lose_nil (plan : Plan) : plan.lose [] = plan :=
  (eq_lose (.refl plan) (by simp) (by simp) (by simp)).symm

theorem lose_append (plan : Plan) (lost others : List Nat) :
    (plan.lose lost).lose others = plan.lose (lost ++ others) := by
  apply eq_lose ((lose_touches plan lost).trans (lose_touches _ others))
  · intro node
    rw [lose_found, lose_found, Option.map_map]
    congr 1
    funext entry
    by_cases first : node ∈ lost <;> by_cases second : node ∈ others <;>
      simp [first, second, Entry.skipped]
  · simp [lose, Bool.and_comm]
  · simp only [lose, List.length_append]
    omega

theorem lose_perm {others : List Nat} (same : lost.Perm others) :
    plan.lose lost = plan.lose others := by
  simp only [lose, same.mem_iff, same.length_eq]

/-! Skipping nodes of a plan whose queue and count are right. -/

theorem Tallied.skip (tallied : plan.Tallied) (node : Nat) :
    (plan.skip node).Tallied ∧ plan.Keeps (plan.skip node) := by
  cases unscheduled : plan.isUnscheduled node with
  | false =>
    rw [skip_scheduled unscheduled]
    exact ⟨tallied, .refl plan⟩
  | true =>
    obtain ⟨entry, found, free⟩ := isUnscheduled_entry unscheduled
    have replaces := Replaces.skip tallied found free
    exact ⟨replaces.tallied tallied, replaces.keeps⟩

theorem Tallied.skipAll (tallied : plan.Tallied) (nodes : List Nat) :
    (nodes.foldl Plan.skip plan).Tallied ∧ plan.Keeps (nodes.foldl Plan.skip plan) := by
  induction nodes generalizing plan with
  | nil => exact ⟨tallied, .refl plan⟩
  | cons first rest ih =>
    obtain ⟨next, keeps⟩ := tallied.skip first
    obtain ⟨done, later⟩ := ih next
    exact ⟨done, keeps.trans later⟩

private theorem Tallied.skip_eq (tallied : plan.Tallied)
    (unscheduled : plan.isUnscheduled node = true) : plan.skip node = plan.lose [node] := by
  obtain ⟨entry, found, free⟩ := isUnscheduled_entry unscheduled
  have replaces := Replaces.skip tallied found free
  have books : (plan.skip node).queue = plan.queue.filter (· ≠ node) ∧
      (plan.skip node).remaining = plan.remaining - 1 := by
    -- only a ready node is looked for in the queue, since no other is there
    rcases isUnscheduled_iff.mp unscheduled with idle | ready
    · have absent : node ∉ plan.queue := fun member => by
        simpa [idle] using (tallied.queued node).mp member
      have same : plan.queue.filter (· ≠ node) = plan.queue :=
        List.filter_eq_self.mpr fun other member =>
          decide_eq_true fun same : other = node => absent (same ▸ member)
      rw [same]
      simp [Plan.skip, idle, markTerminal, modifyNode, modify]
    · simp [Plan.skip, ready, markTerminal, modifyNode, modify]
  refine eq_lose (skip_touches plan node) (fun other => ?_) ?_ books.2
  · rw [replaces.lookup]
    by_cases same : other = node
    · subst same
      simp [found, Entry.skipped, Node.enter, State.isTerminal]
    · simp [same]
  · simpa using books.1

/-- Whatever the order, those are lost that nobody has selected. -/
theorem Tallied.foldl_skip (tallied : plan.Tallied) (distinct : nodes.Nodup) :
    nodes.foldl Plan.skip plan = plan.lose (nodes.filter plan.isUnscheduled) := by
  induction nodes generalizing plan with
  | nil => exact (lose_nil plan).symm
  | cons first rest ih =>
    obtain ⟨alone, others⟩ := List.nodup_cons.mp distinct
    have same : rest.filter (plan.skip first).isUnscheduled = rest.filter plan.isUnscheduled := by
      refine List.filter_congr fun other member => ?_
      have differs : other ≠ first := fun same => alone (same ▸ member)
      rw [isUnscheduled, isUnscheduled, skip_other plan differs]
    rw [List.foldl_cons, ih (tallied.skip first).1 others, same]
    cases unscheduled : plan.isUnscheduled first with
    | false => rw [skip_scheduled unscheduled, List.filter_cons_of_neg (by simp [unscheduled])]
    | true =>
      rw [tallied.skip_eq unscheduled, lose_append, List.filter_cons_of_pos unscheduled,
        List.singleton_append]

theorem Tallied.foldl_skip_perm {others : List Nat} (tallied : plan.Tallied)
    (distinct : nodes.Nodup) (same : nodes.Perm others) :
    nodes.foldl Plan.skip plan = others.foldl Plan.skip plan := by
  rw [tallied.foldl_skip distinct, tallied.foldl_skip (same.nodup_iff.mp distinct)]
  exact lose_perm (same.filter _)

/-! The rounds. -/

/-- Skipping in the middle: the plan as it is by then, the nodes still to be looked at,
of which the first is next, and the nodes met so far. -/
structure Search where
  plan : Plan
  stack : List Nat
  met : List Nat := []

namespace Search

/-- A node that is met for the first time is skipped, if it may be, and waits to be
looked at. -/
def meet (search : Search) (node : Nat) : Search :=
  if node ∈ search.met then search
  else
    { plan := search.plan.skip node, stack := node :: search.stack, met := node :: search.met }

/-- Looks at the node on top of the stack and meets what names it, once for each mention.
Without a node on the stack there is no round. -/
def round (search : Search) : Option (Nat × Search) :=
  match search.stack with
  | [] => none
  | node :: rest =>
    some (node, (search.plan.followers node).foldl meet { search with stack := rest })

/-- The rounds from here to the end, told by the nodes that they look at. -/
inductive Runs : Search → List Nat → Search → Prop
  | done {search : Search} (done : search.round = none) : Runs search [] search
  | round {search next last : Search} {node : Nat} {nodes : List Nat}
      (taken : search.round = some (node, next)) (rest : Runs next nodes last) :
      Runs search (node :: nodes) last

theorem foldl_meet {bound : Nat} (search : Search) (inside : ∀ node ∈ nodes, node < bound) :
    nodes.foldl meet search =
      { plan := (Walk.fresh bound search.met nodes).foldl skip search.plan
        stack := (Walk.fresh bound search.met nodes).reverse ++ search.stack
        met := (Walk.fresh bound search.met nodes).reverse ++ search.met } := by
  induction nodes generalizing search with
  | nil => rfl
  | cons first rest ih =>
    have further (search : Search) := ih search fun node member =>
      inside node (List.mem_cons_of_mem _ member)
    have known : first < bound := inside first List.mem_cons_self
    unfold Walk.fresh
    by_cases met : first ∈ search.met
    · simp [meet, met, further]
    · simp [meet, met, known, further]

/-- The rounds look at the nodes in the order of the walk. They skip each node when they
meet it, which is earlier than when they look at it. -/
theorem runs_walk (graph : plan.Graph) (stack met : List Nat) :
    ∀ now : Plan, now.Tallied → plan.Keeps now → ∃ order last,
      Runs { plan := now, stack, met } (Walk.walk plan.followers plan.size stack met) last ∧
      last.plan = order.foldl skip now ∧
      (stack ++ order).Perm (Walk.walk plan.followers plan.size stack met) := by
  fun_induction Walk.walk plan.followers plan.size stack met with
  | case1 met => exact fun now _ _ => ⟨[], _, .done rfl, rfl, .nil⟩
  | case2 met first rest found ih =>
    intro now tallied keeps
    let new := Walk.fresh plan.size met (plan.followers first)
    obtain ⟨next, kept⟩ := tallied.skipAll new
    obtain ⟨order, last, runs, ends, same⟩ := ih (new.foldl skip now) next (keeps.trans kept)
    have taken : round { plan := now, stack := first :: rest, met } = some (first,
        { plan := new.foldl skip now, stack := found ++ rest, met := found ++ met }) := by
      simp only [round, keeps.followers]
      rw [foldl_meet _ fun node member => graph.follower_inside member]
    refine ⟨new ++ order, last, .round taken runs, by rw [ends, List.foldl_append], ?_⟩
    -- the walk comes to the new nodes before the rest of the stack, the last one first
    have moved : (rest ++ new).Perm (found ++ rest) :=
      List.perm_append_comm.trans ((List.reverse_perm new).symm.append_right rest)
    have listed : (rest ++ (new ++ order)).Perm ((found ++ rest) ++ order) := by
      rw [← List.append_assoc]
      exact moved.append_right order
    exact (listed.trans same).cons first

end Search

/-- Take the graph of any plan on which only the plan's own calls were made, let its nodes
be in any states and the queue and the count of open nodes agree with these. From any
node, the rounds come to an end. They look at that node and at each that depends on it,
directly or through others, once, so there are no more rounds than nodes. They leave the
plan that skipping the dependents leaves: of those dependents, the ones that wait or are
ready are skipped, are taken off the queue, in which the others keep their order, and are
no longer counted; nothing else is changed. -/
theorem dependents_skipped_once (name : String) (scope : Nat) (rule : Bool) (desk : Desk)
    (calls : List Operation) (orderly : ∀ call ∈ calls, call.isOrderly = true)
    (built : (Session.run { plan := empty name scope rule, desk } calls).plan.Keeps plan)
    (tallied : plan.Tallied) (inside : root < plan.size) :
    ∃ (rounds lost : List Nat) (last : Search),
      Search.Runs { plan, stack := [root] } rounds last ∧
      last.plan = plan.skipDependents root ∧
      rounds.Nodup ∧ (∀ node, node ∈ rounds ↔ node = root ∨ plan.DependsOn node root) ∧
      rounds.length ≤ plan.size ∧
      lost.Nodup ∧ (∀ node, node ∈ lost ↔ plan.DependsOn node root ∧
        (plan.state? node = some .notReady ∨ plan.state? node = some .ready)) ∧
      plan.skipDependents root = plan.lose lost ∧ (plan.skipDependents root).Tallied := by
  have graph : plan.Graph :=
    (Session.run_valid (empty_valid name scope rule).1 orderly).coherent.graph.keep built
  have distinct := descendants_nodup plan root
  have members (node : Nat) : node ∈ plan.descendants root ↔ plan.DependsOn node root :=
    mem_descendants graph inside
  have once : (root :: plan.descendants root).Nodup :=
    List.nodup_cons.mpr ⟨fun again => graph.acyclic root ((members root).mp again), distinct⟩
  have within : root :: plan.descendants root ⊆ List.range plan.size := by
    intro node member
    rw [List.mem_range]
    rcases List.mem_cons.mp member with rfl | descends
    · exact inside
    · obtain ⟨_, direct, _⟩ := Relation.TransGen.head'_iff.mp ((members node).mp descends)
      exact depsOf_inside direct
  obtain ⟨order, last, runs, ends, same⟩ :=
    Search.runs_walk graph [root] [] plan tallied (.refl plan)
  rw [walk_root] at runs same
  have reordered : order.Perm (plan.descendants root) := List.Perm.cons_inv same
  refine ⟨root :: plan.descendants root, (plan.descendants root).filter plan.isUnscheduled, last,
    runs, ?_, once, ?_, ?_, distinct.filter _, ?_, tallied.foldl_skip distinct,
    (tallied.skipAll _).1⟩
  · rw [ends]
    exact tallied.foldl_skip_perm (reordered.nodup_iff.mpr distinct) reordered
  · intro node
    rw [List.mem_cons, members]
  · simpa using once.length_le_of_subset within
  · intro node
    rw [List.mem_filter, members, isUnscheduled_iff]

private def waterways : List Operation :=
  [ .add "spring" [] [], .add "stream" ["spring", "spring"] [], .add "canal" ["spring"] [],
    .add "mill" ["stream", "canal", "stream"] [], .add "lock" ["mill"] [], .add "well" [] [],
    .add "bakery" ["mill", "well"] [], .add "market" ["bakery"] [] ]

/-- The plan with its nodes in these states, and with this queue and this count. -/
private def recast (plan : Plan) (states : List State) (queue : List Nat) (remaining : Int) :
    Plan :=
  { plan with
    entries := plan.entries.mapIdx fun node entry =>
      { entry with node := { entry.node with state := states[node]?.getD .notReady } }
    queue
    remaining }

private theorem recast_keeps (plan : Plan) (states : List State) (queue : List Nat)
    (remaining : Int) : plan.Keeps (plan.recast states queue remaining) := by
  refine ⟨rfl, rfl, rfl, by simp [recast, size], fun position entry found => ?_⟩
  rw [recast, List.getElem?_mapIdx, found]
  exact ⟨_, rfl, rfl, rfl, rfl, rfl, id⟩

/-- States that no plan would give: what is ready depends on nodes that have not
succeeded, and some between the spring and the market have ended. -/
private def drought : Plan :=
  (Session.run { plan := empty "village" 0 true } waterways).plan.recast
    [.failed, .succeeded, .executing, .notReady, .ready, .ready, .skipped, .ready] [7, 5, 4] 5

private theorem drought_tallied : drought.Tallied := by
  refine ⟨by decide, fun node => ?_, by decide +kernel⟩
  have size : drought.entries.length = 8 := by decide +kernel
  by_cases inside : node < 8
  · have each : ∀ node < 8, node ∈ drought.queue ↔ drought.state? node = some .ready := by
      decide +kernel
    exact each node inside
  · have absent : drought.entries[node]? = none :=
      List.getElem?_eq_none_iff.mpr (size ▸ Nat.le_of_not_lt inside)
    have queue : drought.queue = [7, 5, 4] := rfl
    simp only [queue, state?, node?, absent, List.mem_cons, List.not_mem_nil, or_false,
      Option.map_none, reduceCtorEq, iff_false]
    omega

theorem drought_skips_once :
    (∃ rounds last, Search.Runs { plan := drought, stack := [0] } rounds last ∧
      last.plan = drought.skipDependents 0 ∧ rounds.Nodup ∧ rounds.length ≤ 8 ∧
      ∀ node, node ∈ rounds ↔ node = 0 ∨ drought.DependsOn node 0) ∧
    (drought.skipDependents 0).entries.map (·.node.state) =
      [.failed, .succeeded, .executing, .skipped, .skipped, .ready, .skipped, .skipped] ∧
    (drought.skipDependents 0).queue = [5] ∧ (drought.skipDependents 0).remaining = 2 := by
  have size : drought.size = 8 := by decide +kernel
  obtain ⟨rounds, _, last, runs, ends, once, all, few, _⟩ :=
    dependents_skipped_once "village" 0 true {} waterways (by decide) (recast_keeps _ _ _ _)
      drought_tallied (size ▸ (by decide : 0 < 8))
  exact ⟨⟨rounds, last, runs, ends, once, size ▸ few, all⟩, by decide +kernel, by decide +kernel,
    by decide +kernel⟩

end Plan
end Foreman
