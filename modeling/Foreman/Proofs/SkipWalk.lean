import Foreman.Plan.Skip
import Foreman.Proofs.PlanGraph

/-! The walk over dependents. It comes to every node that waits for the start,
directly or through others, and to no other node. -/

namespace Foreman

namespace Walk

variable {next : Nat → List Nat} {bound : Nat}

theorem mem_fresh {met candidates : List Nat} {place : Nat} :
    place ∈ fresh bound met candidates ↔ place ∈ candidates ∧ place < bound ∧ place ∉ met := by
  induction candidates generalizing met with
  | nil => simp [fresh]
  | cons first rest ih =>
    unfold fresh
    split
    next new =>
      rw [List.mem_cons, List.mem_cons, ih, List.mem_cons]
      by_cases same : place = first
      · simp [same, new]
      · simp [same]
    next old =>
      rw [ih, List.mem_cons]
      constructor
      · exact fun found => ⟨Or.inr found.1, found.2⟩
      · intro listed
        obtain ⟨rfl | member, inside⟩ := listed
        · exact absurd inside old
        · exact ⟨member, inside⟩

theorem mem_walk_of_stack (stack met : List Nat) :
    ∀ place ∈ stack, place ∈ walk next bound stack met := by
  fun_induction walk next bound stack met with
  | case1 => simp
  | case2 met first rest found ih =>
    intro place member
    rcases List.mem_cons.mp member with rfl | member
    · exact List.mem_cons_self
    · exact List.mem_cons_of_mem _ (ih place (List.mem_append_right _ member))

/-- From each place that the walk comes to it goes on to all that follow. -/
theorem walk_closed (stack met : List Nat) :
    ∀ place ∈ walk next bound stack met, ∀ follower ∈ next place, follower < bound →
      follower ∈ walk next bound stack met ∨ follower ∈ met := by
  fun_induction walk next bound stack met with
  | case1 => simp
  | case2 met first rest found ih =>
    have onward (place : Nat) (member : place ∈ found) :
        place ∈ walk next bound (found ++ rest) (found ++ met) :=
      mem_walk_of_stack _ _ _ (List.mem_append_left _ member)
    intro place member follower follows inside
    rcases List.mem_cons.mp member with rfl | member
    · by_cases old : follower ∈ met
      · exact Or.inr old
      · have new : follower ∈ found := List.mem_reverse.mpr (mem_fresh.mpr ⟨follows, inside, old⟩)
        exact Or.inl (List.mem_cons_of_mem _ (onward follower new))
    · rcases ih place member follower follows inside with walked | seen
      · exact Or.inl (List.mem_cons_of_mem _ walked)
      · rcases List.mem_append.mp seen with new | old
        · exact Or.inl (List.mem_cons_of_mem _ (onward follower new))
        · exact Or.inr old

/-- The walk comes to a place from its stack or from a place before. -/
theorem walk_source (stack met : List Nat) :
    ∀ place ∈ walk next bound stack met,
      place ∈ stack ∨ ∃ earlier ∈ walk next bound stack met, place ∈ next earlier := by
  fun_induction walk next bound stack met with
  | case1 => simp
  | case2 met first rest found ih =>
    intro place member
    rcases List.mem_cons.mp member with rfl | member
    · exact Or.inl List.mem_cons_self
    · rcases ih place member with waiting | ⟨earlier, walked, follows⟩
      · rcases List.mem_append.mp waiting with new | waiting
        · exact Or.inr ⟨first, List.mem_cons_self, (mem_fresh.mp (List.mem_reverse.mp new)).1⟩
        · exact Or.inl (List.mem_cons_of_mem _ waiting)
      · exact Or.inr ⟨earlier, List.mem_cons_of_mem _ walked, follows⟩

theorem fresh_nodup (bound : Nat) (met candidates : List Nat) :
    (fresh bound met candidates).Nodup := by
  induction candidates generalizing met with
  | nil => exact List.nodup_nil
  | cons first rest ih =>
    unfold fresh
    split
    · refine List.nodup_cons.mpr ⟨fun again => ?_, ih (first :: met)⟩
      exact (mem_fresh.mp again).2.2 List.mem_cons_self
    · exact ih met

/-- What is on the stack was met, so the walk does not come to a place again. Other than the
places on its stack it comes only to those that were not met before. -/
theorem walk_nodup (stack met : List Nat) (distinct : stack.Nodup) (known : stack ⊆ met) :
    (walk next bound stack met).Nodup ∧
      ∀ place ∈ walk next bound stack met, place ∈ stack ∨ place ∉ met := by
  fun_induction walk next bound stack met with
  | case1 => simp
  | case2 met first rest found ih =>
    obtain ⟨alone, others⟩ := List.nodup_cons.mp distinct
    have unmet (place : Nat) (member : place ∈ found) : place ∉ met :=
      (mem_fresh.mp (List.mem_reverse.mp member)).2.2
    have once : found.Nodup := (List.reverse_perm _).nodup_iff.mpr (fresh_nodup bound met _)
    have waiting : (found ++ rest).Nodup := by
      refine List.nodup_append.mpr ⟨once, others, ?_⟩
      rintro place new _ old rfl
      exact unmet place new (known (List.mem_cons_of_mem _ old))
    have listed : found ++ rest ⊆ found ++ met := List.append_subset.mpr
      ⟨List.subset_append_left _ _, fun place member =>
        List.mem_append_right _ (known (List.mem_cons_of_mem _ member))⟩
    obtain ⟨later, origin⟩ := ih waiting listed
    refine ⟨List.nodup_cons.mpr ⟨fun again => ?_, later⟩, fun place member => ?_⟩
    · have old : first ∈ met := known List.mem_cons_self
      rcases origin first again with stacked | missed
      · exact (List.mem_append.mp stacked).elim (fun new => unmet first new old) alone
      · exact missed (List.mem_append_right _ old)
    · rcases List.mem_cons.mp member with rfl | later
      · exact Or.inl List.mem_cons_self
      · rcases origin place later with stacked | missed
        · rcases List.mem_append.mp stacked with new | old
          · exact Or.inr (unmet place new)
          · exact Or.inl (List.mem_cons_of_mem _ old)
        · exact Or.inr fun old => missed (List.mem_append_right _ old)

end Walk

namespace Plan

variable {plan : Plan} {root position other : Nat}

/-- The nodes that name this one, as the walk looks them up. -/
def followers (plan : Plan) (position : Nat) : List Nat :=
  (plan.entries[position]?.map (·.dependents)).getD []

theorem mem_followers (graph : plan.Graph) (inside : position < plan.size) :
    other ∈ plan.followers position ↔ position ∈ plan.depsOf other := by
  have found := List.getElem?_eq_getElem inside
  rw [followers, found, Option.map_some, Option.getD_some, graph.dependents position _ found,
    mem_mentions]

theorem Keeps.followers {after : Plan} (keeps : plan.Keeps after) (position : Nat) :
    after.followers position = plan.followers position := by
  cases found : after.entries[position]? with
  | some entry =>
    obtain ⟨earlier, present, links⟩ := keeps.back found
    rw [Plan.followers, Plan.followers, found, present, Option.map_some, Option.map_some,
      links.dependents]
  | none => rw [Plan.followers, Plan.followers, found, keeps.absent found]

private theorem followed_inside (member : other ∈ plan.followers position) :
    position < plan.size := by
  apply Nat.lt_of_not_le
  intro outside
  have absent : plan.entries[position]? = none := List.getElem?_eq_none_iff.mpr outside
  simp [followers, absent] at member

theorem walk_root (plan : Plan) (root : Nat) :
    Walk.walk plan.followers plan.size [root] [] = root :: plan.descendants root := by
  have walked : plan.descendants root = (Walk.walk plan.followers plan.size [root] []).tail := rfl
  rw [walked, Walk.walk, List.tail_cons]

private theorem descendants_walk (plan : Plan) (root : Nat) :
    let found := (Walk.fresh plan.size [] (plan.followers root)).reverse
    plan.descendants root = Walk.walk plan.followers plan.size found found := by
  simp only [descendants]
  rw [Walk.walk]
  simp only [List.append_nil, List.tail_cons]
  rfl

theorem depsOf_inside (member : position ∈ plan.depsOf other) : other < plan.size := by
  apply Nat.lt_of_not_le
  intro outside
  rw [depsOf_outside outside] at member
  cases member

theorem Graph.follower_inside (graph : plan.Graph) (member : other ∈ plan.followers position) :
    other < plan.size :=
  depsOf_inside ((mem_followers graph (followed_inside member)).mp member)

theorem descendants_nodup (plan : Plan) (root : Nat) : (plan.descendants root).Nodup := by
  rw [descendants_walk]
  have distinct := (List.reverse_perm _).nodup_iff.mpr
    (Walk.fresh_nodup plan.size [] (plan.followers root))
  exact (Walk.walk_nodup _ _ distinct (List.Subset.refl _)).1

private theorem mem_found (graph : plan.Graph) (inside : root < plan.size) :
    other ∈ (Walk.fresh plan.size [] (plan.followers root)).reverse ↔ root ∈ plan.depsOf other := by
  rw [List.mem_reverse, Walk.mem_fresh, mem_followers graph inside]
  constructor
  · exact And.left
  · exact fun member => ⟨member, depsOf_inside member, List.not_mem_nil⟩

theorem Graph.dep_inside (graph : plan.Graph) (member : position ∈ plan.depsOf other) :
    position < plan.size :=
  Nat.lt_trans (graph.earlier other position member) (depsOf_inside member)

theorem mem_descendants_of_dep (graph : plan.Graph) (member : root ∈ plan.depsOf other) :
    other ∈ plan.descendants root := by
  rw [descendants_walk]
  exact Walk.mem_walk_of_stack _ _ _ ((mem_found graph (graph.dep_inside member)).mpr member)

theorem descendants_closed (graph : plan.Graph) (descends : position ∈ plan.descendants root)
    (member : position ∈ plan.depsOf other) : other ∈ plan.descendants root := by
  have inside := graph.dep_inside member
  rw [descendants_walk] at descends ⊢
  have onward := Walk.walk_closed _ _ position descends other
    ((mem_followers graph inside).mpr member) (depsOf_inside member)
  exact onward.elim id (Walk.mem_walk_of_stack _ _ _)

theorem descendants_source (graph : plan.Graph) (inside : root < plan.size)
    (descends : other ∈ plan.descendants root) :
    root ∈ plan.depsOf other ∨
      ∃ earlier ∈ plan.descendants root, earlier ∈ plan.depsOf other := by
  rw [descendants_walk] at descends ⊢
  rcases Walk.walk_source _ _ other descends with start | ⟨earlier, walked, follows⟩
  · exact Or.inl ((mem_found graph inside).mp start)
  · refine Or.inr ⟨earlier, walked, ?_⟩
    exact (mem_followers graph (followed_inside follows)).mp follows

end Plan
end Foreman
