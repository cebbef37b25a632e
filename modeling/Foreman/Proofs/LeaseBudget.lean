import Foreman.Lease.Tree

/-! The budget of a lease tree. Whatever is asked of a tree, it counts exactly
the leases that are locked, and never more of them than its budget allows. -/

namespace Foreman

theorem countP_places {α : Type} (list : List α) (p : α → Bool) :
    ((List.range list.length).countP fun place => list[place]?.any p) = list.countP p := by
  have listed : (List.range list.length).map (fun place => list[place]?) = list.map some := by
    apply List.ext_getElem (by simp)
    intro place inside _
    rw [List.length_map, List.length_range] at inside
    simp [inside]
  calc _ = ((List.range list.length).map fun place => list[place]?).countP (·.any p) := by
        rw [List.countP_map]
        rfl
    _ = list.countP p := by
        rw [listed, List.countP_map]
        rfl

namespace LeaseTree

/-- The tree counts its locked leases. -/
def Counted (tree : LeaseTree) : Prop := tree.locked = tree.leases.count true

structure Sound (tree : LeaseTree) : Prop where
  counted : tree.locked = tree.leases.count true
  within : tree.locked ≤ tree.budget
  positive : 0 < tree.budget
  rooted : 0 < tree.leases.length

theorem isLocked_iff {tree : LeaseTree} {place : Nat} :
    tree.isLocked place ↔ tree.leases[place]? = some true := by
  simp [isLocked]

theorem create_sound {name : String} {budget : Int} {tree : LeaseTree}
    (created : create name budget = .ok tree) : tree.Sound := by
  simp only [create] at created
  split at created
  · cases created
  next allowed =>
    cases created
    exact ⟨rfl, Nat.zero_le _, by simp only; omega, Nat.zero_lt_one⟩

theorem addChild_sound {tree : LeaseTree} (sound : tree.Sound) : tree.addChild.Sound := by
  refine ⟨?_, sound.within, sound.positive, by simp [addChild]⟩
  simpa [addChild] using sound.counted

theorem isLocked_addChild {tree : LeaseTree} {place : Nat} :
    tree.addChild.isLocked place ↔ tree.isLocked place := by
  rw [isLocked_iff, isLocked_iff]
  simp only [addChild, List.getElem?_append]
  split
  · rfl
  next outside =>
    rw [List.getElem?_eq_none (Nat.le_of_not_lt outside)]
    cases place - tree.leases.length <;> simp

theorem ask_taken {tree after : LeaseTree} {place : Nat} (asked : tree.ask place = .taken after) :
    tree.leases[place]? = some false ∧ tree.locked < tree.budget ∧ after = tree.lock place := by
  simp only [ask] at asked
  split at asked
  · cases asked
  · cases asked
  next free =>
    split at asked
    next room =>
      cases asked
      exact ⟨free, room, rfl⟩
    · cases asked

theorem ask_held {tree : LeaseTree} {place : Nat} (asked : tree.ask place = .held) :
    tree.isLocked place := by
  simp only [ask] at asked
  split at asked
  · cases asked
  next locked => exact isLocked_iff.mpr locked
  · split at asked <;> cases asked

/-- A lease of the tree is refused only when the budget is used up. -/
theorem ask_refused {tree : LeaseTree} {place : Nat} (inside : place < tree.leases.length)
    (asked : tree.ask place = .refused) : tree.budget ≤ tree.locked := by
  simp only [ask] at asked
  split at asked
  next absent => exact absurd inside (Nat.not_lt.mpr (List.getElem?_eq_none_iff.mp absent))
  · cases asked
  · split at asked
    · cases asked
    next full => exact Nat.le_of_not_lt full

@[simp]
theorem unlock_budget (tree : LeaseTree) (place : Nat) :
    (tree.unlock place).budget = tree.budget := by
  unfold unlock
  split <;> rfl

@[simp]
theorem length_unlock (tree : LeaseTree) (place : Nat) :
    (tree.unlock place).leases.length = tree.leases.length := by
  unfold unlock
  split <;> simp

theorem unlock_le (tree : LeaseTree) (place : Nat) : (tree.unlock place).locked ≤ tree.locked := by
  unfold unlock
  split
  · exact Nat.sub_le _ _
  · exact Nat.le_refl _

theorem lock_counted {tree : LeaseTree} {place : Nat} (counted : tree.Counted)
    (free : tree.leases[place]? = some false) : (tree.lock place).Counted := by
  obtain ⟨inside, unlocked⟩ := List.getElem?_eq_some_iff.mp free
  rw [Counted] at counted ⊢
  simp only [lock]
  rw [List.count_set inside, unlocked, counted]
  simp

theorem unlock_counted {tree : LeaseTree} {place : Nat} (counted : tree.Counted) :
    (tree.unlock place).Counted := by
  unfold unlock
  split
  next locked =>
    obtain ⟨inside, held⟩ := List.getElem?_eq_some_iff.mp (isLocked_iff.mp locked)
    rw [Counted] at counted ⊢
    simp only
    rw [List.count_set inside, held, counted]
    simp
  · exact counted

/-- Only a lease that is counted is taken off the count. -/
theorem unlock_locked {tree : LeaseTree} {place : Nat} (counted : tree.Counted)
    (locked : tree.isLocked place) : (tree.unlock place).locked + 1 = tree.locked := by
  have some_ : 0 < tree.leases.count true :=
    List.count_pos_iff.mpr (List.mem_of_getElem? (isLocked_iff.mp locked))
  rw [Counted] at counted
  rw [unlock, if_pos locked]
  simp only
  omega

theorem lock_sound {tree : LeaseTree} {place : Nat} (sound : tree.Sound)
    (free : tree.leases[place]? = some false) (room : tree.locked < tree.budget) :
    (tree.lock place).Sound :=
  ⟨lock_counted sound.counted free, room, sound.positive, by simpa [lock] using sound.rooted⟩

theorem unlock_sound {tree : LeaseTree} {place : Nat} (sound : tree.Sound) :
    (tree.unlock place).Sound := by
  refine ⟨unlock_counted sound.counted, ?_, ?_, ?_⟩
  · rw [unlock_budget]
    exact Nat.le_trans (unlock_le tree place) sound.within
  · rw [unlock_budget]
    exact sound.positive
  · rw [length_unlock]
    exact sound.rooted

theorem isLocked_lock {tree : LeaseTree} {place other : Nat}
    (free : tree.leases[place]? = some false) :
    (tree.lock place).isLocked other ↔ other = place ∨ tree.isLocked other := by
  have inside := (List.getElem?_eq_some_iff.mp free).1
  rw [isLocked_iff, isLocked_iff]
  simp only [lock, List.getElem?_set]
  by_cases same : place = other
  · simp [same, same ▸ inside]
  · simp [same, Ne.symm same]

theorem isLocked_unlock {tree : LeaseTree} {place other : Nat} :
    (tree.unlock place).isLocked other ↔ other ≠ place ∧ tree.isLocked other := by
  unfold unlock
  split
  next locked =>
    rw [isLocked_iff, isLocked_iff]
    simp only [List.getElem?_set]
    by_cases same : place = other
    · subst same
      simp
    · simp [same, Ne.symm same]
  next unlocked =>
    constructor
    · intro locked
      exact ⟨fun same => unlocked (same ▸ locked), locked⟩
    · exact And.right

private theorem count_places (tree : LeaseTree) :
    (List.range tree.leases.length).countP tree.isLocked = tree.leases.count true := by
  rw [List.count, ← countP_places tree.leases]
  apply List.countP_congr
  intro place _
  rw [isLocked]
  cases tree.leases[place]? <;> simp

theorem Counted.places {tree : LeaseTree} (counted : tree.Counted) :
    tree.locked = (List.range tree.leases.length).countP tree.isLocked := by
  rw [count_places]
  exact counted

/-- Locked leases at different places are counted one by one. -/
theorem length_le_locked {tree : LeaseTree} (sound : tree.Sound) {places : List Nat}
    (distinct : places.Nodup) (locked : ∀ place ∈ places, tree.isLocked place) :
    places.length ≤ tree.locked := by
  let all := (List.range tree.leases.length).filter tree.isLocked
  have listed : places.length ≤ all.length := by
    apply distinct.length_le_of_subset
    intro place member
    have held := isLocked_iff.mp (locked place member)
    exact List.mem_filter.mpr
      ⟨List.mem_range.mpr (List.getElem?_eq_some_iff.mp held).1, locked place member⟩
  rw [Counted.places sound.counted, List.countP_eq_length_filter]
  exact listed

/-- A list of all locked places, each once, is as long as the count of the tree. -/
theorem locked_eq_length {tree : LeaseTree} (sound : tree.Sound) (places : List Nat)
    (distinct : places.Nodup) (exact : ∀ place, place ∈ places ↔ tree.isLocked place) :
    tree.locked = places.length := by
  apply Nat.le_antisymm
  · rw [Counted.places sound.counted, List.countP_eq_length_filter]
    apply List.Nodup.length_le_of_subset (List.nodup_range.filter _)
    exact fun place member => (exact place).mpr (List.mem_filter.mp member).2
  · exact length_le_locked sound distinct fun place member => (exact place).mp member

theorem locked_congr {tree other : LeaseTree} (sound : tree.Sound) (sound' : other.Sound)
    (same : ∀ place, other.isLocked place ↔ tree.isLocked place) : other.locked = tree.locked := by
  let places := (List.range tree.leases.length).filter tree.isLocked
  have distinct : places.Nodup := List.nodup_range.filter _
  have exact (place : Nat) : place ∈ places ↔ tree.isLocked place := by
    rw [List.mem_filter, List.mem_range]
    constructor
    · exact And.right
    · intro locked
      exact ⟨(List.getElem?_eq_some_iff.mp (isLocked_iff.mp locked)).1, locked⟩
  calc other.locked = places.length :=
        locked_eq_length sound' places distinct fun place => (exact place).trans (same place).symm
    _ = tree.locked := (locked_eq_length sound places distinct exact).symm

theorem Sound.exists_locked {tree : LeaseTree} (sound : tree.Sound)
    (full : tree.budget ≤ tree.locked) : ∃ place, tree.isLocked place := by
  have some_ : 0 < tree.leases.count true := by
    rw [← sound.counted]
    exact Nat.lt_of_lt_of_le sound.positive full
  obtain ⟨place, found⟩ := List.getElem?_of_mem (List.count_pos_iff.mp some_)
  exact ⟨place, isLocked_iff.mpr found⟩

end LeaseTree
end Foreman
