import Foreman.Proofs.PassLocks

/-! What the calls on a lock table do to one tree. A call gives the tree one more
lease, binds it, locks one of its free leases or unlocks some of them; and a call
that names no lease of the tree leaves it as it is. -/

namespace Foreman

def Lock.placeIn (index : Nat) : Lock → Option Nat
  | .lease own => if own.tree = index then some own.place else none
  | .resource .. => none

namespace LeaseTree

variable {tree later : LeaseTree} {place : Nat} {places : List Nat}

def unlockAll (tree : LeaseTree) (places : List Nat) : LeaseTree := places.foldl unlock tree

/-- What one call can make of a tree. -/
inductive Change (tree : LeaseTree) : LeaseTree → Prop where
  | grow : Change tree tree.addChild
  | bind (gate : Nat) : Change tree (tree.bind gate)
  | lock {place : Nat} (free : tree.leases[place]? = some false)
      (room : tree.locked < tree.budget) : Change tree (tree.lock place)
  | unlock (places : List Nat) : Change tree (tree.unlockAll places)

theorem Change.rest (tree : LeaseTree) : tree.Change tree := .unlock []

/-- What holds of a tree and lasts when a lease of it is unlocked holds when several
are. -/
theorem unlockAll_induction {motive : LeaseTree → Prop} (start : motive tree)
    (lasts : ∀ between place, motive between → motive (between.unlock place)) :
    motive (tree.unlockAll places) := by
  induction places generalizing tree with
  | nil => exact start
  | cons place rest ih => exact ih (lasts tree place start)

theorem unlockAll_counted (counted : tree.Counted) : (tree.unlockAll places).Counted :=
  unlockAll_induction counted fun _ _ => unlock_counted

theorem length_unlockAll : (tree.unlockAll places).leases.length = tree.leases.length :=
  unlockAll_induction (motive := fun later => later.leases.length = tree.leases.length) rfl
    fun between place same => (length_unlock between place).trans same

theorem unlockAll_le : (tree.unlockAll places).locked ≤ tree.locked :=
  unlockAll_induction (motive := fun later => later.locked ≤ tree.locked) (Nat.le_refl _)
    fun between place less => Nat.le_trans (unlock_le between place) less

theorem unlock_peak (tree : LeaseTree) (place : Nat) : (tree.unlock place).peak = tree.peak := by
  unfold unlock
  split <;> rfl

theorem unlock_gate (tree : LeaseTree) (place : Nat) : (tree.unlock place).gate = tree.gate := by
  unfold unlock
  split <;> rfl

theorem unlockAll_peak : (tree.unlockAll places).peak = tree.peak :=
  unlockAll_induction (motive := fun later => later.peak = tree.peak) rfl
    fun between place same => (unlock_peak between place).trans same

theorem unlockAll_gate : (tree.unlockAll places).gate = tree.gate :=
  unlockAll_induction (motive := fun later => later.gate = tree.gate) rfl
    fun between place same => (unlock_gate between place).trans same

end LeaseTree

namespace Locks

variable {locks after : Locks} {lock : Lock} {index : Nat}

theorem modifyTree_tree (locks : Locks) (index other : Nat) (f : LeaseTree → LeaseTree) :
    (locks.modifyTree index f).trees[other]? =
      locks.trees[other]?.map fun tree => if other = index then f tree else tree := by
  simp only [modifyTree, List.getElem?_modify]
  by_cases same : index = other
  · simp [same]
  · simp [same, Ne.symm same]

theorem unlock_tree (locks : Locks) (lock : Lock) (index : Nat) :
    (locks.unlock lock).trees[index]? =
      locks.trees[index]?.map (·.unlockAll (lock.placeIn index).toList) := by
  cases lock with
  | resource scope name =>
    simp only [unlock, Lock.placeIn]
    exact Option.map_id'.symm
  | lease lease =>
    simp only [unlock, modifyTree_tree, Lock.placeIn]
    congr 1
    funext tree
    by_cases same : index = lease.tree
    · simp [same, LeaseTree.unlockAll]
    · simp [same, Ne.symm same, LeaseTree.unlockAll]

theorem unlockAll_tree (locks : Locks) (held : List Lock) (index : Nat) :
    (locks.unlockAll held).trees[index]? =
      locks.trees[index]?.map (·.unlockAll (held.filterMap (Lock.placeIn index))) := by
  induction held generalizing locks with
  | nil => exact Option.map_id'.symm
  | cons lock rest ih =>
    have step : locks.unlockAll (lock :: rest) = (locks.unlock lock).unlockAll rest := rfl
    rw [step, ih, unlock_tree, Option.map_map]
    congr 1
    funext tree
    rw [List.filterMap_cons]
    cases lock.placeIn index <;> rfl

/-- Locking a lease takes a permit of its tree and concerns no other tree. -/
theorem ask_tree (asked : locks.ask lock = .taken after) (index : Nat) :
    (lock.placeIn index = none ∧ after.trees[index]? = locks.trees[index]?) ∨
      ∃ place tree, lock.placeIn index = some place ∧ locks.trees[index]? = some tree ∧
        tree.leases[place]? = some false ∧ tree.locked < tree.budget ∧
        after.trees[index]? = some (tree.lock place) := by
  cases lock with
  | resource scope name =>
    simp only [ask] at asked
    split at asked <;> cases asked
    exact Or.inl ⟨rfl, rfl⟩
  | lease lease =>
    simp only [ask] at asked
    split at asked
    · cases asked
    next tree found =>
      cases outcome : tree.ask lease.place with
      | refused | held =>
        rw [outcome] at asked
        cases asked
      | taken later =>
        rw [outcome] at asked
        cases asked
        obtain ⟨free, room, rfl⟩ := LeaseTree.ask_taken outcome
        have inside := (List.getElem?_eq_some_iff.mp found).1
        simp only [Lock.placeIn, List.getElem?_set]
        by_cases same : lease.tree = index
        · subst same
          exact Or.inr ⟨_, tree, if_pos rfl, found, free, room, by simp [inside]⟩
        · simp [same]

end Locks

namespace Desk

/-- What becomes of the tree of some number in one call. -/
inductive Becomes : Option LeaseTree → Option LeaseTree → Prop where
  | absent : Becomes none none
  | made {name : String} {budget : Int} {tree : LeaseTree}
      (created : LeaseTree.create name budget = .ok tree) : Becomes none (some tree)
  | changed {tree later : LeaseTree} (change : tree.Change later) :
      Becomes (some tree) (some later)

theorem Becomes.rest (tree : Option LeaseTree) : Becomes tree tree := by
  cases tree with
  | none => exact .absent
  | some tree => exact .changed (.rest tree)

private theorem Becomes.map {f : LeaseTree → LeaseTree} (changes : ∀ tree : LeaseTree, tree.Change (f tree))
    (tree : Option LeaseTree) : Becomes tree (tree.map f) := by
  cases tree with
  | none => exact .absent
  | some tree => exact .changed (changes tree)

theorem tryLock_becomes (pass : Pass) (lock : Lock) (index : Nat) :
    Becomes pass.locks.trees[index]? (pass.tryLock lock).2.locks.trees[index]? := by
  have attempt := Pass.tryLock_attempt pass lock
  generalize pass.tryLock lock = result at attempt
  cases attempt with
  | refused | held => exact .rest _
  | taken locks asked =>
    have shown : (Pass.register { pass with locks } lock).locks = locks := rfl
    rw [shown]
    rcases Locks.ask_tree asked index with ⟨_, same⟩ | ⟨place, tree, _, found, free, room, later⟩
    · rw [same]
      exact .rest _
    · rw [found, later]
      exact .changed (.lock free room)

def opened (desk : Desk) (book : Nat) : Pass :=
  { locks := desk.locks, book := desk.books[book]?.getD {} }

/-- The call is about a lease of that tree. -/
def Command.Concerns (desk : Desk) (index : Nat) : Command → Prop
  | .createTree _ _ => index = desk.locks.trees.length
  | .createChild lease | .bind lease _ => lease.tree = index
  | .tryLock lock _ | .unlock lock => (lock.placeIn index).isSome
  | .release book => ∃ lock ∈ (desk.opened book).book.acquired, (lock.placeIn index).isSome
  | .register _ _ | .commit _ | .notify _ => False

theorem perform_becomes (desk : Desk) (command : Command) (index : Nat) :
    Becomes desk.locks.trees[index]? (desk.perform command).2.locks.trees[index]? := by
  cases command with
  | createTree name budget =>
    simp only [perform, Locks.createTree]
    cases made : LeaseTree.create name budget with
    | error fault => exact .rest _
    | ok tree =>
      simp only [bind, Except.bind, pure, Except.pure, List.getElem?_append]
      split
      · exact .rest _
      next outside =>
        rw [List.getElem?_eq_none (Nat.le_of_not_lt outside)]
        cases index - desk.locks.trees.length with
        | zero => exact .made made
        | succ => exact .absent
  | createChild parent =>
    simp only [perform, Locks.createChild, Locks.modifyTree_tree]
    apply Becomes.map
    intro tree
    split
    · exact .grow
    · exact .rest tree
  | bind lease gate =>
    simp only [perform, Locks.bind, Locks.modifyTree_tree]
    apply Becomes.map
    intro tree
    split
    · exact .bind gate
    · exact .rest tree
  | tryLock lock book =>
    exact tryLock_becomes (desk.opened book) lock index
  | unlock lock =>
    simp only [perform, Locks.unlock_tree]
    exact .map (fun _ => .unlock _) _
  | release book =>
    simp only [perform, through, Pass.release, Locks.unlockAll_tree]
    exact .map (fun _ => .unlock _) _
  | register lock book | commit book | notify book => exact .rest _

theorem perform_apart {desk : Desk} {command : Command} {index : Nat}
    (apart : ¬ command.Concerns desk index) :
    (desk.perform command).2.locks.trees[index]? = desk.locks.trees[index]? := by
  cases command with
  | createTree name budget =>
    simp only [perform, Locks.createTree]
    cases made : LeaseTree.create name budget with
    | error fault => rfl
    | ok tree =>
      simp only [bind, Except.bind, pure, Except.pure, List.getElem?_append]
      split
      · rfl
      next outside =>
        simp only [Command.Concerns] at apart
        rw [List.getElem?_eq_none (Nat.le_of_not_lt outside), List.getElem?_eq_none]
        simp only [List.length_singleton]
        omega
  | createChild lease | bind lease gate =>
    have other : ¬ index = lease.tree := fun same => apart same.symm
    simp only [perform, Locks.createChild, Locks.bind, Locks.modifyTree_tree, other, if_false]
    exact Option.map_id'
  | tryLock lock book =>
    have attempt := Pass.tryLock_attempt (desk.opened book) lock
    have shown : (desk.perform (.tryLock lock book)).2.locks =
        ((desk.opened book).tryLock lock).2.locks := rfl
    rw [shown]
    generalize (desk.opened book).tryLock lock = result at attempt
    cases attempt with
    | refused | held => rfl
    | taken locks asked =>
      rcases Locks.ask_tree asked index with ⟨_, same⟩ | ⟨place, _, inside, _⟩
      · exact same
      · exact absurd (by simp [Command.Concerns, inside]) apart
  | unlock lock =>
    have outside : lock.placeIn index = none := by simpa [Command.Concerns] using apart
    simp only [perform, Locks.unlock_tree, outside]
    exact Option.map_id'
  | release book =>
    have outside :
        (desk.opened book).book.acquired.reverse.filterMap (Lock.placeIn index) = [] := by
      rw [List.filterMap_eq_nil_iff]
      intro lock member
      apply Option.not_isSome_iff_eq_none.mp
      exact fun inside => apart ⟨lock, List.mem_reverse.mp member, inside⟩
    have shown : (desk.perform (.release book)).2.locks =
        desk.locks.unlockAll (desk.opened book).book.acquired.reverse := rfl
    rw [shown, Locks.unlockAll_tree, outside]
    exact Option.map_id'
  | register lock book | commit book | notify book => rfl

theorem run_append (start : Desk) (earlier later : List Command) :
    start.run (earlier ++ later) = (start.run earlier).run later := List.foldl_append

/-- A tree stays in the table, and what every change of it keeps holds of it for good. -/
theorem run_keeps {motive : LeaseTree → Prop} {desk : Desk} {index : Nat} {tree : LeaseTree}
    (found : desk.locks.trees[index]? = some tree) (now : motive tree)
    (kept : ∀ before after : LeaseTree, before.Change after → motive before → motive after)
    (commands : List Command) :
    ∃ later, (desk.run commands).locks.trees[index]? = some later ∧ motive later := by
  induction commands generalizing desk tree with
  | nil => exact ⟨tree, found, now⟩
  | cons command rest ih =>
    have turn := desk.perform_becomes command index
    rw [found] at turn
    generalize shown : (desk.perform command).2.locks.trees[index]? = after at turn
    cases turn with
    | changed change => exact ih shown (kept _ _ change now)

end Desk
end Foreman
