import Foreman.Locks
import Foreman.Proofs.LeaseBudget

/-! What the operations on a lock table do to the locks. Each of them changes
the state of the locks that it names and of no other, and keeps every tree
within its budget. -/

namespace Foreman.Locks

structure Sound (locks : Locks) : Prop where
  trees : ∀ (index : Nat) (tree : LeaseTree), locks.trees[index]? = some tree → tree.Sound

def Has (locks : Locks) (lease : Lease) : Prop :=
  ∃ tree, locks.tree? lease = some tree ∧ lease.place < tree.leases.length

/-- Later tables have the trees and leases of earlier ones. -/
structure Grows (before after : Locks) : Prop where
  trees : ∀ (index : Nat) (tree : LeaseTree), before.trees[index]? = some tree →
    ∃ later, after.trees[index]? = some later ∧ later.budget = tree.budget ∧
      tree.leases.length ≤ later.leases.length

theorem Grows.refl (locks : Locks) : locks.Grows locks :=
  ⟨fun _ tree found => ⟨tree, found, rfl, Nat.le_refl _⟩⟩

theorem Grows.trans {first middle last : Locks} (left : first.Grows middle)
    (right : middle.Grows last) : first.Grows last := by
  refine ⟨fun index tree found => ?_⟩
  obtain ⟨between, found, budget, longer⟩ := left.trees index tree found
  obtain ⟨later, found, again, more⟩ := right.trees index between found
  exact ⟨later, found, again.trans budget, Nat.le_trans longer more⟩

theorem Has.grow {before after : Locks} {lease : Lease} (has : before.Has lease)
    (growth : before.Grows after) : after.Has lease := by
  obtain ⟨tree, found, inside⟩ := has
  obtain ⟨later, found, _, longer⟩ := growth.trees _ _ found
  exact ⟨later, found, Nat.lt_of_lt_of_le inside longer⟩

theorem isLocked_lease {locks : Locks} {lease : Lease} :
    locks.isLocked (.lease lease) ↔
      ∃ tree, locks.tree? lease = some tree ∧ tree.isLocked lease.place := by
  simp [isLocked, Option.any_eq_true]

theorem isLocked_resource {locks : Locks} {scope : Nat} {name : String} :
    locks.isLocked (.resource scope name) ↔ (scope, name) ∈ locks.resources := by
  simp [isLocked]

theorem isLocked_tree {locks : Locks} {lease : Lease} {tree : LeaseTree}
    (found : locks.tree? lease = some tree) :
    locks.isLocked (.lease lease) ↔ tree.isLocked lease.place := by
  rw [isLocked_lease]
  constructor
  · intro locked
    obtain ⟨other, again, locked⟩ := locked
    cases Option.some.inj (found.symm.trans again)
    exact locked
  · exact fun locked => ⟨tree, found, locked⟩

theorem Has.of_locked {locks : Locks} {lease : Lease}
    (locked : locks.isLocked (.lease lease)) : locks.Has lease := by
  obtain ⟨tree, found, locked⟩ := isLocked_lease.mp locked
  exact ⟨tree, found, (List.getElem?_eq_some_iff.mp (LeaseTree.isLocked_iff.mp locked)).1⟩

private def replace (locks : Locks) (index : Nat) (tree : LeaseTree) : Locks :=
  { locks with trees := locks.trees.set index tree }

section
variable {locks : Locks} {index : Nat} {tree changed : LeaseTree}

private theorem replace_found (found : locks.trees[index]? = some tree) (other : Nat) :
    (locks.replace index changed).trees[other]? =
      if other = index then some changed else locks.trees[other]? := by
  have inside := (List.getElem?_eq_some_iff.mp found).1
  simp only [replace, List.getElem?_set]
  by_cases same : index = other
  · simp [same, same ▸ inside]
  · simp [same, Ne.symm same]

private theorem replace_sound (sound : locks.Sound) (found : locks.trees[index]? = some tree)
    (kept : changed.Sound) : (locks.replace index changed).Sound := by
  refine ⟨fun other value member => ?_⟩
  rw [replace_found found] at member
  split at member
  · cases member
    exact kept
  · exact sound.trees other value member

private theorem replace_grows (found : locks.trees[index]? = some tree)
    (budget : changed.budget = tree.budget) (longer : tree.leases.length ≤ changed.leases.length) :
    locks.Grows (locks.replace index changed) := by
  refine ⟨fun other value member => ?_⟩
  rw [replace_found found]
  split
  next same =>
    subst same
    cases Option.some.inj (found.symm.trans member)
    exact ⟨changed, rfl, budget, longer⟩
  · exact ⟨value, member, rfl, Nat.le_refl _⟩

private theorem replace_isLocked (found : locks.trees[index]? = some tree) (lease : Lease) :
    (locks.replace index changed).isLocked (.lease lease) ↔
      if lease.tree = index then changed.isLocked lease.place else locks.isLocked (.lease lease) := by
  split
  next same => exact isLocked_tree ((replace_found found _).trans (if_pos same))
  next other =>
    rw [isLocked_lease, isLocked_lease]
    simp only [tree?, replace_found found, if_neg other]

end

private theorem modifyTree_eq {locks : Locks} {index : Nat} {tree : LeaseTree}
    (found : locks.trees[index]? = some tree) (f : LeaseTree → LeaseTree) :
    locks.modifyTree index f = locks.replace index (f tree) := by
  simp only [modifyTree, replace, mk.injEq, and_true]
  apply List.ext_getElem?
  intro other
  have inside := (List.getElem?_eq_some_iff.mp found).1
  rw [List.getElem?_modify, List.getElem?_set]
  by_cases same : index = other
  · subst same
    rw [found, if_pos rfl, if_pos inside]
    simp
  · simp [same]

private theorem modifyTree_absent {locks : Locks} {index : Nat} (absent : locks.trees[index]? = none)
    (f : LeaseTree → LeaseTree) : locks.modifyTree index f = locks := by
  rw [modifyTree, List.modify_eq_self (List.getElem?_eq_none_iff.mp absent)]

/-! Asking for a lock. -/

section
variable {locks after : Locks} {lock : Lock}

private theorem ask_lease {lease : Lease} (asked : locks.ask (.lease lease) = .taken after) :
    ∃ tree, locks.tree? lease = some tree ∧ tree.leases[lease.place]? = some false ∧
      tree.locked < tree.budget ∧ after = locks.replace lease.tree (tree.lock lease.place) := by
  simp only [ask] at asked
  split at asked
  · cases asked
  next tree found =>
    cases outcome : tree.ask lease.place with
    | refused | held =>
      rw [outcome] at asked
      cases asked
    | taken later =>
      rw [outcome] at asked
      cases asked
      obtain ⟨free, room, rfl⟩ := LeaseTree.ask_taken outcome
      exact ⟨tree, found, free, room, rfl⟩

private theorem ask_resource {scope : Nat} {name : String}
    (asked : locks.ask (.resource scope name) = .taken after) :
    (scope, name) ∉ locks.resources ∧
      after = { locks with resources := (scope, name) :: locks.resources } := by
  simp only [ask] at asked
  split at asked
  · cases asked
  next free =>
    cases asked
    exact ⟨free, rfl⟩

theorem ask_taken_free (asked : locks.ask lock = .taken after) : ¬ locks.isLocked lock := by
  cases lock with
  | lease lease =>
    obtain ⟨tree, found, free, _⟩ := ask_lease asked
    rw [isLocked_tree found, LeaseTree.isLocked_iff, free]
    simp
  | resource scope name =>
    rw [isLocked_resource]
    exact (ask_resource asked).1

theorem isLocked_ask (asked : locks.ask lock = .taken after) (other : Lock) :
    after.isLocked other ↔ other = lock ∨ locks.isLocked other := by
  cases lock with
  | lease lease =>
    obtain ⟨tree, found, free, _, rfl⟩ := ask_lease asked
    cases other with
    | resource scope name => simp [isLocked_resource, replace]
    | lease other =>
      rw [replace_isLocked found]
      split
      next same =>
        have found' : locks.tree? other = some tree := by rw [tree?, same]; exact found
        rw [LeaseTree.isLocked_lock free, isLocked_tree found', Lock.lease.injEq]
        cases other
        cases lease
        simp_all
      next differs =>
        have : other ≠ lease := fun same => differs (congrArg Lease.tree same)
        simp [this]
  | resource scope name =>
    obtain ⟨_, rfl⟩ := ask_resource asked
    cases other with
    | lease other => simp [isLocked_lease, tree?]
    | resource other title => simp [isLocked_resource]

theorem ask_held (asked : locks.ask lock = .held) : locks.isLocked lock := by
  cases lock with
  | lease lease =>
    simp only [ask] at asked
    split at asked
    · cases asked
    next tree found =>
      cases outcome : tree.ask lease.place with
      | refused | taken _ =>
        rw [outcome] at asked
        cases asked
      | held => exact (isLocked_tree found).mpr (LeaseTree.ask_held outcome)
  | resource scope name =>
    simp only [ask] at asked
    split at asked <;> cases asked

/-- A lease is refused only when the budget of its tree is used up. -/
theorem ask_lease_refused {lease : Lease} {tree : LeaseTree} (found : locks.tree? lease = some tree)
    (inside : lease.place < tree.leases.length) (asked : locks.ask (.lease lease) = .refused) :
    tree.budget ≤ tree.locked := by
  simp only [ask, found] at asked
  cases outcome : tree.ask lease.place with
  | held | taken _ =>
    rw [outcome] at asked
    cases asked
  | refused => exact LeaseTree.ask_refused inside outcome

/-- A lease is refused only while some lease of its tree is locked. -/
theorem Has.rival {locks : Locks} {lease : Lease} (sound : locks.Sound) (has : locks.Has lease)
    (asked : locks.ask (.lease lease) = .refused) :
    ∃ other : Lease, other.tree = lease.tree ∧ locks.isLocked (.lease other) := by
  obtain ⟨tree, found, inside⟩ := has
  obtain ⟨place, locked⟩ := (sound.trees _ tree found).exists_locked (ask_lease_refused found inside asked)
  exact ⟨⟨lease.tree, place⟩, rfl, isLocked_lease.mpr ⟨tree, found, locked⟩⟩

theorem ask_resource_refused {scope : Nat} {name : String}
    (asked : locks.ask (.resource scope name) = .refused) :
    locks.isLocked (.resource scope name) := by
  simp only [ask] at asked
  split at asked
  next held => exact isLocked_resource.mpr held
  · cases asked

theorem ask_sound (sound : locks.Sound) (asked : locks.ask lock = .taken after) : after.Sound := by
  cases lock with
  | lease lease =>
    obtain ⟨tree, found, free, room, rfl⟩ := ask_lease asked
    exact replace_sound sound found (LeaseTree.lock_sound (sound.trees _ _ found) free room)
  | resource scope name =>
    obtain ⟨_, rfl⟩ := ask_resource asked
    exact ⟨sound.trees⟩

theorem ask_grows (asked : locks.ask lock = .taken after) : locks.Grows after := by
  cases lock with
  | lease lease =>
    obtain ⟨tree, found, _, _, rfl⟩ := ask_lease asked
    exact replace_grows found rfl (by simp [LeaseTree.lock])
  | resource scope name =>
    obtain ⟨_, rfl⟩ := ask_resource asked
    exact ⟨(Grows.refl locks).trees⟩

end

/-! Giving locks back. -/

section
variable {locks : Locks}

theorem isLocked_unlock {lock other : Lock} :
    (locks.unlock lock).isLocked other ↔ other ≠ lock ∧ locks.isLocked other := by
  cases lock with
  | resource scope name =>
    cases other with
    | lease other => simp [unlock, isLocked_lease, tree?]
    | resource other title =>
      simp only [unlock, isLocked_resource, List.mem_filter, decide_eq_true_eq, ne_eq,
        Lock.resource.injEq, Prod.mk.injEq]
      exact And.comm
  | lease lease =>
    cases other with
    | resource scope name => simp [unlock, modifyTree, isLocked_resource]
    | lease other =>
      simp only [unlock]
      cases found : locks.trees[lease.tree]? with
      | none =>
        rw [modifyTree_absent found]
        constructor
        · intro locked
          refine ⟨?_, locked⟩
          intro same
          cases same
          obtain ⟨tree, present, _⟩ := isLocked_lease.mp locked
          exact absurd (present.symm.trans found) (by simp)
        · exact And.right
      | some tree =>
        rw [modifyTree_eq found, replace_isLocked found]
        split
        next same =>
          have found' : locks.tree? other = some tree := by rw [tree?, same]; exact found
          rw [LeaseTree.isLocked_unlock, isLocked_tree found', ne_eq, ne_eq, Lock.lease.injEq]
          cases other
          cases lease
          simp_all
        next differs =>
          have : other ≠ lease := fun same => differs (congrArg Lease.tree same)
          simp [this]

theorem unlock_sound (sound : locks.Sound) (lock : Lock) : (locks.unlock lock).Sound := by
  cases lock with
  | resource scope name => exact ⟨sound.trees⟩
  | lease lease =>
    simp only [unlock]
    cases found : locks.trees[lease.tree]? with
    | none => rwa [modifyTree_absent found]
    | some tree =>
      rw [modifyTree_eq found]
      exact replace_sound sound found (LeaseTree.unlock_sound (sound.trees _ _ found))

theorem unlock_grows (lock : Lock) : locks.Grows (locks.unlock lock) := by
  cases lock with
  | resource scope name => exact ⟨(Grows.refl locks).trees⟩
  | lease lease =>
    simp only [unlock]
    cases found : locks.trees[lease.tree]? with
    | none =>
      rw [modifyTree_absent found]
      exact .refl locks
    | some tree =>
      rw [modifyTree_eq found]
      exact replace_grows found (by simp) (by simp)

theorem isLocked_unlockAll {held : List Lock} {other : Lock} :
    (locks.unlockAll held).isLocked other ↔ other ∉ held ∧ locks.isLocked other := by
  induction held generalizing locks with
  | nil => simp [unlockAll]
  | cons lock rest ih =>
    have step : locks.unlockAll (lock :: rest) = (locks.unlock lock).unlockAll rest := rfl
    rw [step, ih, isLocked_unlock, List.mem_cons, not_or, ← and_assoc, and_comm (a := other ∉ rest)]

theorem unlockAll_sound (sound : locks.Sound) (held : List Lock) : (locks.unlockAll held).Sound := by
  induction held generalizing locks with
  | nil => exact sound
  | cons lock rest ih => exact ih (unlock_sound sound lock)

theorem unlockAll_grows (held : List Lock) : locks.Grows (locks.unlockAll held) := by
  induction held generalizing locks with
  | nil => exact .refl locks
  | cons lock rest ih => exact (unlock_grows lock).trans ih

end

/-! Creating leases. -/

section
variable {locks : Locks} {parent : Lease} {tree : LeaseTree}

theorem createChild_lease (found : locks.tree? parent = some tree) :
    (locks.createChild parent).1 = ⟨parent.tree, tree.leases.length⟩ := by
  simp [createChild, found]

private theorem createChild_table (found : locks.tree? parent = some tree) :
    (locks.createChild parent).2 = locks.replace parent.tree tree.addChild := by
  rw [createChild, modifyTree_eq found]

theorem createChild_fresh (found : locks.tree? parent = some tree) :
    ¬ locks.Has (locks.createChild parent).1 := by
  rw [createChild_lease found]
  intro known
  obtain ⟨other, again, inside⟩ := known
  cases Option.some.inj (found.symm.trans again)
  exact Nat.lt_irrefl _ inside

theorem createChild_has (found : locks.tree? parent = some tree) :
    (locks.createChild parent).2.Has (locks.createChild parent).1 := by
  rw [createChild_lease found, createChild_table found]
  refine ⟨tree.addChild, ?_, by simp [LeaseTree.addChild]⟩
  exact (replace_found found _).trans (if_pos rfl)

theorem createChild_place (sound : locks.Sound) (found : locks.tree? parent = some tree) :
    (locks.createChild parent).1.place ≠ 0 := by
  rw [createChild_lease found]
  exact Nat.ne_of_gt (sound.trees _ _ found).rooted

theorem createChild_grows (locks : Locks) (parent : Lease) :
    locks.Grows (locks.createChild parent).2 := by
  cases found : locks.trees[parent.tree]? with
  | none =>
    rw [createChild, modifyTree_absent found]
    exact .refl locks
  | some tree =>
    rw [createChild_table found]
    exact replace_grows found rfl (by simp [LeaseTree.addChild])

theorem isLocked_createChild (found : locks.tree? parent = some tree) (lock : Lock) :
    (locks.createChild parent).2.isLocked lock ↔ locks.isLocked lock := by
  rw [createChild_table found]
  cases lock with
  | resource scope name => simp [isLocked_resource, replace]
  | lease lease =>
    rw [replace_isLocked found]
    split
    next same =>
      have found' : locks.tree? lease = some tree := by rw [tree?, same]; exact found
      rw [LeaseTree.isLocked_addChild, isLocked_tree found']
    · rfl

end

/-! Making and binding trees. -/

theorem modifyTree_sound {locks : Locks} (sound : locks.Sound) (index : Nat)
    {f : LeaseTree → LeaseTree} (kept : ∀ tree : LeaseTree, tree.Sound → (f tree).Sound) :
    (locks.modifyTree index f).Sound := by
  cases found : locks.trees[index]? with
  | none => rwa [modifyTree_absent found]
  | some tree =>
    rw [modifyTree_eq found]
    exact replace_sound sound found (kept tree (sound.trees _ _ found))

theorem createChild_sound {locks : Locks} (sound : locks.Sound) (parent : Lease) :
    (locks.createChild parent).2.Sound :=
  modifyTree_sound sound parent.tree fun _ kept => LeaseTree.addChild_sound kept

theorem bind_sound {locks : Locks} (sound : locks.Sound) (lease : Lease) (gate : Nat) :
    (locks.bind lease gate).2.Sound :=
  modifyTree_sound sound lease.tree fun _ kept => ⟨kept.counted, kept.within, kept.positive, kept.rooted⟩

theorem createTree_sound {locks after : Locks} {name : String} {budget : Int} {root : Lease}
    (sound : locks.Sound) (created : locks.createTree name budget = .ok (root, after)) :
    after.Sound := by
  simp only [createTree] at created
  cases made : LeaseTree.create name budget with
  | error fault =>
    rw [made] at created
    cases created
  | ok tree =>
    rw [made] at created
    cases created
    refine ⟨fun index found present => ?_⟩
    simp only [List.getElem?_append] at present
    split at present
    · exact sound.trees index found present
    · have last := List.mem_of_getElem? present
      rw [List.mem_singleton.mp last]
      exact LeaseTree.create_sound made

end Foreman.Locks
