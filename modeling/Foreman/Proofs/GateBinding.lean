import Foreman.Executor.Config
import Foreman.Proofs.TreeChanges

/-! One gate for each lease tree. A tree may be bound through any of its leases, by
itself or in the making of an executor, and keeps the gate that it was bound to first.
So all executors whose leases are of one tree have one gate. -/

namespace Foreman

theorem LeaseTree.Change.gate {tree later : LeaseTree} {gate : Nat} (change : tree.Change later)
    (bound : tree.gate = some gate) : later.gate = some gate := by
  cases change with
  | grow | lock => exact bound
  | bind other => simp [LeaseTree.bind, bound]
  | unlock places => rwa [unlockAll_gate]

theorem LeaseTree.bind_bound {tree : LeaseTree} {first : Nat} (bound : tree.gate = some first)
    (gate : Nat) : tree.bind gate = tree := by
  cases tree
  cases bound
  rfl

namespace Locks

variable {locks : Locks} {lease : Lease} {tree : LeaseTree} {gate : Nat}

theorem gate?_eq (found : locks.tree? lease = some tree) : locks.gate? lease = tree.gate := by
  rw [gate?, found, Option.bind_some]

theorem gate?_congr {other : Lease} (same : other.tree = lease.tree) :
    locks.gate? other = locks.gate? lease := by
  rw [gate?, gate?, tree?, tree?, same]

theorem tree?_bind (found : locks.tree? lease = some tree) :
    (locks.bind lease gate).2.tree? lease = some (tree.bind gate) := by
  have there : locks.trees[lease.tree]? = some tree := found
  simp only [bind, tree?, modifyTree_tree, there, Option.map_some, if_true]

/-- A lease can be bound while its tree is bound to no gate, or to this one. -/
theorem bind_iff (has : locks.Has lease) :
    (locks.bind lease gate).1 = true ↔ locks.gate? lease = none ∨ locks.gate? lease = some gate := by
  obtain ⟨tree, found, _⟩ := has
  have answer : (locks.bind lease gate).1 = true ↔
      (locks.bind lease gate).2.gate? lease = some gate := decide_eq_true_iff
  rw [answer, gate?_eq found, gate?_eq (tree?_bind found), LeaseTree.bind]
  cases tree.gate <;> simp

theorem gate?_bind (bound : (locks.bind lease gate).1 = true) :
    (locks.bind lease gate).2.gate? lease = some gate := decide_eq_true_iff.mp bound

theorem bind_failed (failed : (locks.bind lease gate).1 = false) :
    (locks.bind lease gate).2 = locks := by
  have other : (locks.bind lease gate).2.gate? lease ≠ some gate := decide_eq_false_iff_not.mp failed
  have kept (tree : LeaseTree) (found : locks.tree? lease = some tree) : tree.bind gate = tree := by
    rw [gate?_eq (tree?_bind found)] at other
    cases bound : tree.gate with
    | none => simp [LeaseTree.bind, bound] at other
    | some first => exact LeaseTree.bind_bound bound gate
  have trees : (locks.bind lease gate).2.trees = locks.trees := by
    apply List.ext_getElem?
    intro index
    simp only [bind, modifyTree_tree]
    cases found : locks.trees[index]? with
    | none => rfl
    | some tree =>
      rw [Option.map_some]
      split
      next same =>
        subst same
        rw [kept tree found]
      · rfl
  calc (locks.bind lease gate).2 = { locks with trees := (locks.bind lease gate).2.trees } := rfl
    _ = locks := by rw [trees]

end Locks

namespace Executor

variable {config : Config} {processors : Nat} {root : Option Lease} {gate : Option Nat}
  {watches : Bool} {sink : Option Sink} {locks : Locks}

/-- The two ways in which making an executor ends. -/
inductive Making (config : Config) (processors : Nat) (root : Option Lease) (gate : Option Nat)
    (watches : Bool) (sink : Option Sink) (locks : Locks) : Except Refusal Executor × Locks → Prop where
  | refused (refusal : Refusal) (unfit : ¬ (0 ≤ config.maxWorkers ∧ ∃ lease guard,
      root = some lease ∧ gate = some guard ∧ (locks.bind lease guard).1 = true)) :
      Making config processors root gate watches sink locks (.error refusal, locks)
  | made {lease : Lease} {guard : Nat} (allowed : 0 ≤ config.maxWorkers) (rooted : root = some lease)
      (guarded : gate = some guard) (bound : (locks.bind lease guard).1 = true) :
      Making config processors root gate watches sink locks
        (.ok { workers := config.workers processors, root := lease, gate := guard, watches, sink },
          (locks.bind lease guard).2)

theorem create_making (config : Config) (processors : Nat) (root : Option Lease)
    (gate : Option Nat) (watches : Bool) (sink : Option Sink) (locks : Locks) :
    Making config processors root gate watches sink locks
      (create config processors root gate watches sink locks) := by
  unfold create
  split
  next negative => exact .refused _ fun fit => absurd negative (Int.not_lt.mpr fit.1)
  next allowed =>
    split
    · exact .refused _ (by simp)
    · exact .refused _ (by simp)
    next lease guard =>
      split
      next after failed =>
        have same : after = locks := by
          have kept := Locks.bind_failed (congrArg Prod.fst failed)
          rwa [failed] at kept
        subst same
        refine .refused _ ?_
        rintro ⟨_, _, _, ⟨⟩, ⟨⟩, bound⟩
        rw [failed] at bound
        cases bound
      next after bound =>
        have same : after = (locks.bind lease guard).2 := (congrArg Prod.snd bound).symm
        rw [same]
        exact .made (Int.not_lt.mp allowed) rfl rfl (congrArg Prod.fst bound)

theorem Config.workers_pos (config : Config) (processors : Nat) : 1 ≤ config.workers processors := by
  unfold Config.workers
  split
  · omega
  · split <;> omega

/-- A table of locks, and the executors that were made on it. -/
structure Roster where
  desk : Desk := {}
  executors : List Executor := []

namespace Roster

inductive Act where
  | desk (command : Desk.Command)
  | create (config : Config) (processors : Nat) (root : Option Lease) (gate : Option Nat)
      (watches : Bool) (sink : Option Sink)

def perform (roster : Roster) : Act → Roster
  | .desk command => { roster with desk := (roster.desk.perform command).2 }
  | .create config processors root gate watches sink =>
    match create config processors root gate watches sink roster.desk.locks with
    | (.ok executor, locks) =>
      { desk := { roster.desk with locks }, executors := roster.executors ++ [executor] }
    | (.error _, locks) => { roster with desk := { roster.desk with locks } }

def run (roster : Roster) (acts : List Act) : Roster := acts.foldl perform roster

variable {roster : Roster} {act : Act} {acts : List Act} {lease : Lease}

/-- What a roster holds to: its executors have workers, and their trees are bound to
their gates. -/
structure Kept (roster : Roster) : Prop where
  workers : ∀ executor ∈ roster.executors, 1 ≤ executor.workers
  bound : ∀ executor ∈ roster.executors,
    roster.desk.locks.gate? executor.root = some executor.gate

/-- What one act does to the table is what some call on it does, and an executor that
comes with it has its tree bound. -/
theorem perform_desk (roster : Roster) (act : Act) :
    ((roster.perform act).desk = roster.desk ∨
      ∃ command, (roster.perform act).desk.locks = (roster.desk.perform command).2.locks) ∧
    ∀ executor ∈ (roster.perform act).executors, executor ∈ roster.executors ∨
      1 ≤ executor.workers ∧
        (roster.perform act).desk.locks.gate? executor.root = some executor.gate := by
  cases act with
  | desk command => exact ⟨Or.inr ⟨command, rfl⟩, fun _ member => Or.inl member⟩
  | create config processors root gate watches sink =>
    have making := create_making config processors root gate watches sink roster.desk.locks
    simp only [perform]
    generalize create config processors root gate watches sink roster.desk.locks = result at making
    cases making with
    | refused refusal unfit => exact ⟨Or.inl rfl, fun _ member => Or.inl member⟩
    | @made lease guard allowed rooted guarded bound =>
      refine ⟨Or.inr ⟨.bind lease guard, rfl⟩, fun executor member => ?_⟩
      rcases List.mem_append.mp member with member | member
      · exact Or.inl member
      · rw [List.mem_singleton.mp member]
        exact Or.inr ⟨config.workers_pos processors, Locks.gate?_bind bound⟩

/-- A tree that is bound stays bound to its gate. -/
theorem perform_bound {guard : Nat} (bound : roster.desk.locks.gate? lease = some guard)
    (act : Act) : (roster.perform act).desk.locks.gate? lease = some guard := by
  rcases (roster.perform_desk act).1 with same | ⟨command, same⟩
  · rwa [same]
  · obtain ⟨tree, found, there⟩ := Option.bind_eq_some_iff.mp bound
    obtain ⟨later, present, still⟩ := Desk.run_keeps found there
      (fun _ _ change => change.gate) [command]
    rw [same]
    exact Option.bind_eq_some_iff.mpr ⟨later, present, still⟩

theorem run_bound {guard : Nat} (bound : roster.desk.locks.gate? lease = some guard)
    (acts : List Act) : (roster.run acts).desk.locks.gate? lease = some guard := by
  induction acts generalizing roster with
  | nil => exact bound
  | cons act rest ih => exact ih (perform_bound bound act)

theorem Kept.perform (kept : roster.Kept) (act : Act) : (roster.perform act).Kept := by
  constructor
  · intro executor member
    rcases (roster.perform_desk act).2 executor member with earlier | ⟨workers, _⟩
    · exact kept.workers executor earlier
    · exact workers
  · intro executor member
    rcases (roster.perform_desk act).2 executor member with earlier | ⟨_, bound⟩
    · exact perform_bound (kept.bound executor earlier) act
    · exact bound

theorem Kept.run (kept : roster.Kept) (acts : List Act) : (roster.run acts).Kept := by
  induction acts generalizing roster with
  | nil => exact kept
  | cons act rest ih => exact ih (kept.perform act)

/-- Whatever trees, leases and executors are made and whatever is bound, in any order:
once a tree is bound through one of its leases, all its leases have that gate for good.
Binding succeeds just when the tree has no gate yet or this one, and in vain it changes
nothing. An executor is made just when the number of workers is not negative, lease and
gate are given and the tree can be bound to the gate; it gets that lease and gate, and
a refusal changes nothing. So executors of one tree have one gate, and each has a
worker. -/
theorem one_gate_for_each_tree {books : List Book} (ran : run { desk := { books } } acts = roster) :
    (∀ (lease other : Lease) (guard : Nat) (later : List Act),
      roster.desk.locks.gate? lease = some guard → other.tree = lease.tree →
      (roster.run later).desk.locks.gate? other = some guard) ∧
    (∀ (lease : Lease) (guard : Nat), roster.desk.locks.Has lease →
      ((roster.desk.locks.bind lease guard).1 = true ↔
        roster.desk.locks.gate? lease = none ∨ roster.desk.locks.gate? lease = some guard) ∧
      ((roster.desk.locks.bind lease guard).1 = false →
        (roster.desk.locks.bind lease guard).2 = roster.desk.locks)) ∧
    (∀ (config : Config) (processors : Nat) (root : Option Lease) (gate : Option Nat)
      (watches : Bool) (sink : Option Sink) (outcome : Except Refusal Executor) (after : Locks),
      (∀ lease, root = some lease → roster.desk.locks.Has lease) →
      create config processors root gate watches sink roster.desk.locks = (outcome, after) →
      ((∃ executor, outcome = .ok executor) ↔
        0 ≤ config.maxWorkers ∧ ∃ lease guard, root = some lease ∧ gate = some guard ∧
          (roster.desk.locks.gate? lease = none ∨ roster.desk.locks.gate? lease = some guard)) ∧
      (∀ executor, outcome = .ok executor →
        root = some executor.root ∧ gate = some executor.gate ∧
          after.gate? executor.root = some executor.gate) ∧
      (∀ refusal, outcome = .error refusal → after = roster.desk.locks)) ∧
    (∀ one ∈ roster.executors, ∀ other ∈ roster.executors,
      one.root.tree = other.root.tree → one.gate = other.gate) ∧
    ∀ executor ∈ roster.executors, 1 ≤ executor.workers := by
  have kept : roster.Kept := ran ▸ Kept.run ⟨by simp, by simp⟩ acts
  refine ⟨?_, fun lease guard has => ⟨Locks.bind_iff has, Locks.bind_failed⟩, ?_, ?_, kept.workers⟩
  · intro lease other guard later bound same
    exact run_bound ((Locks.gate?_congr same).trans bound) later
  · intro config processors root gate watches sink outcome after has created
    have making := create_making config processors root gate watches sink roster.desk.locks
    rw [created] at making
    cases making with
    | refused refusal unfit =>
      refine ⟨⟨by simp, ?_⟩, by simp, fun _ _ => rfl⟩
      rintro ⟨allowed, lease, guard, rooted, guarded, free⟩
      exact absurd ⟨allowed, lease, guard, rooted, guarded,
        (Locks.bind_iff (has lease rooted)).mpr free⟩ unfit
    | @made lease guard allowed rooted guarded bound =>
      refine ⟨⟨fun _ => ?_, fun _ => ⟨_, rfl⟩⟩, ?_, by simp⟩
      · exact ⟨allowed, lease, guard, rooted, guarded, (Locks.bind_iff (has lease rooted)).mp bound⟩
      · intro executor same
        cases same
        exact ⟨rooted, guarded, Locks.gate?_bind bound⟩
  · intro one member other member' same
    have gate := kept.bound one member
    rw [Locks.gate?_congr same, kept.bound other member'] at gate
    exact (Option.some.inj gate).symm

/-- Two executors of one tree, one by way of the root and one by way of a child. In
between somebody tries to bind the tree to another gate. -/
private def hiring : List Act :=
  [ .desk (.createTree "kitchen" 2), .desk (.createChild ⟨0, 0⟩), .desk (.createTree "garden" 1),
    .create { maxWorkers := 2 } 8 (some ⟨0, 1⟩) (some 5) false none, .desk (.bind ⟨0, 0⟩ 7),
    .create {} 0 (some ⟨0, 0⟩) (some 7) false none, .create {} 0 (some ⟨0, 0⟩) (some 5) false none,
    .create { maxWorkers := -1 } 8 (some ⟨1, 0⟩) (some 7) false none ]

theorem kitchen_has_one_gate : ∃ roster : Roster, run { desk := { books := [] } } hiring = roster ∧
    roster.executors.map (fun executor => (executor.workers, executor.root, executor.gate)) =
      [(2, ⟨0, 1⟩, 5), (4, ⟨0, 0⟩, 5)] ∧
    (∀ one ∈ roster.executors, ∀ other ∈ roster.executors,
      one.root.tree = other.root.tree → one.gate = other.gate) ∧
    (roster.desk.locks.bind ⟨0, 1⟩ 7).1 = false ∧
    (roster.desk.locks.bind ⟨0, 1⟩ 7).2 = roster.desk.locks ∧
    ¬ ∃ executor, (create {} 8 (some ⟨0, 1⟩) (some 7) false none roster.desk.locks).1 =
      .ok executor := by
  obtain ⟨_, binds, creates, agree, _⟩ := one_gate_for_each_tree (rfl :
    run { desk := { books := [] } } hiring = run { desk := { books := [] } } hiring)
  have trees : (run { desk := { books := [] } } hiring).desk.locks.trees =
      [ { name := "kitchen", budget := 2, leases := [false, false], gate := some 5 },
        { name := "garden", budget := 1 } ] := by decide +kernel
  have has : (run { desk := { books := [] } } hiring).desk.locks.Has ⟨0, 1⟩ :=
    ⟨_, by rw [Locks.tree?, trees]; rfl, by decide⟩
  have gate : (run { desk := { books := [] } } hiring).desk.locks.gate? ⟨0, 1⟩ = some 5 := by
    rw [Locks.gate?, Locks.tree?, trees]
    rfl
  have unbindable : ((run { desk := { books := [] } } hiring).desk.locks.bind ⟨0, 1⟩ 7).1 = false := by
    rw [Bool.eq_false_iff, ne_eq, (binds ⟨0, 1⟩ 7 has).1, gate]
    simp
  have accepted := creates {} 8 (some ⟨0, 1⟩) (some 7) false none _ _ (by rintro _ ⟨⟩; exact has)
    (Prod.eta _).symm
  refine ⟨_, rfl, by decide +kernel, agree, unbindable, (binds _ _ has).2 unbindable, ?_⟩
  intro made
  obtain ⟨_, _, _, ⟨⟩, ⟨⟩, free⟩ := accepted.1.mp made
  simp [gate] at free

end Roster
end Executor
end Foreman
