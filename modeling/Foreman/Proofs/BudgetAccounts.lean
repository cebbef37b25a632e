import Foreman.Proofs.TreeChanges

/-! The accounts of lease trees, over any calls on any trees through any books. A tree
counts its locked leases, never more of them than its budget allows, and remembers the
highest count that it ever had. A lease is refused only while the budget is used up,
and no call on one tree shows in the accounts of another. -/

namespace Foreman

namespace LeaseTree

variable {tree later : LeaseTree} {place : Nat}

/-- A call leaves the higher of the old peak and the new count as the peak. -/
theorem Change.peak (change : tree.Change later) (below : tree.locked ≤ tree.peak) :
    later.peak = max tree.peak later.locked := by
  cases change with
  | grow | bind => exact (Nat.max_eq_left below).symm
  | lock => rfl
  | unlock places =>
    rw [unlockAll_peak]
    exact (Nat.max_eq_left (Nat.le_trans unlockAll_le below)).symm

theorem create_counts {name : String} {budget : Int} (created : create name budget = .ok tree) :
    tree.locked = 0 ∧ tree.peak = 0 := by
  simp only [create] at created
  split at created <;> cases created
  exact ⟨rfl, rfl⟩

/-- A lease of the tree is refused when it is unlocked and the budget is used up. -/
theorem ask_refused_iff (inside : place < tree.leases.length) :
    tree.ask place = .refused ↔ ¬ tree.isLocked place ∧ tree.budget ≤ tree.locked := by
  rw [isLocked_iff, List.getElem?_eq_getElem inside, ask, List.getElem?_eq_getElem inside]
  cases tree.leases[place] with
  | true => simp
  | false =>
    simp only [Option.some.injEq, Bool.false_eq_true, not_false_eq_true, true_and]
    split
    next room => simp [room]
    next full => simp [Nat.le_of_not_lt full]

end LeaseTree

theorem Pass.tryLock_answer (pass : Pass) (lock : Lock) :
    (pass.tryLock lock).1 = false ↔ pass.locks.ask lock = .refused := by
  unfold tryLock
  cases pass.locks.ask lock <;> simp

theorem Locks.ask_refused_iff {locks : Locks} {lease : Lease} {tree : LeaseTree}
    (found : locks.tree? lease = some tree) (inside : lease.place < tree.leases.length) :
    locks.ask (.lease lease) = .refused ↔
      ¬ locks.isLocked (.lease lease) ∧ tree.budget ≤ tree.locked := by
  rw [isLocked_tree found, ← LeaseTree.ask_refused_iff inside, ask, found]
  simp only
  cases tree.ask lease.place <;> simp [Grant.map]

namespace Desk

variable {desk start : Desk} {command : Command} {commands earlier : List Command} {index : Nat}

/-- The number is the highest that the tree has counted in the course of the calls. -/
structure Highest (start : Desk) (commands : List Command) (index peak : Nat) : Prop where
  reached : ∃ earlier, earlier <+: commands ∧ ∃ tree,
    (start.run earlier).locks.trees[index]? = some tree ∧ tree.locked = peak
  bound : ∀ earlier, earlier <+: commands → ∀ tree,
    (start.run earlier).locks.trees[index]? = some tree → tree.locked ≤ peak

private def Peaks (start : Desk) (commands : List Command) (index : Nat) : Prop :=
  ∀ tree, (start.run commands).locks.trees[index]? = some tree →
    Highest start commands index tree.peak

private theorem absent_before (absent : (start.run commands).locks.trees[index]? = none)
    (part : earlier <+: commands) : (start.run earlier).locks.trees[index]? = none := by
  obtain ⟨later, rfl⟩ := part
  rw [run_append] at absent
  cases found : (start.run earlier).locks.trees[index]? with
  | none => rfl
  | some tree =>
    obtain ⟨_, present, _⟩ := run_keeps (motive := fun _ => True) found trivial
      (fun _ _ _ _ => trivial) later
    exact absurd (present.symm.trans absent) (by simp)

private theorem Peaks.perform (peaks : Peaks start commands index) (command : Command) :
    Peaks start (commands ++ [command]) index := by
  have after : start.run (commands ++ [command]) = ((start.run commands).perform command).2 :=
    run_append start commands [command]
  have turn := (start.run commands).perform_becomes command index
  intro tree found
  rw [← after, found] at turn
  generalize before : (start.run commands).locks.trees[index]? = old at turn
  -- the counts so far are those before the call and the one after it
  have cases_ {earlier : List Command} (part : earlier <+: commands ++ [command]) :
      earlier = commands ++ [command] ∨ earlier <+: commands := List.prefix_concat_iff.mp part
  cases turn with
  | made created =>
    obtain ⟨empty, level⟩ := LeaseTree.create_counts created
    refine ⟨⟨_, List.prefix_refl _, tree, found, empty.trans level.symm⟩, fun earlier part => ?_⟩
    intro other present
    rcases cases_ part with rfl | part
    · cases Option.some.inj (found.symm.trans present)
      rw [empty]
      exact Nat.zero_le _
    · exact absurd (present.symm.trans (absent_before before part)) (by simp)
  | @changed older _ change =>
    obtain ⟨⟨top, part, highest, there, same⟩, bound⟩ := peaks older before
    have peak := change.peak (bound commands (List.prefix_refl _) older before)
    constructor
    · rcases Nat.le_total tree.locked older.peak with below | above
      · refine ⟨top, part.trans (List.prefix_append _ _), highest, there, ?_⟩
        rw [same, peak, Nat.max_eq_left below]
      · refine ⟨_, List.prefix_refl _, tree, found, ?_⟩
        rw [peak, Nat.max_eq_right above]
    · intro earlier part other present
      rw [peak]
      rcases cases_ part with rfl | part
      · cases Option.some.inj (found.symm.trans present)
        exact Nat.le_max_right _ _
      · exact Nat.le_trans (bound earlier part other present) (Nat.le_max_left _ _)

private theorem Peaks.run (peaks : Peaks start earlier index) (later : List Command) :
    Peaks start (earlier ++ later) index := by
  induction later generalizing earlier with
  | nil => rwa [List.append_nil]
  | cons command rest ih =>
    rw [← List.singleton_append, ← List.append_assoc]
    exact ih (peaks.perform command)

theorem run_highest {books : List Book} {tree : LeaseTree}
    (found : (run { books } commands).locks.trees[index]? = some tree) :
    Highest { books } commands index tree.peak := by
  have none : Peaks { books } [] index := by
    intro tree present
    simp [Desk.run] at present
  exact none.run commands tree found

private theorem books_same (desk : Desk) (book : Nat) :
    desk.books.set book (desk.opened book).book = desk.books := by
  rw [opened]
  cases found : desk.books[book]? with
  | none => exact List.set_eq_of_length_le (List.getElem?_eq_none_iff.mp found)
  | some kept =>
    obtain ⟨inside, rfl⟩ := List.getElem?_eq_some_iff.mp found
    exact List.set_getElem_self inside

theorem perform_tryLock (desk : Desk) (lock : Lock) (book : Nat) :
    desk.perform (.tryLock lock book) =
      (.granted ((desk.opened book).tryLock lock).1,
        { locks := ((desk.opened book).tryLock lock).2.locks
          books := desk.books.set book ((desk.opened book).tryLock lock).2.book }) := rfl

/-- Asking in vain changes nothing. -/
theorem refused_same {lock : Lock} {book : Nat}
    (refused : (desk.perform (.tryLock lock book)).1 = .granted false) :
    (desk.perform (.tryLock lock book)).2 = desk := by
  rw [perform_tryLock] at refused ⊢
  have same : ((desk.opened book).tryLock lock).2 = desk.opened book :=
    (Pass.tryLock_refused (Prod.ext (Reply.granted.inj refused) rfl)).1
  rw [same, books_same]
  rfl

/-- Whatever is called on the trees of a table and through whatever books: each tree
counts its locked leases, of which there are at most as many as its budget allows; what
is taken off the count was counted; and its peak is the highest count that it ever had.
A lease is refused just when it is unlocked and the tree has no permit left, and
refusing changes nothing. A call leaves the trees that it does not concern as they are. -/
theorem budgets_accounted {books : List Book} (ran : run { books } commands = desk) :
    (∀ (index : Nat) (tree : LeaseTree), desk.locks.trees[index]? = some tree →
      tree.locked = tree.leases.count true ∧ tree.locked ≤ tree.budget ∧
      (∀ place, tree.isLocked place → (tree.unlock place).locked + 1 = tree.locked) ∧
      Highest { books } commands index tree.peak) ∧
    (∀ (lease : Lease) (tree : LeaseTree) (book : Nat), desk.locks.tree? lease = some tree →
      lease.place < tree.leases.length →
      ((desk.perform (.tryLock (.lease lease) book)).1 = .granted false ↔
        ¬ desk.locks.isLocked (.lease lease) ∧ tree.locked = tree.budget)) ∧
    (∀ (lock : Lock) (book : Nat), (desk.perform (.tryLock lock book)).1 = .granted false →
      (desk.perform (.tryLock lock book)).2 = desk) ∧
    ∀ (command : Command) (index : Nat), ¬ command.Concerns desk index →
      (desk.perform command).2.locks.trees[index]? = desk.locks.trees[index]? := by
  subst ran
  have sound := run_sound books commands
  refine ⟨?_, ?_, fun _ _ => refused_same, fun _ _ => perform_apart⟩
  · intro index tree found
    obtain ⟨counted, within, _, _⟩ := sound.trees index tree found
    exact ⟨counted, within, fun place locked => LeaseTree.unlock_locked counted locked,
      run_highest found⟩
  · intro lease tree book found inside
    have within := (sound.trees _ tree found).within
    have refused : (((run { books } commands).opened book).tryLock (.lease lease)).1 = false ↔ _ :=
      (Pass.tryLock_answer _ _).trans (Locks.ask_refused_iff found inside)
    rw [perform_tryLock, Reply.granted.injEq, refused, Nat.le_antisymm_iff]
    simp [opened, within]

/-- Two trees whose leases are entered in two books. The day's last lease is entered
once more in the first book, so that giving back what that book lists frees all leases
of both trees. Then the day lends out all it has again. -/
private def shifts : List Command :=
  [ .createTree "day" 2, .createChild ⟨0, 0⟩, .createChild ⟨0, 1⟩, .createTree "night" 1,
    .createChild ⟨1, 0⟩, .tryLock (.lease ⟨0, 1⟩) 0, .tryLock (.lease ⟨0, 2⟩) 1,
    .tryLock (.lease ⟨1, 1⟩) 0, .register (.lease ⟨0, 2⟩) 0, .release 0, .unlock (.lease ⟨0, 2⟩),
    .tryLock (.lease ⟨0, 0⟩) 0, .tryLock (.lease ⟨0, 1⟩) 1, .tryLock (.lease ⟨0, 1⟩) 0 ]

theorem shifts_accounted : ∃ desk : Desk, run { books := [{}, {}] } shifts = desk ∧
    (∃ day night, desk.locks.trees = [day, night] ∧
      day.locked = 2 ∧ day.leases.count true = 2 ∧ night.locked = 0 ∧
      Highest { books := [{}, {}] } shifts 1 1) ∧
    (desk.perform (.tryLock (.lease ⟨0, 2⟩) 1)).1 = .granted false ∧
    (desk.perform (.tryLock (.lease ⟨0, 2⟩) 1)).2 = desk ∧
    (desk.perform (.release 1)).2.locks.trees[1]? = desk.locks.trees[1]? := by
  obtain ⟨accounts, refusals, idle, apart⟩ := budgets_accounted (rfl :
    run { books := [{}, {}] } shifts = run { books := [{}, {}] } shifts)
  have trees : (run { books := [{}, {}] } shifts).locks.trees =
      [ { name := "day", budget := 2, leases := [true, true, false], locked := 2, peak := 2 },
        { name := "night", budget := 1, leases := [false, false], peak := 1 } ] := by decide +kernel
  have refused := (refusals ⟨0, 2⟩ _ 1 (by rw [Locks.tree?, trees]; rfl) (by decide)).mpr
    ⟨by decide +kernel, rfl⟩
  refine ⟨_, rfl, ⟨_, _, trees, rfl, rfl, rfl, ?_⟩, refused, idle _ _ refused, ?_⟩
  · exact (accounts 1 _ (by rw [trees]; rfl)).2.2.2
  · apply apart
    rintro ⟨lock, member, inside⟩
    have only : ((run { books := [{}, {}] } shifts).opened 1).book.acquired =
        [.lease ⟨0, 2⟩, .lease ⟨0, 1⟩] := by decide +kernel
    rw [only] at member
    simp only [List.mem_cons, List.not_mem_nil, or_false] at member
    rcases member with rfl | rfl <;> cases inside

end Desk
end Foreman
