import Foreman.Gate.Script
import Foreman.Proofs.GateProtocol
import Foreman.Proofs.TreeChanges

/-! Undoing a pass under the gate. Whatever a pass locks and unlocks, in whatever order
and however often: when it has to be undone, exactly those locks are locked that were
so before and that the pass never gave back. -/

namespace Foreman

/-- The lock is locked, and not by this pass. -/
def Pass.Held (pass : Pass) (lock : Lock) : Prop :=
  pass.locks.isLocked lock ∧ lock ∉ pass.book.acquired

theorem Pass.held_release {pass : Pass} {lock : Lock} :
    pass.release.locks.isLocked lock ↔ pass.Held lock := by
  rw [isLocked_release, Held, and_comm]

namespace Locks

/-- The trees of the later table are those of the earlier one with as many leases each,
and they go on to count the locked ones. -/
def Recounts (before after : Locks) : Prop :=
  ∀ (index : Nat) (tree : LeaseTree), before.trees[index]? = some tree →
    ∃ later, after.trees[index]? = some later ∧ later.leases.length = tree.leases.length ∧
      (tree.Counted → later.Counted)

theorem Recounts.refl (locks : Locks) : locks.Recounts locks :=
  fun _ tree found => ⟨tree, found, rfl, id⟩

theorem Recounts.trans {first middle last : Locks} (left : first.Recounts middle)
    (right : middle.Recounts last) : first.Recounts last := by
  intro index tree found
  obtain ⟨between, found, length, counts⟩ := left index tree found
  obtain ⟨later, found, again, recounts⟩ := right index between found
  exact ⟨later, found, again.trans length, recounts ∘ counts⟩

theorem Recounts.unlockAll (locks : Locks) (held : List Lock) :
    locks.Recounts (locks.unlockAll held) := by
  intro index tree found
  have later := unlockAll_tree locks held index
  rw [found, Option.map_some] at later
  exact ⟨_, later, LeaseTree.length_unlockAll, LeaseTree.unlockAll_counted⟩

theorem Recounts.ask {locks after : Locks} {lock : Lock} (asked : locks.ask lock = .taken after) :
    locks.Recounts after := by
  intro index tree found
  rcases ask_tree asked index with ⟨_, same⟩ | ⟨place, other, _, there, free, _, later⟩
  · exact ⟨tree, same.trans found, rfl, id⟩
  · cases Option.some.inj (found.symm.trans there)
    exact ⟨_, later, by simp [LeaseTree.lock], fun counted => LeaseTree.lock_counted counted free⟩

end Locks

namespace Gate

variable {pass : Pass} {lock : Lock} {commands : List Command}

def Command.givesBack (pass : Pass) (lock : Lock) : Command → Bool
  | .unlock other => other = lock
  | .release => lock ∈ pass.book.acquired
  | .tryLock _ | .notify => false

def givesBack (pass : Pass) (lock : Lock) : List Command → Bool
  | [] => false
  | command :: rest => command.givesBack pass lock || givesBack (command.perform pass).2 lock rest

/-- The lock is locked before the commands, and none of them gives it back. -/
def spares (locks : Locks) (commands : List Command) (lock : Lock) : Bool :=
  locks.isLocked lock && !givesBack { locks } lock commands

theorem perform_append (pass : Pass) (earlier later : List Command) :
    (perform pass (earlier ++ later)).2 = (perform (perform pass earlier).2 later).2 := by
  induction earlier generalizing pass with
  | nil => rfl
  | cons command rest ih => exact ih (command.perform pass).2

/-- A command takes away what it gives back from the locks that the pass holds from
before, and adds none to them: what it locks, it enters in the book. -/
theorem Command.held_perform (command : Command) :
    (command.perform pass).2.Held lock ↔
      pass.Held lock ∧ command.givesBack pass lock = false := by
  cases command with
  | notify => simp [perform, givesBack, Pass.notify, Pass.Held]
  | unlock other =>
    simp only [perform, givesBack, Pass.unlock, Pass.Held, Locks.isLocked_unlock,
      decide_eq_false_iff_not, ne_eq]
    constructor
    · exact fun ⟨⟨apart, locked⟩, own⟩ => ⟨⟨locked, own⟩, Ne.symm apart⟩
    · exact fun ⟨⟨locked, own⟩, apart⟩ => ⟨⟨Ne.symm apart, locked⟩, own⟩
  | release =>
    have emptied : pass.release.book.acquired = [] := rfl
    simp only [perform, givesBack, decide_eq_false_iff_not]
    rw [Pass.Held, Pass.held_release, emptied]
    constructor
    · exact fun ⟨held, _⟩ => ⟨held, held.2⟩
    · exact fun ⟨held, _⟩ => ⟨held, List.not_mem_nil⟩
  | tryLock other =>
    simp only [perform, givesBack, and_true]
    have attempt := Pass.tryLock_attempt pass other
    generalize pass.tryLock other = result at attempt
    cases attempt with
    | refused | held => rfl
    | taken locks asked =>
      have free := Locks.ask_taken_free asked
      simp only [Pass.Held, Pass.register, Locks.isLocked_ask asked, List.mem_append,
        List.mem_singleton, not_or]
      constructor
      · exact fun ⟨locked, own, apart⟩ => ⟨locked.resolve_left apart, own⟩
      · intro held
        refine ⟨Or.inr held.1, held.2, ?_⟩
        rintro rfl
        exact free held.1

theorem held_perform :
    (perform pass commands).2.Held lock ↔
      pass.Held lock ∧ givesBack pass lock commands = false := by
  induction commands generalizing pass with
  | nil => simp [perform, givesBack]
  | cons command rest ih =>
    have step : (perform pass (command :: rest)).2 = (perform (command.perform pass).2 rest).2 := rfl
    rw [step, ih, command.held_perform, givesBack, Bool.or_eq_false_iff, and_assoc]

/-- With a book that was empty at the start, what the pass holds from before it is what
it spares. -/
theorem held_spares {locks : Locks} :
    (perform { locks } commands).2.Held lock ↔ spares locks commands lock := by
  rw [held_perform, spares, Bool.and_eq_true, Bool.not_eq_true', Pass.Held]
  simp

theorem Command.recounts (command : Command) :
    pass.locks.Recounts (command.perform pass).2.locks := by
  cases command with
  | notify => exact .refl _
  | unlock other => exact .unlockAll _ [other]
  | release => exact .unlockAll _ _
  | tryLock other =>
    simp only [perform]
    have attempt := Pass.tryLock_attempt pass other
    generalize pass.tryLock other = result at attempt
    cases attempt with
    | refused | held => exact .refl _
    | taken locks asked => exact .ask asked

theorem perform_recounts (pass : Pass) (commands : List Command) :
    pass.locks.Recounts (perform pass commands).2.locks := by
  induction commands generalizing pass with
  | nil => exact .refl _
  | cons command rest ih => exact command.recounts.trans (ih (command.perform pass).2)

/-- The later table is the earlier one as a pass leaves it that is undone after these
commands: exactly the locks that the commands spare are locked, each tree counts its
leases among them, and whatever the commands locked is unlocked. -/
structure Undoes (before : Locks) (commands : List Command) (after : Locks) : Prop where
  locked : ∀ lock, after.isLocked lock ↔ spares before commands lock
  counted : ∀ (index : Nat) (tree : LeaseTree), before.trees[index]? = some tree →
    ∃ later, after.trees[index]? = some later ∧ later.leases.length = tree.leases.length ∧
      later.locked = (List.range tree.leases.length).countP fun place =>
        spares before commands (.lease ⟨index, place⟩)
  taken : ∀ earlier lock rest locks, commands = earlier ++ .tryLock lock :: rest →
    (perform { locks := before } earlier).2.locks.ask lock = .taken locks → ¬ after.isLocked lock

theorem release_undoes {locks : Locks}
    (counted : ∀ (index : Nat) (tree : LeaseTree), locks.trees[index]? = some tree → tree.Counted)
    (commands : List Command) :
    Undoes locks commands (perform { locks } commands).2.release.locks := by
  have locked (lock : Lock) : (perform { locks } commands).2.release.locks.isLocked lock ↔
      spares locks commands lock := Pass.held_release.trans held_spares
  refine ⟨locked, ?_, ?_⟩
  · intro index tree found
    have recounts : locks.Recounts (perform { locks } commands).2.release.locks :=
      (perform_recounts { locks } commands).trans (.unlockAll _ _)
    obtain ⟨later, present, length, counts⟩ := recounts index tree found
    refine ⟨later, present, length, ?_⟩
    rw [(counts (counted index tree found)).places, length]
    apply List.countP_congr
    intro place _
    have there : (perform { locks } commands).2.release.locks.tree? ⟨index, place⟩ = some later :=
      present
    rw [← locked, Locks.isLocked_tree there]
  · rintro earlier lock rest between rfl asked still
    have held := Pass.held_release.mp still
    rw [perform_append, held_perform] at held
    exact Locks.ask_taken_free asked held.1.1

namespace Machine

variable {ρ : Type} {machine after : Machine ρ} {index : Nat} {thread : Thread ρ}

theorem step_leave (present : machine.threads[index]? = some thread)
    (left : machine.step index .leave = some after) : after = machine.leave index thread := by
  simp only [step, present] at left
  cases place : thread.place with
  | inside =>
    rw [place] at left
    exact (Option.some.inj left).symm
  | entering | asleep | awake | signalling | announcing | gone =>
    rw [place] at left
    cases left

/-- A thread that leaves hands the table on as its pass is settled. -/
theorem leave_locks (machine : Machine ρ) (index : Nat) (thread : Thread ρ) :
    (machine.leave index thread).locks =
      settle (machine.turn thread).ending (machine.turn thread).pass := by
  have told : (machine.told (machine.turn thread)).locks =
      settle (machine.turn thread).ending (machine.turn thread).pass := by
    unfold Machine.told
    split <;> rfl
  rw [← told]
  unfold leave
  simp only
  split <;> rfl

/-- Whatever locks and trees there are at a gate, if each tree counts its locked leases,
and whatever commands the pass of a thread inside comes to: a pass that wants to run
again or raises a fault is undone, and one that finishes leaves the locks as they are. -/
theorem pass_undone {commands : List Command}
    (counted : ∀ (index : Nat) (tree : LeaseTree), machine.locks.trees[index]? = some tree →
      tree.Counted)
    (present : machine.threads[index]? = some thread)
    (performs : (machine.turn thread).pass = (perform { locks := machine.locks } commands).2)
    (left : machine.step index .leave = some after) :
    match (machine.turn thread).ending with
    | .finished _ => after.locks = (perform { locks := machine.locks } commands).2.locks
    | .retry | .thrown _ => Undoes machine.locks commands after.locks := by
  have settled := leave_locks machine index thread
  rw [← step_leave present left, performs] at settled
  rw [settled]
  cases (machine.turn thread).ending with
  | finished value => rfl
  | retry | thrown fault => exact release_undoes counted commands

private def bakery : Locks :=
  { trees := [{ name := "staff", budget := 2, leases := [false, true, false], locked := 1, peak := 1 }]
    resources := [(0, "oven")] }

/-- Sends the worker who is at work home, calls both in, sends them home again, and
calls one of them in once more. -/
private def rush : List Command :=
  [ .tryLock (.resource 0 "oven"), .unlock (.lease ⟨0, 1⟩), .tryLock (.lease ⟨0, 2⟩),
    .tryLock (.lease ⟨0, 1⟩), .release, .tryLock (.lease ⟨0, 2⟩), .tryLock (.resource 0 "tray") ]

private def baker : Thread Records :=
  { place := .inside, transform := scripted 0 [{ commands := rush, ending := .retry }] }

private def counter : Machine Records :=
  { locks := bakery, shared := [], holder := some 0, threads := [baker] }

theorem rush_undone : ∃ after, counter.step 0 .leave = some after ∧ Undoes bakery rush after.locks ∧
    after.locks.isLocked (.resource 0 "oven") ∧ ¬ after.locks.isLocked (.resource 0 "tray") ∧
    ∃ staff, after.locks.trees[0]? = some staff ∧ staff.locked = 0 := by
  have counted (index : Nat) (tree : LeaseTree) (found : bakery.trees[index]? = some tree) :
      tree.Counted := by
    have only := List.mem_of_getElem? found
    rw [List.mem_singleton.mp only]
    rfl
  have undone : Undoes bakery rush (counter.leave 0 baker).locks :=
    @pass_undone _ counter (counter.leave 0 baker) 0 baker rush counted rfl rfl rfl
  refine ⟨_, rfl, undone, ?_, ?_, ?_⟩
  · rw [undone.locked]
    decide
  · rw [undone.locked]
    decide
  · obtain ⟨staff, present, _, none⟩ := undone.counted 0 _ rfl
    exact ⟨staff, present, none⟩

end Machine
end Gate
end Foreman
