import Foreman.Desk
import Foreman.Proofs.LockTable

/-! What a pass does to the locks. An attempt to take several locks takes all of
them or none, and a pass that is undone leaves the locks as it found them. -/

namespace Foreman

/-- The same locks are held in both tables. -/
def Locks.Alike (before after : Locks) : Prop :=
  ∀ lock, after.isLocked lock ↔ before.isLocked lock

theorem Locks.Alike.trans {first middle last : Locks} (left : first.Alike middle)
    (right : middle.Alike last) : first.Alike last :=
  fun lock => (right lock).trans (left lock)

theorem Locks.Alike.symm {before after : Locks} (alike : before.Alike after) : after.Alike before :=
  fun lock => (alike lock).symm

def Locks.Blocked (locks : Locks) (wanted : List Lock) : Prop :=
  ¬ wanted.Nodup ∨ ∃ lock ∈ wanted, locks.isLocked lock

theorem Locks.Alike.refl (locks : Locks) : locks.Alike locks := fun _ => Iff.rfl

theorem Locks.Blocked.back {before after : Locks} {wanted : List Lock} (alike : before.Alike after)
    (blocked : after.Blocked wanted) : before.Blocked wanted :=
  blocked.imp id fun ⟨lock, member, held⟩ => ⟨lock, member, (alike lock).mp held⟩

namespace Pass

variable {pass after : Pass} {lock : Lock}

/-- The table of a pass goes on to be a sound one that has all leases. -/
structure Steady (before after : Locks) : Prop where
  sound : before.Sound → after.Sound
  grows : before.Grows after

theorem Steady.refl (locks : Locks) : Steady locks locks := ⟨id, .refl locks⟩

theorem Steady.trans {first middle last : Locks} (left : Steady first middle)
    (right : Steady middle last) : Steady first last :=
  ⟨fun sound => right.sound (left.sound sound), left.grows.trans right.grows⟩

theorem Steady.unlock (locks : Locks) (lock : Lock) : Steady locks (locks.unlock lock) :=
  ⟨fun sound => Locks.unlock_sound sound lock, Locks.unlock_grows lock⟩

theorem Steady.unlockAll (locks : Locks) (held : List Lock) : Steady locks (locks.unlockAll held) :=
  ⟨fun sound => Locks.unlockAll_sound sound held, Locks.unlockAll_grows held⟩

theorem Steady.createChild (locks : Locks) (parent : Lease) :
    Steady locks (locks.createChild parent).2 :=
  ⟨fun sound => Locks.createChild_sound sound parent, Locks.createChild_grows locks parent⟩

inductive Attempt (pass : Pass) (lock : Lock) : Bool × Pass → Prop where
  | refused (asked : pass.locks.ask lock = .refused) : Attempt pass lock (false, pass)
  | held (asked : pass.locks.ask lock = .held) : Attempt pass lock (true, pass)
  | taken (locks : Locks) (asked : pass.locks.ask lock = .taken locks) :
      Attempt pass lock (true, { pass with locks }.register lock)

theorem tryLock_attempt (pass : Pass) (lock : Lock) : Attempt pass lock (pass.tryLock lock) := by
  unfold tryLock
  cases asked : pass.locks.ask lock with
  | refused => exact .refused asked
  | held => exact .held asked
  | taken locks => exact .taken locks asked

theorem tryLock_resource {scope : Nat} {name : String}
    (tried : pass.tryLock (.resource scope name) = (true, after)) :
    ¬ pass.locks.isLocked (.resource scope name) ∧
      (∀ other, after.locks.isLocked other ↔
        other = .resource scope name ∨ pass.locks.isLocked other) ∧
      after.book.acquired = pass.book.acquired ++ [.resource scope name] ∧
      after.book.changed = pass.book.changed ∧ Steady pass.locks after.locks := by
  have attempt := tryLock_attempt pass (.resource scope name)
  rw [tried] at attempt
  cases attempt with
  | held asked =>
    simp only [Locks.ask] at asked
    split at asked <;> cases asked
  | taken locks asked =>
    exact ⟨Locks.ask_taken_free asked, Locks.isLocked_ask asked, rfl, rfl,
      fun sound => Locks.ask_sound sound asked, Locks.ask_grows asked⟩

theorem tryLock_refused (tried : pass.tryLock lock = (false, after)) :
    after = pass ∧ pass.locks.ask lock = .refused := by
  have attempt := tryLock_attempt pass lock
  rw [tried] at attempt
  cases attempt with
  | refused asked => exact ⟨rfl, asked⟩

/-! Taking several resources. -/

structure Took (pass : Pass) (wanted : List Lock) (after : Pass) : Prop where
  free : ∀ lock ∈ wanted, ¬ pass.locks.isLocked lock
  distinct : wanted.Nodup
  locked : ∀ other, after.locks.isLocked other ↔ other ∈ wanted ∨ pass.locks.isLocked other
  changed : after.book.changed = pass.book.changed
  steady : Steady pass.locks after.locks

/-- The locks are as before. What was entered in the book meanwhile is not locked
any more. -/
structure Undone (pass after : Pass) : Prop where
  alike : pass.locks.Alike after.locks
  acquired : ∀ lock ∈ after.book.acquired,
    lock ∈ pass.book.acquired ∨ ¬ pass.locks.isLocked lock
  changed : after.book.changed = pass.book.changed
  steady : Steady pass.locks after.locks

theorem Undone.refl (pass : Pass) : Undone pass pass :=
  ⟨fun _ => Iff.rfl, fun _ member => Or.inl member, rfl, .refl _⟩

theorem Undone.trans {first middle last : Pass} (left : Undone first middle)
    (right : Undone middle last) : Undone first last := by
  refine ⟨left.alike.trans right.alike, fun lock member => ?_, right.changed.trans left.changed,
    left.steady.trans right.steady⟩
  rcases right.acquired lock member with earlier | unlocked
  · exact left.acquired lock earlier
  · exact Or.inr fun held => unlocked ((left.alike lock).mpr held)

theorem Undone.took {wanted : List Lock} {last : Pass} (undone : Undone pass after)
    (took : Took after wanted last) : Took pass wanted last :=
  ⟨fun lock member held => took.free lock member ((undone.alike lock).mpr held), took.distinct,
    fun other => by rw [took.locked, undone.alike], took.changed.trans undone.changed,
    undone.steady.trans took.steady⟩

def Resources (wanted : List Lock) : Prop := ∀ lock ∈ wanted, ∃ scope name, lock = .resource scope name

private theorem take_took {wanted taken : List Lock} (resources : Resources wanted)
    (tried : tryLockAll.take taken wanted pass = (true, after)) : Took pass wanted after := by
  induction wanted generalizing taken pass with
  | nil =>
    cases tried
    exact ⟨by simp, List.nodup_nil, by simp, rfl, .refl _⟩
  | cons lock rest ih =>
    simp only [tryLockAll.take] at tried
    split at tried
    next between first =>
      obtain ⟨scope, name, rfl⟩ := resources lock List.mem_cons_self
      obtain ⟨free, locked, _, changed, steady⟩ := tryLock_resource first
      have took := ih (fun other member => resources other (List.mem_cons_of_mem _ member)) tried
      refine ⟨?_, ?_, ?_, took.changed.trans changed, steady.trans took.steady⟩
      · intro other member
        rcases List.mem_cons.mp member with rfl | member
        · exact free
        · exact fun held => took.free other member ((locked other).mpr (Or.inr held))
      · exact List.nodup_cons.mpr
          ⟨fun again => took.free _ again ((locked _).mpr (Or.inl rfl)), took.distinct⟩
      · intro other
        rw [took.locked, locked, List.mem_cons]
        grind
    · cases tried

/-- The locks that the attempt got are among those that it gives back. -/
private theorem take_missed {wanted taken : List Lock} (resources : Resources wanted)
    (tried : tryLockAll.take taken wanted pass = (false, after)) :
    pass.locks.Blocked wanted ∧
      (∀ other, after.locks.isLocked other ↔ other ∉ taken ∧ pass.locks.isLocked other) ∧
      (∀ lock ∈ after.book.acquired, lock ∈ pass.book.acquired ∨ ¬ pass.locks.isLocked lock) ∧
      after.book.changed = pass.book.changed ∧ Steady pass.locks after.locks := by
  induction wanted generalizing taken pass with
  | nil => cases tried
  | cons lock rest ih =>
    simp only [tryLockAll.take] at tried
    split at tried
    next between first =>
      obtain ⟨scope, name, rfl⟩ := resources lock List.mem_cons_self
      obtain ⟨free, locked, acquired, changed, steady⟩ := tryLock_resource first
      obtain ⟨blocked, after_, entered, same, kept⟩ :=
        ih (fun other member => resources other (List.mem_cons_of_mem _ member)) tried
      refine ⟨?_, ?_, ?_, same.trans changed, steady.trans kept⟩
      · rcases blocked with repeated | ⟨other, member, held⟩
        · exact Or.inl fun distinct => repeated (List.nodup_cons.mp distinct).2
        · rcases (locked other).mp held with rfl | held
          · exact Or.inl fun distinct => (List.nodup_cons.mp distinct).1 member
          · exact Or.inr ⟨other, List.mem_cons_of_mem _ member, held⟩
      · intro other
        rw [after_, locked, List.mem_append, List.mem_singleton]
        grind
      · intro other member
        rcases entered other member with member | unlocked
        · rw [acquired, List.mem_append, List.mem_singleton] at member
          rcases member with member | rfl
          · exact Or.inl member
          · exact Or.inr free
        · exact Or.inr fun held => unlocked ((locked other).mpr (Or.inr held))
    next between first =>
      cases tried
      obtain ⟨rfl, refused⟩ := tryLock_refused first
      obtain ⟨scope, name, rfl⟩ := resources lock List.mem_cons_self
      exact ⟨Or.inr ⟨_, List.mem_cons_self, Locks.ask_resource_refused refused⟩,
        fun other => Locks.isLocked_unlockAll, fun _ member => Or.inl member, rfl, .unlockAll _ _⟩

theorem tryLockAll_took {wanted : List Lock} (resources : Resources wanted)
    (tried : pass.tryLockAll wanted = (true, after)) : Took pass wanted after :=
  take_took resources tried

theorem tryLockAll_missed {wanted : List Lock} (resources : Resources wanted)
    (tried : pass.tryLockAll wanted = (false, after)) :
    pass.locks.Blocked wanted ∧ Undone pass after := by
  obtain ⟨blocked, locked, acquired, changed, steady⟩ := take_missed resources tried
  exact ⟨blocked, fun lock => by simpa using locked lock, acquired, changed, steady⟩

/-! Undoing a pass. -/

theorem isLocked_release (other : Lock) :
    pass.release.locks.isLocked other ↔
      other ∉ pass.book.acquired ∧ pass.locks.isLocked other := by
  rw [release, Locks.isLocked_unlockAll, List.mem_reverse]

/-- If nothing that the book lists is locked, undoing the pass changes no lock. -/
theorem release_alike (unlocked : ∀ lock ∈ pass.book.acquired, ¬ pass.locks.isLocked lock) :
    pass.locks.Alike pass.release.locks := by
  intro lock
  rw [isLocked_release]
  exact ⟨And.right, fun held => ⟨fun member => unlocked lock member held, held⟩⟩

theorem release_steady (pass : Pass) : Steady pass.locks pass.release.locks :=
  .unlockAll _ _

theorem tryLock_steady (pass : Pass) (lock : Lock) :
    Steady pass.locks (pass.tryLock lock).2.locks := by
  have attempt := tryLock_attempt pass lock
  generalize pass.tryLock lock = result at attempt
  cases attempt with
  | refused asked => exact .refl _
  | held asked => exact .refl _
  | taken locks asked => exact ⟨fun sound => Locks.ask_sound sound asked, Locks.ask_grows asked⟩

end Pass

/-! Any calls on a table. -/

namespace Desk

theorem perform_sound {desk : Desk} (sound : desk.locks.Sound) (command : Command) :
    (desk.perform command).2.locks.Sound := by
  cases command with
  | createTree name budget =>
    simp only [perform]
    split
    next made => exact Locks.createTree_sound sound made
    · exact sound
  | createChild parent =>
    exact Locks.createChild_sound sound parent
  | bind lease gate => exact Locks.bind_sound sound lease gate
  | tryLock lock book =>
    exact (Pass.tryLock_steady { locks := desk.locks, book := desk.books[book]?.getD {} } lock).sound sound
  | unlock lock => exact Locks.unlock_sound sound lock
  | release book =>
    exact (Pass.release_steady { locks := desk.locks, book := desk.books[book]?.getD {} }).sound sound
  | register lock book | commit book | notify book => exact sound

/-- Whatever calls are made on a table from the start, its trees stay within their
budgets. -/
theorem run_sound (books : List Book) (commands : List Command) :
    (run { books } commands).locks.Sound := by
  suffices kept : ∀ desk : Desk, desk.locks.Sound → (run desk commands).locks.Sound from
    kept { books } ⟨by simp⟩
  induction commands with
  | nil => exact fun _ sound => sound
  | cons command rest ih => exact fun desk sound => ih _ (perform_sound sound command)

end Desk
end Foreman
