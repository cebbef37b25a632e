import Foreman.Locks

/-! One pass over the lock table. The book of a pass lists the locks that the
pass acquired, so that it can be undone, and whether the pass changed something
that others may wait for. -/

namespace Foreman

structure Book where
  /-- The acquired locks, oldest first. A lock that was unlocked since stays on
  the list. -/
  acquired : List Lock := []
  changed : Bool := false
  deriving DecidableEq, Inhabited

structure Pass where
  locks : Locks
  book : Book := {}
  deriving DecidableEq, Inhabited

namespace Pass

def register (pass : Pass) (lock : Lock) : Pass :=
  { pass with book.acquired := pass.book.acquired ++ [lock] }

/-- A lock that is taken now is entered in the book; one that was held before
is not. -/
def tryLock (pass : Pass) (lock : Lock) : Bool × Pass :=
  match pass.locks.ask lock with
  | .refused => (false, pass)
  | .held => (true, pass)
  | .taken locks => (true, { pass with locks }.register lock)

def unlock (pass : Pass) (lock : Lock) : Pass := { pass with locks := pass.locks.unlock lock }

/-- Unlocks every acquired lock, newest first. -/
def release (pass : Pass) : Pass :=
  { pass with locks := pass.locks.unlockAll pass.book.acquired.reverse, book.acquired := [] }

def commit (pass : Pass) : Pass := { pass with book.acquired := [] }

def notify (pass : Pass) : Pass := { pass with book.changed := true }

/-- Takes the locks in order. When one is refused, those taken for this attempt
are given back, though the book still lists them. -/
def tryLockAll (pass : Pass) (wanted : List Lock) : Bool × Pass :=
  take [] wanted pass
where
  take (taken : List Lock) : List Lock → Pass → Bool × Pass
    | [], pass => (true, pass)
    | lock :: rest, pass =>
      match pass.tryLock lock with
      | (true, pass) => take (taken ++ [lock]) rest pass
      | (false, pass) => (false, { pass with locks := pass.locks.unlockAll taken })

end Pass
end Foreman
