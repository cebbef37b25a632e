import Foreman.Pass

/-! A lock table with several books open on it, and the calls that can be made
on them as data, so that a history of calls is a list. -/

namespace Foreman

structure Desk where
  locks : Locks := {}
  books : List Book := []
  deriving DecidableEq, Inhabited

namespace Desk

inductive Command where
  | createTree (name : String) (budget : Int)
  | createChild (parent : Lease)
  | bind (lease : Lease) (gate : Nat)
  | tryLock (lock : Lock) (book : Nat)
  | unlock (lock : Lock)
  | register (lock : Lock) (book : Nat)
  | release (book : Nat)
  | commit (book : Nat)
  | notify (book : Nat)
  deriving DecidableEq

inductive Reply where
  | done
  | granted (answer : Bool)
  | created (lease : Lease)
  | raised (fault : Fault)
  deriving DecidableEq

/-- Works on the table through one book. -/
def through {α : Type} (desk : Desk) (book : Nat) (work : Pass → α × Pass) : α × Desk :=
  let (answer, pass) := work { locks := desk.locks, book := desk.books[book]?.getD {} }
  (answer, { locks := pass.locks, books := desk.books.set book pass.book })

def perform (desk : Desk) : Command → Reply × Desk
  | .createTree name budget =>
    match desk.locks.createTree name budget with
    | .ok (root, locks) => (.created root, { desk with locks })
    | .error fault => (.raised fault, desk)
  | .createChild parent =>
    let (child, locks) := desk.locks.createChild parent
    (.created child, { desk with locks })
  | .bind lease gate =>
    let (bound, locks) := desk.locks.bind lease gate
    (.granted bound, { desk with locks })
  | .tryLock lock book =>
    let (answer, desk) := desk.through book (·.tryLock lock)
    (.granted answer, desk)
  | .unlock lock => (.done, { desk with locks := desk.locks.unlock lock })
  | .register lock book => desk.through book fun pass => (.done, pass.register lock)
  | .release book => desk.through book fun pass => (.done, pass.release)
  | .commit book => desk.through book fun pass => (.done, pass.commit)
  | .notify book => desk.through book fun pass => (.done, pass.notify)

def run (desk : Desk) (commands : List Command) : Desk :=
  commands.foldl (fun desk command => (desk.perform command).2) desk

end Desk
end Foreman
