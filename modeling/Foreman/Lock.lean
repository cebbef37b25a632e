/-! The names of locks. A lock is either a lease, which is a permit drawn on the
budget of its tree, or a resource that one owner may hold at a time. -/

namespace Foreman

/-- A lease is named by its tree and its place there. Place zero is the root. -/
structure Lease where
  tree : Nat
  place : Nat
  deriving DecidableEq, Inhabited

inductive Lock where
  | lease (lease : Lease)
  /-- Resources of different scopes are different locks, even under one name. -/
  | resource (scope : Nat) (name : String)
  deriving DecidableEq, Inhabited

/-- What asking for a lock comes to. -/
inductive Grant (σ : Type) where
  | refused
  /-- The lock was held before, and asking changed nothing. -/
  | held
  | taken (after : σ)

def Grant.map {σ τ : Type} (f : σ → τ) : Grant σ → Grant τ
  | .refused => .refused
  | .held => .held
  | .taken after => .taken (f after)

end Foreman
