/-! The cancellation token: a flag that is set once, and callbacks to run when it
is set. Each function here is one indivisible step; a request for cancellation
sets the flag, then takes the callbacks, then runs them. -/

namespace Foreman

structure Token (κ : Type) where
  canceled : Bool := false
  /-- The id of the next callback. Ids start from one, since zero tells that no
  callback was kept. -/
  nextId : Nat := 1
  /-- The callbacks that are kept, in the order of registration. -/
  callbacks : List (Nat × κ) := []

instance {κ : Type} : Inhabited (Token κ) := ⟨{}⟩

namespace Token

variable {κ : Type}

/-- Sets the flag. Only the call that finds it unset goes on to run callbacks. -/
def raise (token : Token κ) : Bool × Token κ :=
  if token.canceled then (false, token) else (true, { token with canceled := true })

def take (token : Token κ) : List (Nat × κ) × Token κ :=
  (token.callbacks, { token with callbacks := [] })

/-- Keeps a callback under a new id, unless the flag is set. -/
def enroll (token : Token κ) (callback : κ) : Option Nat × Token κ :=
  if token.canceled then (none, token)
  else
    (some token.nextId,
      { token with
        nextId := token.nextId + 1
        callbacks := token.callbacks ++ [(token.nextId, callback)] })

/-- Forgets the callback of that id, if the token keeps it. -/
def remove (token : Token κ) (id : Nat) : Token κ :=
  { token with callbacks := token.callbacks.filter (·.1 ≠ id) }

end Token
end Foreman
