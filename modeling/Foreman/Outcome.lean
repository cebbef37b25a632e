import Foreman.Fault

/-! Reading the outcome of a call that may fail. Asking for the side that the
outcome does not have is a mistake of the reader and raises a fault. -/

namespace Foreman

/-- A value, or the error that the call reports. -/
abbrev Outcome (ε α : Type) := Except ε α

namespace Outcome

/-- What a reader asked for in vain. -/
inductive Misreading where
  | valueOfError
  | errorOfValue
  /-- The outcome succeeded and carries no value. -/
  | errorOfSuccess
  deriving DecidableEq

def Misreading.message : Misreading → String
  | .valueOfError => "Result::value() called on Err"
  | .errorOfValue => "Result::error() called on Ok"
  | .errorOfSuccess => "Result<void,E>::error() called on Ok"

def Misreading.fault (misreading : Misreading) : Fault := .logic misreading.message

variable {ε α : Type}

def isOk : Outcome ε α → Bool
  | .ok _ => true
  | .error _ => false

def isErr (outcome : Outcome ε α) : Bool := !outcome.isOk

def valueOf : Outcome ε α → Except Fault α
  | .ok value => .ok value
  | .error _ => .error Misreading.valueOfError.fault

def errorOf : Outcome ε α → Except Fault ε
  | .ok _ => .error Misreading.errorOfValue.fault
  | .error error => .ok error

/-- The error of an outcome whose success carries no value. -/
def failureOf : Outcome ε Unit → Except Fault ε
  | .ok _ => .error Misreading.errorOfSuccess.fault
  | .error error => .ok error

end Outcome
end Foreman
