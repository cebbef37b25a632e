import Foreman.Fault

/-! Reported failures. A failure is data: its category tells callers what went
wrong, its code is for counting, and its details are kept in key order so that
two failures with the same details are equal. -/

namespace Foreman

inductive Category where
  /-- A node's own work failed. -/
  | execution
  /-- The bookkeeping of the plan failed, which ends the run. -/
  | plan
  /-- Cancellation came before the work was scheduled. -/
  | canceled
  /-- The caller asked for something that is not allowed. -/
  | internal
  | unknown
  deriving DecidableEq, Inhabited

def Category.name : Category → String
  | .execution => "Execution"
  | .plan => "Plan"
  | .canceled => "Canceled"
  | .internal => "Internal"
  | .unknown => "Unknown"

/-- Details are pairs of a key and a value in ascending order of the keys. -/
abbrev Details := List (String × String)

/-- Enters a pair in key order. A key that is present keeps its value. -/
def Details.insertNew (key value : String) : Details → Details
  | [] => [(key, value)]
  | (other, kept) :: rest =>
    if key = other then (other, kept) :: rest
    else if key < other then (key, value) :: (other, kept) :: rest
    else (other, kept) :: insertNew key value rest

def Details.ofList (pairs : List (String × String)) : Details :=
  pairs.foldl (fun details pair => details.insertNew pair.1 pair.2) []

structure Failure where
  category : Category := .unknown
  code : Int := 0
  retryable : Bool := false
  /-- Short and stable, for users. -/
  userMessage : String := ""
  /-- For the log. -/
  internalMessage : String := ""
  details : Details := []
  deriving DecidableEq, Inhabited

namespace Failure

/-- A failure whose one text serves users and log alike. -/
def brief (category : Category) (code : Int) (message : String) : Failure :=
  { category, code, userMessage := message, internalMessage := message }

def canceled (message : String) : Failure := brief .canceled 1 message
def execution (message : String) : Failure := brief .execution 2 message
def plan (message : String) : Failure := brief .plan 3 message
def internal (message : String) : Failure := brief .internal 4 message

/-- The text of a cancellation that gives no other. -/
def cancellationText : String := "Build cancelled"

/-- A detail that is present already is kept. -/
def withDetail (failure : Failure) (key value : String) : Failure :=
  { failure with details := failure.details.insertNew key value }

/-- Faults of the plan's bookkeeping have a code of their own. -/
def faultCode : Category → Int
  | .plan => 5001
  | _ => 5002

/-- The report of a fault. The text that it carries goes to users as it is; a
fault without one, and the absence of any fault, are reported as unknown. -/
def ofFault (category : Category) (fault : Option Fault) : Failure :=
  let report (user log : String) : Failure :=
    { category, code := faultCode category, userMessage := user, internalMessage := log }
  match fault with
  | none => report "Unknown failure" "from_exception called without an active exception"
  | some fault =>
    match fault.text? with
    | some text => report text s!"Uncaught exception: {text}"
    | none => report "Unknown failure" "Uncaught exception of non-standard type"

end Failure
end Foreman
