/-! What a call can raise instead of returning. A raised value either carries a
text or is foreign to every caller; nothing else about it is ever looked at. -/

namespace Foreman

inductive Fault where
  | invalidArgument (text : String)
  | outOfRange (text : String)
  | logic (text : String)
  | runtime (text : String)
  /-- A function was called that holds no code. -/
  | emptyCall
  /-- The raised value carries no text. -/
  | foreign
  deriving DecidableEq, Inhabited

def Fault.text? : Fault → Option String
  | .invalidArgument text | .outOfRange text | .logic text | .runtime text => some text
  | .emptyCall => some "bad_function_call"
  | .foreign => none

end Foreman
