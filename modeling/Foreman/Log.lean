/-! Lines of the log. Each line names the run that it belongs to, the component
that wrote it and the event that it reports. -/

namespace Foreman

inductive Level where
  | debug
  | info
  | warn
  | error
  deriving DecidableEq, Inhabited

def Level.name : Level → String
  | .debug => "debug"
  | .info => "info"
  | .warn => "warn"
  | .error => "error"

structure Line where
  level : Level
  /-- The run that the line belongs to. -/
  trace : String
  component : String
  event : String
  message : String
  deriving DecidableEq, Inhabited

end Foreman
