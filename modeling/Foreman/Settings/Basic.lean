import Foreman.Log
import Foreman.Settings.Integer

/-! Settings, read from an environment of named texts. A setting that is absent
or empty has its default. So does one that makes no sense, and then a warning
tells so. -/

namespace Foreman
namespace Settings

abbrev Environment := String → Option String

/-- Names are not empty and hold no equals sign. -/
def isName (name : String) : Bool := name ≠ "" && !name.toList.contains '='

/-- Enters a name, in place of what it stood for before. A text that is no name
is not entered. The entry is kept as one text, with an equals sign between the
name and the value. Whatever is looked up is found if that text begins with it
and an equals sign, so it may reach into the value. -/
def Environment.insert (environment : Environment) (name value : String) : Environment :=
  fun wanted =>
    if isName name && wanted.toList.takeWhile (· ≠ '=') = name.toList then
      let entry := name.toList ++ '=' :: value.toList
      ((wanted.toList ++ ['=']).isPrefixOf? entry).map String.ofList
    else environment wanted

/-- A text that makes no sense, and what is taken instead of it. -/
structure Rejected where
  name : String
  text : String
  fallback : String
  deriving DecidableEq

def Rejected.line (rejected : Rejected) : Line :=
  { level := .warn
    trace := "startup"
    component := "config"
    event := "config_invalid"
    message :=
      s!"Invalid value for {rejected.name}={rejected.text}, fallback={rejected.fallback}" }

/-- The text of a name, unless it is absent or empty. -/
def text? (environment : Environment) (name : String) : Option String :=
  (environment name).filter (· ≠ "")

/-- Reads a setting through `parse` and reports a text that it refuses. -/
def read {α : Type} (parse : String → Option α) (render : α → String)
    (environment : Environment) (name : String) (fallback : α) : α × List Rejected :=
  match text? environment name with
  | none => (fallback, [])
  | some text =>
    match parse text with
    | some value => (value, [])
    | none => (fallback, [{ name, text, fallback := render fallback }])

/-- Counts go up to 4096, from zero or from one. -/
def count? (allowZero : Bool) (text : String) : Option Int :=
  (integer? text).filter fun value => (if allowZero then 0 else 1) ≤ value && value ≤ 4096

/-- Switches are words, whose case does not matter. -/
def switch? (text : String) : Option Bool :=
  let word := text.map Char.toLower
  if word = "1" || word = "true" || word = "yes" then some true
  else if word = "0" || word = "false" || word = "no" then some false
  else none

def readCount (allowZero : Bool) (environment : Environment) (name : String) (fallback : Int) :
    Int × List Rejected :=
  read (count? allowZero) toString environment name fallback

def readSwitch (environment : Environment) (name : String) (fallback : Bool) :
    Bool × List Rejected :=
  read switch? (fun value => if value then "true" else "false") environment name fallback

end Settings

structure Settings where
  /-- Zero leaves the number of workers to the machine. -/
  maxWorkers : Int := 0
  continueOnFailure : Bool := true
  logLevel : String := "info"
  deriving DecidableEq, Inhabited

/-- The settings that an environment gives, and what of it was rejected. -/
def Settings.fromEnvironment (environment : Settings.Environment) :
    Settings × List Settings.Rejected :=
  let default : Settings := {}
  let (maxWorkers, workersRejected) :=
    Settings.readCount true environment "DAGRUN_MAX_WORKERS" default.maxWorkers
  let (continueOnFailure, continueRejected) :=
    Settings.readSwitch environment "DAGRUN_CONTINUE_ON_FAILURE" default.continueOnFailure
  let logLevel := (Settings.text? environment "DAGRUN_LOG_LEVEL").getD default.logLevel
  ({ maxWorkers, continueOnFailure, logLevel }, workersRejected ++ continueRejected)

end Foreman
