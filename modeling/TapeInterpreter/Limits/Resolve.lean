import TapeInterpreter.Limits.Config

/-!
Where limits come from: flags first, then environment variables, then the configuration file. A
variable that is no number counts as absent.
-/
namespace TapeInterpreter.Limits
set_option autoImplicit false

def configFileName : String := "tapebf.toml"

def maxStepsVariable : String := "TAPEBF_MAX_STEPS"

def timeoutVariable : String := "TAPEBF_TIMEOUT_MS"

/-- The number a variable holds, blanks around it aside. -/
def readVariable? (text : String) : Option Nat :=
  Text.readNumeral? (Text.trim text.toList)

/-- The limits that the two environment variables set. -/
def ofVariables (maxSteps timeoutMs : Option String) : Limits where
  maxSteps := maxSteps.bind readVariable?
  timeoutMs := timeoutMs.bind readVariable?

/-- The limits that the configuration file sets, if there is one. -/
def ofConfigFile (content : Option String) : Limits :=
  match content with
  | some text => ofConfig text.toList
  | none => unbounded

/-- Each limit on its own: the flag, else the variable's number, else the file's. -/
def resolve (flags : Limits) (maxSteps timeoutMs : Option String) (config : Option String) :
    Limits :=
  flags.orElse ((ofVariables maxSteps timeoutMs).orElse (ofConfigFile config))

end TapeInterpreter.Limits
