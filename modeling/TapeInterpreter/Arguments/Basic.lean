/-!
What a command line says, and how it can be wrong.
-/
namespace TapeInterpreter
set_option autoImplicit false

structure Arguments where
  file : Option String := none
  maxSteps : Option Nat := none
  timeoutMs : Option Nat := none
  expressions : List String := []
  help : Bool := false
  deriving DecidableEq, Repr

inductive ArgumentError where
  /-- An option stands without the value it takes. -/
  | missingValue (option : String)
  /-- An option is given twice. -/
  | repeated (option : String)
  /-- The value is no number below 2 ^ 64. -/
  | invalidNumber (option value : String)
  /-- A value is attached to an option that takes none. -/
  | unwantedValue (option : String)
  deriving DecidableEq, Repr

def ArgumentError.message : ArgumentError → String
  | .missingValue o => "a value is required for '" ++ o ++ "' but none was supplied"
  | .repeated o => "the argument '" ++ o ++ "' cannot be used multiple times"
  | .invalidNumber o v => "invalid value '" ++ v ++ "' for '" ++ o ++ "'"
  | .unwantedValue o => "unexpected value for '" ++ o ++ "'"

end TapeInterpreter
