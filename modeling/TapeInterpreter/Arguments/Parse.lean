import TapeInterpreter.Arguments.Basic
import TapeInterpreter.Text.Numeral

/-!
Reading a command line from left to right. Options may stand before the first expression only. An
argument that is no option by its spelling is an expression, hyphens or not, so a program text is
never mistaken for an option. The value of an option is judged once the next argument has been told
apart.
-/
namespace TapeInterpreter.Arguments
set_option autoImplicit false

/-- An option that takes a value. -/
inductive Key where
  | file
  | maxSteps
  | timeoutMs
  deriving DecidableEq, Repr

/-- The long name of an option that takes a value. -/
def Key.name : Key → String
  | .file => "file"
  | .maxSteps => "max-steps"
  | .timeoutMs => "timeout"

/-- The option as it is written. -/
def Key.flag (k : Key) : String := "--" ++ k.name

def Key.ofName? (name : List Char) : Option Key :=
  if name = Key.file.name.toList then some .file
  else if name = Key.maxSteps.name.toList then some .maxSteps
  else if name = Key.timeoutMs.name.toList then some .timeoutMs
  else none

def helpName : String := "help"

/-- What one argument is by its spelling alone. -/
inductive Shape where
  /-- Two hyphens: all that follows is expressions. -/
  | separator
  /-- `help` asks for help so many times; after them an option may stand, with its value or
  without. -/
  | options (help : Nat) (key : Option (Key × Option String))
  /-- Help is asked for with a value. -/
  | helpWithValue
  | text
  deriving DecidableEq, Repr

/-- A long option behind its two hyphens, with the value behind the first `=` if there is one. -/
def Shape.ofLong (body : List Char) : Shape :=
  let name := body.takeWhile (· ≠ '=')
  let value := match body.dropWhile (· ≠ '=') with
    | [] => none
    | _ :: value => some (String.ofList value)
  match Key.ofName? name with
  | some key => .options 0 (some (key, value))
  | none =>
    if name = helpName.toList then
      if value.isSome then .helpWithValue else .options 1 none
    else .text

/-- A cluster of one-letter options behind its hyphen. What stands behind an `f` is its value. -/
def Shape.ofCluster (body : List Char) : Shape :=
  let help := (body.takeWhile (· = 'h')).length
  match body.dropWhile (· = 'h') with
  | [] => .options help none
  | [_] => .options help (some (.file, none))
  | _ :: value => .options help (some (.file, some (String.ofList value)))

def Shape.ofChars : List Char → Shape
  | ['-', '-'] => .separator
  | '-' :: '-' :: body => ofLong body
  | '-' :: body =>
    if body ≠ [] ∧ body.all (fun c => c = 'h' || c = 'f') then ofCluster body else .text
  | _ => .text

def Shape.of (argument : String) : Shape := ofChars argument.toList

/-- Take in one request for help. -/
def askHelp (a : Arguments) : Except ArgumentError Arguments :=
  if a.help then .error (.repeated ("--" ++ helpName)) else .ok { a with help := true }

def askHelpTimes (a : Arguments) : Nat → Except ArgumentError Arguments
  | 0 => .ok a
  | n + 1 => do (← a.askHelp).askHelpTimes n

def number (key : Key) (value : String) : Except ArgumentError Nat :=
  match Text.readNumeral? value.toList with
  | some n => .ok n
  | none => .error (.invalidNumber key.flag value)

/-- Take in an option with its value. An option may be given once. -/
def assign (a : Arguments) (key : Key) (value : String) : Except ArgumentError Arguments :=
  match key with
  | .file =>
    if a.file.isSome then .error (.repeated key.flag) else .ok { a with file := some value }
  | .maxSteps =>
    if a.maxSteps.isSome then .error (.repeated key.flag)
    else do let n ← number key value; return { a with maxSteps := some n }
  | .timeoutMs =>
    if a.timeoutMs.isSome then .error (.repeated key.flag)
    else do let n ← number key value; return { a with timeoutMs := some n }

/-- Take in the option that is still waiting to be judged. -/
def settle (a : Arguments) : Option (Key × Option String) → Except ArgumentError Arguments
  | none => .ok a
  | some (key, none) => .error (.missingValue key.flag)
  | some (key, some value) => a.assign key value

/-- Read on. `waiting` is an option whose value is, or will be, an argument of its own. -/
def parseFrom (a : Arguments) (waiting : Option (Key × Option String)) :
    List String → Except ArgumentError Arguments
  | [] => a.settle waiting
  | argument :: rest =>
    match Shape.of argument with
    | .separator => do return { ← a.settle waiting with expressions := rest }
    | .helpWithValue => .error (.unwantedValue ("--" ++ helpName))
    | .options help key => do
      let a ← (← a.settle waiting).askHelpTimes help
      match key with
      | some (key, some value) => (← a.assign key value).parseFrom none rest
      | waiting => a.parseFrom waiting rest
    | .text =>
      match waiting with
      | some (key, none) => a.parseFrom (some (key, some argument)) rest
      | waiting => do return { ← a.settle waiting with expressions := argument :: rest }

/-- What the arguments behind the program's name say. -/
def parse (arguments : List String) : Except ArgumentError Arguments :=
  parseFrom {} none arguments

/-- Behind two hyphens all is expressions. -/
theorem parse_separator (expressions : List String) :
    parse ("--" :: expressions) = .ok { expressions } := by
  have h : Shape.of "--" = .separator := by rfl
  simp only [parse, parseFrom, h]
  rfl

/-- An argument that is no option by its spelling, and all behind it, is expressions. -/
theorem parse_text {argument : String} (h : Shape.of argument = .text) (rest : List String) :
    parse (argument :: rest) = .ok { expressions := argument :: rest } := by
  simp only [parse, parseFrom, h]
  rfl

end TapeInterpreter.Arguments
