import TapeInterpreter.Console.Terminal
import TapeInterpreter.Limits.Resolve
import TapeInterpreter.Text.Bytes

/-!
What a program is given by the system it runs on: standard streams, environment variables, files, a
clock and the user who may interrupt it.
-/
namespace TapeInterpreter
set_option autoImplicit false

/-- A failure that the system reports. -/
structure SystemError where
  description : String
  code : Nat
  deriving DecidableEq, Repr

namespace SystemError

def noSuchFile : SystemError := ⟨"No such file or directory", 2⟩
def badDescriptor : SystemError := ⟨"Bad file descriptor", 9⟩
def permissionDenied : SystemError := ⟨"Permission denied", 13⟩
def notAFolder : SystemError := ⟨"Not a directory", 20⟩
def isAFolder : SystemError := ⟨"Is a directory", 21⟩
def noSpace : SystemError := ⟨"No space left on device", 28⟩
def brokenPipe : SystemError := ⟨"Broken pipe", 32⟩
def nameTooLong : SystemError := ⟨"File name too long", 36⟩
def tooManyLinks : SystemError := ⟨"Too many levels of symbolic links", 40⟩

/-- The failures that reading a file and writing to a stream usually meet. -/
def usual : List SystemError :=
  [noSuchFile, badDescriptor, permissionDenied, notAFolder, isAFolder, noSpace, brokenPipe,
    nameTooLong, tooManyLinks]

/-- The failure with number `code`, in the given words if it is an unusual one. -/
def ofCode (code : Nat) (description : String) : SystemError :=
  (usual.find? (·.code = code)).getD ⟨description, code⟩

def message (e : SystemError) : String :=
  e.description ++ " (os error " ++ toString e.code ++ ")"

end SystemError

/-- Why a text could not be had from a file. -/
inductive ReadError where
  | system (error : SystemError)
  | notText
  deriving DecidableEq, Repr

def ReadError.message : ReadError → String
  | .system e => e.message
  | .notText => "stream did not contain valid UTF-8"

structure Host (m : Type → Type) where
  streams : Streams m
  /-- The value of an environment variable. -/
  environment : String → m (Option String)
  /-- The bytes of the file at a path. -/
  load : String → m (Except SystemError ByteArray)
  /-- Put a line on standard output. -/
  print : String → m Unit
  /-- Put a line on standard error. -/
  complain : String → m Unit
  /-- Whether the program has been running for so many milliseconds. -/
  expired : Nat → m Bool
  /-- Whether the user has asked the program to stop. -/
  interrupted : m Bool

namespace Host

/-- The text of a file, from what asking for its bytes has come to. -/
def textOf : Except SystemError ByteArray → Except ReadError String
  | .error e => .error (.system e)
  | .ok bytes =>
    match String.fromUTF8? bytes with
    | some text => .ok text
    | none => .error .notText

/-- There is a text exactly if the bytes are there and are that text in UTF-8. -/
theorem textOf_eq_ok_iff {reply : Except SystemError ByteArray} {text : String} :
    textOf reply = .ok text ↔ reply = .ok text.toUTF8 := by
  cases reply with
  | error e => exact ⟨nofun, nofun⟩
  | ok bytes =>
    rw [Except.ok.injEq, ← Text.fromUTF8?_eq_some_iff, textOf]
    cases String.fromUTF8? bytes with
    | none => exact ⟨nofun, nofun⟩
    | some decoded => rw [Except.ok.injEq, Option.some.injEq]

theorem toOption_eq_some_iff {ε α : Type} {reply : Except ε α} {a : α} :
    reply.toOption = some a ↔ reply = .ok a := by
  cases reply with
  | error e => exact ⟨nofun, nofun⟩
  | ok b => rw [Except.toOption, Option.some.injEq, Except.ok.injEq]

/-- The text of the file at `path`. -/
def loadText {m : Type → Type} [Monad m] (host : Host m) (path : String) :
    m (Except ReadError String) := do
  return textOf (← host.load path)

end Host

/-- The path of `name` below `folder`. The working folder has the empty path. -/
def joinPath (folder name : String) : String :=
  if folder.isEmpty || folder.endsWith "/" then folder ++ name else folder ++ "/" ++ name

namespace Limits

/-- Where the configuration file is, given the values of `XDG_CONFIG_HOME` and `HOME`. -/
def configPath? (configHome home : Option String) : Option String :=
  match configHome, home with
  | some folder, _ => some (joinPath folder configFileName)
  | none, some home => some (joinPath (joinPath home ".config") configFileName)
  | none, none => none

variable {m : Type → Type} [Monad m]

/-- The text of the configuration file. A file that cannot be read counts as no file. -/
def configText? (host : Host m) : m (Option String) := do
  match configPath? (← host.environment "XDG_CONFIG_HOME") (← host.environment "HOME") with
  | none => return none
  | some path => return (← host.loadText path).toOption

/-- The limits for a run on `host` under the given flags. -/
def resolveOn (host : Host m) (flags : Limits) : m Limits := do
  let config ← configText? host
  return resolve flags (← host.environment maxStepsVariable) (← host.environment timeoutVariable)
    config

end Limits

end TapeInterpreter
