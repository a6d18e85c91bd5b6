import TapeInterpreter.Evaluation
import TapeInterpreter.Diagnostic
import TapeInterpreter.Usage
import TapeInterpreter.Arguments.Parse
import TapeInterpreter.Host.Basic

/-!
The program around the evaluation: expressions come from the command line or from a file, each is
evaluated on a blank tape of the default size, and the first failure ends the run and is shown with
its place in the source.
-/
namespace TapeInterpreter
set_option autoImplicit false

/-- Which of the expressions failed, counted from zero, and how. -/
structure Failure (expressions : List String) where
  index : Fin expressions.length
  error : EvalError

namespace Failure

variable {expression : String} {rest : List String}

/-- A failure of the first expression. -/
def atFirst (error : EvalError) : Failure (expression :: rest) := ⟨⟨0, Nat.succ_pos _⟩, error⟩

/-- The same failure, counted with one more expression in front. -/
def behind (failure : Failure rest) : Failure (expression :: rest) :=
  ⟨failure.index.succ, failure.error⟩

end Failure

variable {m : Type → Type} [Monad m]

/-- Evaluate the expressions in order up to the first that fails. No result means that one of them
was not over within its patience. -/
@[specialize] def evaluateAll (console : Console m) (settings : Settings) (patience : Nat) :
    (expressions : List String) → m (Option (Except (Failure expressions) Unit))
  | [] => return some (.ok ())
  | expression :: rest => do
    match ← evaluate console settings (Source.ofString expression) patience with
    | none => return none
    | some outcome =>
      match outcome.result with
      | .ok () =>
        return (← evaluateAll console settings patience rest).map (.mapError .behind)
      | .error error => return some (.error (.atFirst error))

namespace Launcher

/-- Why a run was stopped from outside: by the user, or else by the clock if there is a timeout. -/
def cancelReason (interrupted : Bool) (timeoutMs : Option Nat) : String :=
  match interrupted, timeoutMs with
  | false, some ms =>
    "execution aborted: wall-clock timeout exceeded (" ++ toString ms ++ " ms)"
  | _, _ => "execution aborted: interrupted"

/-- An error of `program` as one line. -/
def errorLine (program message : String) : String := program ++ ": error: " ++ message

/-- The lines that show how `expression` failed: the error, and its place if it has one. -/
def failureLines (program expression : String) (error : EvalError) : List String :=
  errorLine program error.message ::
    match error.position? with
    | none => []
    | some position =>
      let (window, caret) := Diagnostic.context (Source.ofString expression) position
      ["  " ++ window, "  " ++ caret]

/-- Whether the run on `host` is to stop: the user says so, or its time is up. -/
@[inline] def stopping (host : Host m) (timeoutMs : Option Nat) : m Bool := do
  if ← host.interrupted then return true
  match timeoutMs with
  | none => return false
  | some ms => host.expired ms

/-- Evaluate the expressions under `limits` on the streams of `host`, as one terminal. -/
@[specialize] def evaluateOn (host : Host m) (limits : Limits) (expressions : List String)
    (patience : Nat) : m (Option (Except (Failure expressions) Unit)) := do
  let console := Terminal.console host.streams (stopping host limits.timeoutMs)
  let settings : Settings := { control := some ⟨limits.maxSteps⟩ }
  return (← evaluateAll console settings patience expressions false).1

/-- Evaluate the expressions and tell how it went. The result is the exit code. -/
@[specialize] def runAll (host : Host m) (program : String) (flags : Limits)
    (expressions : List String) (patience : Nat) : m (Option UInt32) := do
  let limits ← Limits.resolveOn host flags
  match ← evaluateOn host limits expressions patience with
  | none => return none
  | some (.ok ()) => return some 0
  | some (.error failure) =>
    match failure.error with
    | .cancelled =>
      host.complain (errorLine program (cancelReason (← host.interrupted) limits.timeoutMs))
    | error => (failureLines program (expressions.get failure.index) error).forM host.complain
    return some 1

/-- Do what the arguments say. The result is the exit code; there is none if an evaluation was not
over within its patience. -/
@[specialize] def launch (host : Host m) (program : String) (arguments : Arguments)
    (patience : Nat) : m (Option UInt32) := do
  if arguments.help then
    host.print (usage program)
    return some 0
  let flags : Limits := ⟨arguments.maxSteps, arguments.timeoutMs⟩
  match arguments.file, arguments.expressions with
  | some _, _ :: _ =>
    host.complain
      (errorLine program "cannot use positional expressions together with --file")
    host.complain (usage program)
    return some 2
  | some path, [] =>
    match ← host.loadText path with
    | .ok text => runAll host program flags [text] patience
    | .error e =>
      host.complain
        (errorLine program ("failed to read " ++ path ++ " as UTF-8: " ++ e.message))
      return some 1
  | none, expressions => runAll host program flags expressions patience

end Launcher

end TapeInterpreter
