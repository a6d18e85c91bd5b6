import TapeInterpreter.Machine.Step
import TapeInterpreter.Console.Basic

/-!
An evaluation runs the machine over one source on a blank tape, answers what it asks of the console,
and flushes once the whole source has been consumed. A run that is not over within its patience has
no outcome; a longer patience never changes an outcome.
-/
namespace TapeInterpreter
set_option autoImplicit false

/-- Where a run stopped: behind the source, or with an error, and in which state. -/
structure Halt where
  stopped : Except EvalError Nat
  last : State

/-- What one step comes to once the console has answered. -/
inductive Progress where
  | running (s : State)
  | halted (halt : Halt)

variable {m : Type → Type} [Monad m]

/-- Store a byte that has been read. -/
@[inline] def State.store (s : State) (byte : UInt8) : Progress :=
  match s.tape.write byte with
  | .ok tape => .running { s with tape }
  | .error e => .halted ⟨.error (.outOfRange e), s⟩

/-- Let the console answer what a step asks for. -/
@[inline] def Step.serve (console : Console m) : Step → m Progress
  | .silent s => return .running s
  | .write byte position s => do
    match ← console.write byte with
    | .ok () => return .running s
    | .error fault => return .halted ⟨.error (.io position fault), s⟩
  | .read position s => do
    match ← console.read with
    | .ok (some byte) => return s.store byte
    | .ok none => return .halted ⟨.error (.endOfInput position), s⟩
    | .error fault => return .halted ⟨.error (.io position fault), s⟩
  | .failed e s => return .halted ⟨.error e, s⟩
  | .finished position s => return .halted ⟨.ok position, s⟩

/-- A machine says what one step at a state comes to, the cancel flag being up or not. -/
abbrev Machine := State → Bool → Step

/-- The machine over `code` that gets behind loops as `resume` says. -/
@[inline] def Machine.resuming (resume : Resume) (settings : Settings) (code : Source) : Machine :=
  fun s cancelled => s.step resume settings code cancelled

/-- The interpreter. -/
@[inline] def Machine.over (settings : Settings) (code : Source) : Machine :=
  .resuming .remembering settings code

namespace Machine

/-- One step of the machine together with the console's answer. -/
@[inline] def advance (machine : Machine) (console : Console m) (s : State) : m Progress := do
  let cancelled ← console.cancelled
  (machine s cancelled).serve console

/-- Run from a state, for `patience` steps of the machine at most. -/
@[specialize] def run (machine : Machine) (console : Console m) : Nat → State → m (Option Halt)
  | 0, _ => return none
  | patience + 1, s => do
    match ← machine.advance console s with
    | .running s => run machine console patience s
    | .halted halt => return some halt

end Machine

/-- What an evaluation leaves behind. The steps are those counted under its `Control`. -/
structure Outcome where
  result : Except EvalError Unit
  tape : Tape
  steps : Nat

@[inline] def Halt.outcome (halt : Halt) (result : Except EvalError Unit) : Outcome :=
  ⟨result, halt.last.tape, halt.last.steps⟩

/-- Flush behind a source that has been consumed entirely. -/
@[inline] def Halt.conclude (console : Console m) (code : Source)
    (halt : Halt) : m Outcome := do
  match halt.stopped with
  | .error e => return halt.outcome (.error e)
  | .ok position =>
    if position ≠ code.size then return halt.outcome (.error (.incompleteScan position))
    else return halt.outcome ((← console.flush).mapError (.io position))

/-- Run the machine from the first character of `code` on a blank tape, then conclude. -/
@[specialize] def Machine.evaluate (machine : Machine) (console : Console m) (settings : Settings)
    (code : Source) (patience : Nat) : m (Option Outcome) := do
  match ← machine.run console patience (State.initial settings.capacity code) with
  | none => return none
  | some halt => return some (← halt.conclude console code)

/-- Evaluate `code` from its first character on a blank tape. -/
@[specialize] def evaluate (console : Console m) (settings : Settings) (code : Source)
    (patience : Nat) : m (Option Outcome) :=
  (Machine.over settings code).evaluate console settings code patience

end TapeInterpreter
