import TapeInterpreter.Tape

/-!
What an evaluation is allowed. Without a `Control` nothing is counted and the cancel flag is not
looked at, so a loop whose cell never reaches zero runs for ever.
-/
namespace TapeInterpreter
set_option autoImplicit false

/-- Step counting and cancellation, with an optional bound on the steps. -/
structure Control where
  maxSteps : Option Nat
  deriving DecidableEq, Repr

/-- How deep loops may nest unless a caller says otherwise. -/
def defaultMaxDepth : Nat := 4096

/-- Bytes of stack that are enough to evaluate loops nested to the default depth. -/
def evaluationStackSize : Nat := 64 * 1024 * 1024

structure Settings where
  /-- Number of tape cells. Zero counts as one. -/
  capacity : Nat := Tape.defaultCapacity
  maxDepth : Nat := defaultMaxDepth
  control : Option Control := none
  deriving DecidableEq, Repr

end TapeInterpreter
