import TapeInterpreter.Evaluation
import TapeInterpreter.Console.Buffer

/-!
A session evaluates one source after another on a buffer. Settings may change in between. Only the
buffer, the settings and the cancel flag pass from one evaluation to the next: every evaluation has
a blank tape and counts its steps from zero.
-/
namespace TapeInterpreter
set_option autoImplicit false

structure Session where
  settings : Settings
  /-- The cancel flag. It is looked at under a `Control` only. -/
  cancelled : Bool
  buffer : Buffer

namespace Session

/-- A session on fresh settings, with all of `input` unread. -/
def start (capacity : Nat) (input : List UInt8) : Session where
  settings := { capacity }
  cancelled := false
  buffer := .ofInput input

inductive Action where
  | evaluate (code : Source)
  | setMaxDepth (maxDepth : Nat)
  | setControl (control : Control)
  | setCancelled (cancelled : Bool)

/-- Evaluate `code` on the session's buffer. -/
def evaluate (s : Session) (code : Source) (patience : Nat) : Option Outcome × Session :=
  let (outcome, buffer) :=
    (TapeInterpreter.evaluate (Buffer.console s.cancelled) s.settings code patience).run s.buffer
  (outcome, { s with buffer })

/-- Only an evaluation has an outcome to tell; it has none if its patience runs out. -/
def perform (s : Session) (patience : Nat) : Action → Option Outcome × Session
  | .evaluate code => s.evaluate code patience
  | .setMaxDepth maxDepth => (none, { s with settings := { s.settings with maxDepth } })
  | .setControl control => (none, { s with settings := { s.settings with control := some control } })
  | .setCancelled cancelled => (none, { s with cancelled })

/-- Perform all of `actions`, in order, also behind failed evaluations. -/
def performAll (s : Session) (patience : Nat) : List Action → List (Option Outcome) × Session
  | [] => ([], s)
  | action :: actions =>
    let (outcome, s) := s.perform patience action
    let (outcomes, s) := s.performAll patience actions
    (outcome :: outcomes, s)

end Session

end TapeInterpreter
