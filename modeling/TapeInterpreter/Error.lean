import TapeInterpreter.Tape

/-!
Why an evaluation ends early. A cause is data; its wording and the source position it points at are
functions of it. A failed cell access, an exhausted step limit and a cancellation have no position:
they belong to the run and to no character.
-/
namespace TapeInterpreter
set_option autoImplicit false

/-- A failed transfer of a byte, or of pending output, in the words of whoever failed. -/
structure Fault where
  text : String
  deriving DecidableEq, Repr

/-- The two ends of a loop. -/
inductive Bracket where
  | opening
  | closing
  deriving DecidableEq, Repr

/-- A bracket as a report quotes it. -/
def Bracket.quoted : Bracket → String
  | .opening => "'['"
  | .closing => "']'"

inductive EvalError where
  /-- A character that is no command, bracket, blank or comment. -/
  | unexpectedCharacter (char : Char) (position : Nat)
  /-- A closing bracket without an open loop, or a loop that is never closed. -/
  | unmatched (bracket : Bracket) (position : Nat)
  /-- The cursor indexes no cell. -/
  | outOfRange (access : OutOfRange)
  /-- A byte was wanted after the last one. -/
  | endOfInput (position : Nat)
  /-- The console failed. -/
  | io (position : Nat) (fault : Fault)
  /-- A loop opens inside `limit` others. -/
  | nestingTooDeep (position limit : Nat)
  /-- The outermost scan stopped before the end of the source. -/
  | incompleteScan (position : Nat)
  /-- The next step would exceed `limit`. -/
  | stepLimitExceeded (limit : Nat)
  /-- The cancel flag was up at the next step. -/
  | cancelled
  deriving DecidableEq, Repr

def OutOfRange.message (e : OutOfRange) : String :=
  "index is out of range while " ++ e.use.word ++ " value (index=" ++ toString e.index ++
    ", capacity=" ++ toString e.capacity ++ ")"

namespace EvalError

def message : EvalError → String
  | .unexpectedCharacter c p =>
    "unexpected character <" ++ c.toString ++ "> at position " ++ toString p
  | .unmatched b p =>
    "unbalanced statement: unmatched " ++ b.quoted ++ " at position " ++ toString p
  | .outOfRange e => e.message
  | .endOfInput p => "end of input while reading at position " ++ toString p
  | .io p fault => "I/O error at position " ++ toString p ++ ": " ++ fault.text
  | .nestingTooDeep p limit =>
    "loop nesting deeper than " ++ toString limit ++ " levels at position " ++ toString p
  | .incompleteScan p => "error while parsing: scan stopped at position " ++ toString p
  | .stepLimitExceeded limit =>
    "execution aborted: step limit exceeded (" ++ toString limit ++ ")"
  | .cancelled => "execution aborted: cancelled"

/-- The index of the character an error is about. The length of the source stands for its end. -/
def position? : EvalError → Option Nat
  | .unexpectedCharacter _ p | .unmatched _ p | .endOfInput p | .io p _ | .nestingTooDeep p _
  | .incompleteScan p => some p
  | .outOfRange _ | .stepLimitExceeded _ | .cancelled => none

end EvalError

end TapeInterpreter
