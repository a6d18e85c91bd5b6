import Mathlib.Algebra.Group.Nat.Defs
import TapeInterpreter.Diagnostic
import TapeInterpreter.Machine.Step

/-!
The step once more, on numbers of 64 bits. Each sum, difference and remainder is checked: a value
that does not fit, and a remainder by zero, leave no step at all. What is no arithmetic is as in
`State.step`, which keeps no such bounds.
-/
namespace TapeInterpreter
set_option autoImplicit false

namespace Word

/-- How many numbers there are of 64 bits. -/
def bound : Nat := 2 ^ 64

def add? (m n : Nat) : Option Nat := if m + n < bound then some (m + n) else none

def sub? (m n : Nat) : Option Nat := if n ≤ m then some (m - n) else none

def mod? (m n : Nat) : Option Nat := if n = 0 then none else some (m % n)

end Word

namespace Tape

def advance? (t : Tape) : Option Tape := do
  let right ← Word.add? t.cursor 1
  let cursor ← Word.mod? right t.capacity
  return { t with cursor }

/-- The sum comes first, so that nothing falls below zero. -/
def retreat? (t : Tape) : Option Tape := do
  let lap ← Word.add? t.cursor t.capacity
  let left ← Word.sub? lap 1
  let cursor ← Word.mod? left t.capacity
  return { t with cursor }

end Tape

namespace Source

def lineEndWithin? (code : Source) : Nat → Nat → Option Nat
  | 0, position => some position
  | n + 1, position =>
    if code[position]? = some '\n' then some position
    else do code.lineEndWithin? n (← Word.add? position 1)

def lineEnd? (code : Source) (position : Nat) : Option Nat :=
  code.lineEndWithin? (code.size - position) position

end Source

namespace State

def next? (s : State) : Option State := do
  return { s with position := ← Word.add? s.position 1 }

/-- The body begins behind the bracket, one level deeper. -/
def enter? (s : State) (pass : Pass) : Option State := do
  let body ← Word.add? s.position 1
  let level ← Word.add? s.level 1
  return { s with position := body, frames := ⟨s.position, level, pass⟩ :: s.frames }

def leave? (s : State) (f : Frame) (outer : List Frame) : Option State := do
  let position ← Word.add? s.position 1
  return { s with
    position := position
    frames := outer
    closings := s.closings.setIfInBounds f.opening (some s.position) }

def skip? (s : State) : Option State :=
  match s.closing? s.position with
  | some closing => do return s.goto (← Word.add? closing 1)
  | none => s.enter? .skipping

def tick? (s : State) (control : Option Control) (cancelled : Bool) :
    Option (Except EvalError State) :=
  match control with
  | none => some (.ok s)
  | some c =>
    if cancelled then some (.error .cancelled)
    else match c.maxSteps with
      | none => do return .ok { s with steps := ← Word.add? s.steps 1 }
      | some limit =>
        if limit ≤ s.steps then some (.error (.stepLimitExceeded limit))
        else do return .ok { s with steps := ← Word.add? s.steps 1 }

def command? (s : State) (settings : Settings) (cancelled : Bool) (c : Command) : Option Step := do
  match ← s.tick? settings.control cancelled with
  | .error e => return .failed e s
  | .ok s =>
    match c with
    | .right => do
      let tape ← s.tape.advance?
      return .silent (← { s with tape }.next?)
    | .left => do
      let tape ← s.tape.retreat?
      return .silent (← { s with tape }.next?)
    | .increment =>
      match s.tape.increment with
      | .ok tape => return .silent (← { s with tape }.next?)
      | .error e => return .failed (.outOfRange e) s
    | .decrement =>
      match s.tape.decrement with
      | .ok tape => return .silent (← { s with tape }.next?)
      | .error e => return .failed (.outOfRange e) s
    | .write =>
      match s.tape.read with
      | .ok byte => return .write byte s.position (← s.next?)
      | .error e => return .failed (.outOfRange e) s
    | .read => return .read s.position (← s.next?)

def test? (s : State) (settings : Settings) (cancelled : Bool) (zero nonzero : State → Option State) :
    Option Step := do
  match ← s.tick? settings.control cancelled with
  | .error e => return .failed e s
  | .ok s =>
    match s.tape.read with
    | .error e => return .failed (.outOfRange e) s
    | .ok cell => return .silent (← if cell = 0 then zero s else nonzero s)

/-- Where the body begins is computed also if a step is refused, or the body passed over at once. -/
def openLoop? (s : State) (settings : Settings) (cancelled : Bool) : Option Step :=
  if settings.maxDepth ≤ s.level then
    some (.failed (.nestingTooDeep s.position settings.maxDepth) s)
  else do
    let _ ← Word.add? s.position 1
    match s.pass with
    | .skipping => return .silent (← s.skip?)
    | .running => s.test? settings cancelled skip? (enter? · .running)

def closeLoop? (s : State) (settings : Settings) (cancelled : Bool) : Option Step :=
  match s.frames with
  | [] => some (.failed (.unmatched .closing s.position) s)
  | f :: outer =>
    match f.pass with
    | .skipping => do return .silent (← s.leave? f outer)
    | .running =>
      s.test? settings cancelled (leave? · f outer) fun s => do
        return s.goto (← Word.add? f.opening 1)

/-- The bracket of a body that never ends is found one place in front of its beginning. -/
def stop? (s : State) (code : Source) : Option Step :=
  match s.frames with
  | [] => some (.finished code.size s)
  | f :: _ => do
    let body ← Word.add? f.opening 1
    let opening ← Word.sub? body 1
    return .failed (.unmatched .opening opening) s

/-- Handle the character at the current position as `State.step` does it, remembering loops. -/
def step? (s : State) (settings : Settings) (code : Source) (cancelled : Bool) : Option Step :=
  match code[s.position]? with
  | none => s.stop? code
  | some char =>
    match Glyph.ofChar char with
    | .blank => do return .silent (← s.next?)
    | .comment => do
      let line ← code.lineEnd? s.position
      return .silent (s.goto (← Word.add? line 1))
    | .opening => s.openLoop? settings cancelled
    | .closing => s.closeLoop? settings cancelled
    | .command c =>
      match s.pass with
      | .skipping => do return .silent (← s.next?)
      | .running => s.command? settings cancelled c
    | .foreign => some (.failed (.unexpectedCharacter char s.position) s)

end State

namespace Diagnostic

/-- The window and the caret line. The window is bounded at the end of the source. -/
def context? (code : Source) (position : Nat) : Option (String × String) := do
  let right ← Word.add? position radius
  let behind ← Word.add? right 1
  let window := (code.extract (position - radius) (min behind code.size)).toList.map flatten
  return (String.ofList window, String.ofList (caret position))

end Diagnostic

end TapeInterpreter
