import TapeInterpreter.Machine.State

/-!
One step of the machine handles one character or one whole comment. A step is pure: what it needs
from the console it asks for as data, and the run around it answers. How a scan gets behind a loop
is a parameter; the interpreter remembers the closing brackets it has met.
-/
namespace TapeInterpreter
set_option autoImplicit false

/-- What one step comes to. -/
inductive Step where
  /-- Nothing to tell: the run goes on. -/
  | silent (next : State)
  /-- The byte is to be written for the command at `position`; the run goes on once it is. -/
  | write (byte : UInt8) (position : Nat) (next : State)
  /-- A byte is wanted for the command at `position`, to be stored in the current cell. -/
  | read (position : Nat) (next : State)
  | failed (error : EvalError) (last : State)
  /-- The outermost scan stopped at `position`. -/
  | finished (position : Nat) (last : State)
  deriving DecidableEq, Repr

/-- How a scan gets behind a loop. -/
structure Resume where
  /-- At the opening bracket of a loop whose body is not to be run. -/
  skip : State → State
  /-- At the closing bracket of the loop `f`, the innermost one, whose body has been skipped. -/
  leave (s : State) (f : Frame) (outer : List Frame) : State
  /-- At the closing bracket of the loop `f`, the innermost one, whose body has been run. -/
  exit (s : State) (f : Frame) (outer : List Frame) : State

/-- Remember the closing brackets that have been met, and use them. -/
@[inline] def Resume.remembering : Resume where
  skip := State.skip
  leave := State.leave
  exit := State.leave

namespace State

/-- Run one command and scan on behind it. -/
@[inline] def command (s : State) (settings : Settings) (cancelled : Bool) (c : Command) : Step :=
  match s.tick settings.control cancelled with
  | .error e => .failed e s
  | .ok s =>
    match c with
    | .right => .silent { s with position := s.position + 1, tape := s.tape.advance }
    | .left => .silent { s with position := s.position + 1, tape := s.tape.retreat }
    | .increment =>
      match s.tape.increment with
      | .ok tape => .silent { s with position := s.position + 1, tape }
      | .error e => .failed (.outOfRange e) s
    | .decrement =>
      match s.tape.decrement with
      | .ok tape => .silent { s with position := s.position + 1, tape }
      | .error e => .failed (.outOfRange e) s
    | .write =>
      match s.tape.read with
      | .ok byte => .write byte s.position s.next
      | .error e => .failed (.outOfRange e) s
    | .read => .read s.position s.next

/-- Test the current cell, at the cost of one step. -/
@[inline] def test (s : State) (settings : Settings) (cancelled : Bool)
    (zero nonzero : State → State) : Step :=
  match s.tick settings.control cancelled with
  | .error e => .failed e s
  | .ok s =>
    match s.tape.read with
    | .error e => .failed (.outOfRange e) s
    | .ok cell => .silent (if cell = 0 then zero s else nonzero s)

/-- At an opening bracket: a running scan tests the cell, a skipping one skips this body too. -/
@[inline] def openLoop (s : State) (resume : Resume) (settings : Settings) (cancelled : Bool) :
    Step :=
  if settings.maxDepth ≤ s.level then .failed (.nestingTooDeep s.position settings.maxDepth) s
  else match s.pass with
    | .skipping => .silent (resume.skip s)
    | .running => s.test settings cancelled resume.skip (enter · .running)

/-- At a closing bracket: a body that has run is run again unless the cell is zero. -/
@[inline] def closeLoop (s : State) (resume : Resume) (settings : Settings) (cancelled : Bool) :
    Step :=
  match s.frames with
  | [] => .failed (.unmatched .closing s.position) s
  | f :: outer =>
    match f.pass with
    | .skipping => .silent (resume.leave s f outer)
    | .running =>
      s.test settings cancelled (resume.exit · f outer) (goto · (f.opening + 1))

/-- At the end of the source no loop may be open. -/
@[inline] def stop (s : State) (code : Source) : Step :=
  match s.frames with
  | [] => .finished code.size s
  | f :: _ => .failed (.unmatched .opening f.opening) s

/-- Handle the character at the current position, getting behind loops as `resume` says. -/
@[inline] def step (s : State) (resume : Resume) (settings : Settings) (code : Source)
    (cancelled : Bool) : Step :=
  match code[s.position]? with
  | none => s.stop code
  | some char =>
    match Glyph.ofChar char with
    | .blank => .silent s.next
    | .comment => .silent (s.goto (code.lineEnd s.position + 1))
    | .opening => s.openLoop resume settings cancelled
    | .closing => s.closeLoop resume settings cancelled
    | .command c =>
      match s.pass with
      | .skipping => .silent s.next
      | .running => s.command settings cancelled c
    | .foreign => .failed (.unexpectedCharacter char s.position) s

end State

end TapeInterpreter
