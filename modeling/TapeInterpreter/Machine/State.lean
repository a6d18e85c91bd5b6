import TapeInterpreter.Error
import TapeInterpreter.Source
import TapeInterpreter.Settings

/-!
The state of one evaluation. Loops that are open at the current position form a stack, innermost
first. A body is either being run or being skipped; a skipped body is scanned for its closing
bracket only, and that position is kept, so no body has to be skipped twice.
-/
namespace TapeInterpreter
set_option autoImplicit false

/-- What a scan does with the commands it meets. -/
inductive Pass where
  | running
  | skipping
  deriving DecidableEq, Repr

/-- An open loop: where its bracket is, how deep its body lies, and what happens to the body. -/
structure Frame where
  opening : Nat
  level : Nat
  pass : Pass
  deriving DecidableEq, Repr

structure State where
  position : Nat
  frames : List Frame
  /-- For each opening bracket whose loop has been left, its closing bracket. -/
  closings : Array (Option Nat)
  tape : Tape
  steps : Nat
  deriving DecidableEq, Repr

namespace State

/-- At the first character of `code`, on a blank tape. -/
def initial (capacity : Nat) (code : Source) : State where
  position := 0
  frames := []
  closings := Array.replicate code.size none
  tape := Tape.blank capacity
  steps := 0

/-- Number of open loops. -/
@[inline] def level (s : State) : Nat :=
  match s.frames with
  | [] => 0
  | f :: _ => f.level

/-- The outermost scan runs. -/
@[inline] def pass (s : State) : Pass :=
  match s.frames with
  | [] => .running
  | f :: _ => f.pass

@[inline] def closing? (s : State) (opening : Nat) : Option Nat :=
  s.closings[opening]?.join

@[inline] def goto (s : State) (position : Nat) : State :=
  { s with position }

/-- Scan on behind the current character. -/
@[inline] def next (s : State) : State :=
  { s with position := s.position + 1 }

/-- Open the loop at the current position and scan its body. -/
@[inline] def enter (s : State) (pass : Pass) : State :=
  { s with position := s.position + 1, frames := ⟨s.position, s.level + 1, pass⟩ :: s.frames }

/-- Close the loop `f` at the current position and scan on behind it. -/
@[inline] def leave (s : State) (f : Frame) (outer : List Frame) : State :=
  { s with
    position := s.position + 1
    frames := outer
    closings := s.closings.setIfInBounds f.opening (some s.position) }

/-- Pass over the loop at the current position: at once if its closing bracket is known, else by
skipping its body. -/
@[inline] def skip (s : State) : State :=
  match s.closing? s.position with
  | some closing => s.goto (closing + 1)
  | none => s.enter .skipping

/-- Account for one step. The cancel flag is looked at before the limit. -/
@[inline] def tick (s : State) (control : Option Control) (cancelled : Bool) :
    Except EvalError State :=
  match control with
  | none => .ok s
  | some c =>
    if cancelled then .error .cancelled
    else match c.maxSteps with
      | none => .ok { s with steps := s.steps + 1 }
      | some limit =>
        if limit ≤ s.steps then .error (.stepLimitExceeded limit)
        else .ok { s with steps := s.steps + 1 }

end State

end TapeInterpreter
