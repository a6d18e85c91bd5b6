import TapeInterpreter.Console.Basic

/-!
A console that behaves as a script says: replies to reads in order, writes that fail from a given
one on, a flush that always succeeds or always fails.
-/
namespace TapeInterpreter
set_option autoImplicit false

structure Script where
  /-- What the next reads get. Behind the last entry every read is at the end of input. -/
  replies : List (Except Fault (Option UInt8))
  /-- From which write on, counted from 1, and how writes fail. -/
  writeFault : Option (Nat × Fault)
  flushFault : Option Fault
  /-- Writes so far, failed ones included. -/
  writes : Nat := 0

namespace Script

def read (s : Script) : Except Fault (Option UInt8) × Script :=
  match s.replies with
  | [] => (.ok none, s)
  | reply :: rest => (reply, { s with replies := rest })

def write (s : Script) : Except Fault Unit × Script :=
  let s := { s with writes := s.writes + 1 }
  match s.writeFault with
  | some (first, fault) => (if first ≤ s.writes then .error fault else .ok (), s)
  | none => (.ok (), s)

def flush (s : Script) : Except Fault Unit :=
  match s.flushFault with
  | some fault => .error fault
  | none => .ok ()

/-- The script as a console that nobody cancels. -/
def console : Console (StateM Script) where
  read := fun s => s.read
  write := fun _ s => s.write
  flush := fun s => (s.flush, s)
  cancelled := fun s => (false, s)

end Script

end TapeInterpreter
