import TapeInterpreter.Console.Basic

/-!
A console in memory: input is served in order from the front, output is collected at the back, and
neither ever fails.
-/
namespace TapeInterpreter
set_option autoImplicit false

structure Buffer where
  unread : List UInt8
  written : Array UInt8
  deriving DecidableEq, Repr

namespace Buffer

/-- All of `input` unread, nothing written. -/
def ofInput (input : List UInt8) : Buffer := ⟨input, #[]⟩

/-- Take the first unread byte. -/
@[inline] def pop (b : Buffer) : Option UInt8 × Buffer :=
  match b.unread with
  | [] => (none, b)
  | byte :: rest => (some byte, { b with unread := rest })

@[inline] def push (b : Buffer) (byte : UInt8) : Buffer :=
  { b with written := b.written.push byte }

/-- The buffer as a console whose cancel flag stays as it is. -/
def console (cancelled : Bool) : Console (StateM Buffer) where
  read := fun b => let (byte, b) := b.pop; (.ok byte, b)
  write := fun byte b => (.ok (), b.push byte)
  flush := fun b => (.ok (), b)
  cancelled := fun b => (cancelled, b)

end Buffer

end TapeInterpreter
