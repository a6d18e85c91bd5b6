import TapeInterpreter.Console.Basic

/-!
A console on standard streams. Output may be held back by the stream until it is flushed, so what
was written is flushed before a byte is asked for: a prompt is visible before input is awaited.
-/
namespace TapeInterpreter
set_option autoImplicit false

/-- Standard input and output. -/
structure Streams (m : Type → Type) where
  /-- The next byte, or none behind the last. A call that the system interrupts is made again until
  it goes through or fails in another way, so no interruption is seen here. -/
  read : m (Except Fault (Option UInt8))
  /-- Offer one byte. The result counts the bytes accepted. -/
  write : UInt8 → m (Except Fault Nat)
  flush : m (Except Fault Unit)

namespace Terminal

/-- How a write fails that accepts nothing. -/
def refused : Fault := ⟨"stdout did not accept the byte"⟩

variable {m : Type → Type} [Monad m]

/-- The state of a terminal is whether bytes have been accepted since the last flush. -/
@[inline] def flush (streams : Streams m) : StateT Bool m (Except Fault Unit) := fun pending => do
  match ← streams.flush with
  | .ok () => return (.ok (), false)
  | .error fault => return (.error fault, pending)

/-- Flush first if output is pending. The stream is asked once, as it repeats interrupted calls. -/
@[inline] def read (streams : Streams m) : StateT Bool m (Except Fault (Option UInt8)) :=
  fun pending => do
    if pending then
      match ← flush streams pending with
      | (.ok (), pending) => return (← streams.read, pending)
      | (.error fault, pending) => return (.error fault, pending)
    else return (← streams.read, pending)

@[inline] def write (streams : Streams m) (byte : UInt8) : StateT Bool m (Except Fault Unit) :=
  fun pending => do
    match ← streams.write byte with
    | .error fault => return (.error fault, pending)
    | .ok 0 => return (.error refused, pending)
    | .ok _ => return (.ok (), true)

@[inline] def console (streams : Streams m) (cancelled : m Bool) : Console (StateT Bool m) where
  read := read streams
  write := write streams
  flush := flush streams
  cancelled := fun pending => return (← cancelled, pending)

end Terminal

end TapeInterpreter
