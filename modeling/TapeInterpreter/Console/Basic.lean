import TapeInterpreter.Error

/-!
The outside world as a run sees it: bytes in, bytes out, a flush, and the cancel flag. `m` is where
the effects happen, so one run serves files, terminals and consoles kept in memory.
-/
namespace TapeInterpreter
set_option autoImplicit false

structure Console (m : Type → Type) where
  /-- The next byte, or none behind the last. -/
  read : m (Except Fault (Option UInt8))
  write : UInt8 → m (Except Fault Unit)
  /-- Push pending output to where it goes. -/
  flush : m (Except Fault Unit)
  /-- Whether the run is asked to stop. -/
  cancelled : m Bool

namespace Console

/-- A console that keeps no output back: its flush does nothing and succeeds. -/
def unbuffered {m : Type → Type} [Monad m] (console : Console m) : Console m :=
  { console with flush := pure (.ok ()) }

/-- Copy up to `n` bytes from input to output, then flush. The result counts the copied bytes. -/
def copy {m : Type → Type} [Monad m] (console : Console m) (n : Nat) : m (Except Fault Nat) :=
  go n 0
where
  finish (copied : Nat) : m (Except Fault Nat) := do
    return (← console.flush).map fun _ => copied
  go : Nat → Nat → m (Except Fault Nat)
    | 0, copied => finish copied
    | n + 1, copied => do
      match ← console.read with
      | .error fault => return .error fault
      | .ok none => finish copied
      | .ok (some byte) =>
        match ← console.write byte with
        | .error fault => return .error fault
        | .ok () => go n (copied + 1)

end Console

end TapeInterpreter
