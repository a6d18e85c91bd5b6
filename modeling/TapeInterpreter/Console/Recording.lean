import TapeInterpreter.Console.Basic

/-!
A console that records the calls made on another one, and can raise the cancel flag right behind a
chosen call. The flag stays up once it is raised.
-/
namespace TapeInterpreter
set_option autoImplicit false

/-- One call on a console and what came of it. -/
inductive Call where
  | read (reply : Except Fault (Option UInt8))
  | write (byte : UInt8) (reply : Except Fault Unit)
  | flush (reply : Except Fault Unit)

structure Recording where
  /-- The calls so far, in order. -/
  calls : Array Call
  /-- Whether the cancel flag is up. -/
  raised : Bool

namespace Recording

def start (raised : Bool) : Recording := ⟨#[], raised⟩

/-- Note `call`. The flag goes up if it is the call number `raiseAt` of this recording. -/
def note (r : Recording) (raiseAt : Option Nat) (call : Call) : Recording :=
  let calls := r.calls.push call
  ⟨calls, r.raised || raiseAt == some calls.size⟩

/-- A recording that starts anew, with the flag as it is. -/
def restart (r : Recording) : Recording := start r.raised

end Recording

/-- `console`, with its calls recorded. -/
def Console.recorded {m : Type → Type} [Monad m] (console : Console m) (raiseAt : Option Nat) :
    Console (StateT Recording m) where
  read := fun r => do
    let reply ← console.read
    return (reply, r.note raiseAt (.read reply))
  write := fun byte r => do
    let reply ← console.write byte
    return (reply, r.note raiseAt (.write byte reply))
  flush := fun r => do
    let reply ← console.flush
    return (reply, r.note raiseAt (.flush reply))
  cancelled := fun r => do
    return (r.raised || (← console.cancelled), r)

end TapeInterpreter
