/-!
Limits on a run. An absent limit does not bound it. Of two sources of limits the first one that
knows a limit decides it, for each limit on its own.
-/
namespace TapeInterpreter
set_option autoImplicit false

structure Limits where
  maxSteps : Option Nat
  timeoutMs : Option Nat
  deriving DecidableEq, Repr

namespace Limits

def unbounded : Limits := ⟨none, none⟩

/-- What `first` leaves open is for `second` to say. -/
def orElse (first second : Limits) : Limits where
  maxSteps := first.maxSteps.or second.maxSteps
  timeoutMs := first.timeoutMs.or second.timeoutMs

end Limits

end TapeInterpreter
