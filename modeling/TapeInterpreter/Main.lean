import TapeInterpreter.Launcher

/-!
The program on the system it runs on.
-/
namespace TapeInterpreter
set_option autoImplicit false

/-- More steps than any run can take. -/
def endlessPatience : Nat := 0x4000000000000000

/-- The number of a failed call. It may come negated. -/
def errorCode (code : UInt32) : Nat := if code < 0x80000000 then code.toNat else (0 - code).toNat

def SystemError.ofIO (e : IO.Error) : SystemError :=
  match e with
  | .alreadyExists _ code text | .hardwareFault code text | .illegalOperation code text
  | .inappropriateType _ code text | .interrupted _ code text | .invalidArgument _ code text
  | .noFileOrDirectory _ code text | .noSuchThing _ code text | .otherError code text
  | .permissionDenied _ code text | .protocolError code text | .resourceBusy code text
  | .resourceExhausted _ code text | .resourceVanished code text | .timeExpired code text
  | .unsatisfiedConstraints code text | .unsupportedOperation code text =>
    ofCode (errorCode code) text
  | .unexpectedEof | .userError _ => ⟨toString e, 0⟩

/-- What `act` gives, or the system's words for how it failed. -/
def attempt {α : Type} (act : IO α) : IO (Except Fault α) := do
  try
    return .ok (← act)
  catch e => return .error ⟨(SystemError.ofIO e).message⟩

/-- What `act` gives, done again as long as the system interrupts it. -/
def uninterrupted {α : Type} (act : IO α) : IO α := do
  let mut reply ← act.toBaseIO
  while reply matches .error (.interrupted ..) do
    reply ← act.toBaseIO
  MonadExcept.ofExcept reply

/-- Standard input and output. An interrupted write or flush is repeated by the system's own
layer. -/
def systemStreams (stdin stdout : IO.FS.Stream) : Streams IO where
  read := attempt do
    let bytes ← uninterrupted (stdin.read 1)
    return bytes[0]?
  write byte := attempt do
    stdout.write ⟨#[byte]⟩
    return 1
  flush := attempt stdout.flush

/-- The system, with a clock that was started at `start`. A timeout is noticed at the next step. -/
def systemHost (stdin stdout stderr : IO.FS.Stream) (start : Nat) : Host IO where
  streams := systemStreams stdin stdout
  environment name := IO.getEnv name
  load path := do
    try
      return .ok (← IO.FS.readBinFile path)
    catch e => return .error (.ofIO e)
  print line := do
    stdout.putStrLn line
    stdout.flush
  complain line := do
    stderr.putStrLn line
    stderr.flush
  expired ms := return start + ms ≤ (← IO.monoMsNow)
  interrupted := return false

end TapeInterpreter

open TapeInterpreter in
/-- Run on the arguments of the command line. -/
def main (arguments : List String) : IO UInt32 := do
  let program := (← IO.appPath).fileName.getD "tapebf"
  let stderr ← IO.getStderr
  match Arguments.parse arguments with
  | .error e =>
    stderr.putStrLn (Launcher.errorLine program e.message)
    return 2
  | .ok arguments =>
    let host := systemHost (← IO.getStdin) (← IO.getStdout) stderr (← IO.monoMsNow)
    let code ← Launcher.launch host program arguments endlessPatience
    host.streams.flush *> pure ()
    return code.getD 1
