import TapeInterpreter.Proofs.Behaviour
import TapeInterpreter.Proofs.Grammar

/-!
# What a program tree means

A big step runs a whole tree. It knows of no position to resume at and of no bracket: a loop tests
the cell, and either it is over or its body is run and the loop again. A program that never ends has
no big step.
-/
namespace TapeInterpreter
set_option autoImplicit false

/-- What a program acts on. -/
structure Memory where
  tape : Tape
  steps : Nat
  /-- The calls on the console so far. -/
  calls : List Call

namespace Memory

def initial (capacity : Nat) : Memory := ⟨Tape.blank capacity, 0, []⟩

/-- Run one command, which stands at `position`. -/
def execute (m : Memory) (b : Behaviour) (control : Option Control) (c : Command)
    (position : Nat) : Except EvalError Unit × Memory :=
  match charge control (b.cancelled m.calls) m.steps with
  | .error e => (.error e, m)
  | .ok steps =>
    match c.effect m.tape with
    | .error e => (.error (.outOfRange e), { m with steps })
    | .ok (.changed tape) => (.ok (), { m with tape, steps })
    | .ok (.written byte) =>
      ((b.write m.calls byte).mapError (.io position),
        { m with steps, calls := m.calls ++ [.write byte (b.write m.calls byte)] })
    | .ok .wanted =>
      let m' : Memory := { m with steps, calls := m.calls ++ [.read (b.read m.calls)] }
      match b.read m.calls with
      | .error fault => (.error (.io position fault), m')
      | .ok none => (.error (.endOfInput position), m')
      | .ok (some byte) =>
        match m.tape.write byte with
        | .error e => (.error (.outOfRange e), m')
        | .ok tape => (.ok (), { m' with tape })

/-- Test the current cell. -/
def test (m : Memory) (b : Behaviour) (control : Option Control) :
    Except EvalError UInt8 × Memory :=
  match charge control (b.cancelled m.calls) m.steps with
  | .error e => (.error e, m)
  | .ok steps => (m.tape.read.mapError .outOfRange, { m with steps })

end Memory

/-- A program runs from one memory to another and ends there, well or with an error. -/
inductive Program.Runs (b : Behaviour) (control : Option Control) :
    Program → Memory → Except EvalError Unit → Memory → Prop
  | done {m : Memory} : Runs b control .done m (.ok ()) m
  | refused {c : Command} {position : Nat} {rest : Program} {m m' : Memory} {e : EvalError}
      (h : m.execute b control c position = (.error e, m')) :
      Runs b control (.command c position rest) m (.error e) m'
  | executed {c : Command} {position : Nat} {rest : Program} {m m' m'' : Memory}
      {r : Except EvalError Unit} (h : m.execute b control c position = (.ok (), m'))
      (hrest : Runs b control rest m' r m'') :
      Runs b control (.command c position rest) m r m''
  | untested {opening : Nat} {body rest : Program} {m m' : Memory} {e : EvalError}
      (h : m.test b control = (.error e, m')) :
      Runs b control (.loop opening body rest) m (.error e) m'
  | left {opening : Nat} {body rest : Program} {m m' m'' : Memory} {r : Except EvalError Unit}
      (h : m.test b control = (.ok 0, m')) (hrest : Runs b control rest m' r m'') :
      Runs b control (.loop opening body rest) m r m''
  | broken {opening : Nat} {body rest : Program} {m m' m'' : Memory} {cell : UInt8} {e : EvalError}
      (h : m.test b control = (.ok cell, m')) (hcell : cell ≠ 0)
      (hbody : Runs b control body m' (.error e) m'') :
      Runs b control (.loop opening body rest) m (.error e) m''
  | repeated {opening : Nat} {body rest : Program} {m m' m'' m''' : Memory} {cell : UInt8}
      {r : Except EvalError Unit} (h : m.test b control = (.ok cell, m')) (hcell : cell ≠ 0)
      (hbody : Runs b control body m' (.ok ()) m'')
      (hagain : Runs b control (.loop opening body rest) m'' r m''') :
      Runs b control (.loop opening body rest) m r m'''

/-- Running the program on a blank tape ends in `outcome`, having made `calls`. What ends well is
followed by a flush, at the position `stop`. -/
def Program.Evaluates (tree : Program) (b : Behaviour) (settings : Settings) (stop : Nat)
    (outcome : Outcome) (calls : List Call) : Prop :=
  ∃ r m, tree.Runs b settings.control (Memory.initial settings.capacity) r m ∧
    match r with
    | .error e => outcome = ⟨.error e, m.tape, m.steps⟩ ∧ calls = m.calls
    | .ok () =>
      outcome = ⟨(b.flush m.calls).mapError (.io stop), m.tape, m.steps⟩ ∧
        calls = m.calls ++ [.flush (b.flush m.calls)]

theorem Program.Runs.evaluates {tree : Program} {b : Behaviour} {settings : Settings}
    {r : Except EvalError Unit} {m : Memory}
    (h : tree.Runs b settings.control (Memory.initial settings.capacity) r m) (stop : Nat) :
    ∃ outcome calls, tree.Evaluates b settings stop outcome calls := by
  cases r with
  | error e => exact ⟨_, _, _, m, h, rfl, rfl⟩
  | ok u => exact ⟨_, _, _, m, h, rfl, rfl⟩

end TapeInterpreter
