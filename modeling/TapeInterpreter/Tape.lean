/-!
A tape is a ring of byte cells under one cursor: motion wraps at both ends, cell arithmetic wraps
modulo 256. Motion is total. Every use of a cell is guarded by a bounds check, so a cursor that
indexes no cell is reported and never read through.
-/
namespace TapeInterpreter
set_option autoImplicit false

/-- What was being done to the current cell when the cursor did not index one. -/
inductive CellUse where
  | incrementing
  | decrementing
  | getting
  | setting
  deriving DecidableEq, Repr

/-- The word for a use of the current cell in a report. -/
def CellUse.word : CellUse → String
  | .incrementing => "incrementing"
  | .decrementing => "decrementing"
  | .getting => "getting"
  | .setting => "setting"

/-- A cursor at `index` on a tape of `capacity` cells that does not contain it. -/
structure OutOfRange where
  index : Nat
  capacity : Nat
  use : CellUse
  deriving DecidableEq, Repr

structure Tape where
  cells : Array UInt8
  cursor : Nat
  deriving DecidableEq, Repr

namespace Tape

/-- Number of cells of a tape whose size nobody chose. -/
def defaultCapacity : Nat := 32768

/-- A tape of zero cells with its cursor on cell 0. It has at least one cell. -/
def blank (capacity : Nat) : Tape where
  cells := Array.replicate (max capacity 1) 0
  cursor := 0

@[inline] def capacity (t : Tape) : Nat := t.cells.size

/-- One cell to the right; past the last cell comes cell 0. -/
@[inline] def advance (t : Tape) : Tape :=
  { t with cursor := (t.cursor + 1) % t.capacity }

/-- One cell to the left; before cell 0 comes the last cell. -/
@[inline] def retreat (t : Tape) : Tape :=
  { t with cursor := (t.cursor + t.capacity - 1) % t.capacity }

/-- The value of the current cell. -/
@[inline] def read (t : Tape) : Except OutOfRange UInt8 :=
  if h : t.cursor < t.cells.size then .ok t.cells[t.cursor]
  else .error ⟨t.cursor, t.capacity, .getting⟩

/-- Apply `f` to the current cell. -/
@[inline] def modify (t : Tape) (use : CellUse) (f : UInt8 → UInt8) : Except OutOfRange Tape :=
  if h : t.cursor < t.cells.size then
    .ok ⟨t.cells.set t.cursor (f t.cells[t.cursor]) h, t.cursor⟩
  else .error ⟨t.cursor, t.capacity, use⟩

@[inline] def increment (t : Tape) : Except OutOfRange Tape :=
  t.modify .incrementing (· + 1)

@[inline] def decrement (t : Tape) : Except OutOfRange Tape :=
  t.modify .decrementing (· - 1)

/-- Replace the value of the current cell. -/
@[inline] def write (t : Tape) (value : UInt8) : Except OutOfRange Tape :=
  t.modify .setting fun _ => value

/-- An operation on a tape. -/
inductive Op where
  | advance
  | retreat
  | increment
  | decrement
  | read
  | write (value : UInt8)
  deriving DecidableEq, Repr

/-- What an operation answers: the new cursor after motion, else the value of the current cell. -/
inductive Answer where
  | cursor (index : Nat)
  | cell (value : UInt8)
  deriving DecidableEq, Repr

/-- The tape after `op`, with the answer of `op`. -/
def perform (t : Tape) : Op → Except OutOfRange (Answer × Tape)
  | .advance => .ok (.cursor t.advance.cursor, t.advance)
  | .retreat => .ok (.cursor t.retreat.cursor, t.retreat)
  | .increment => do let t ← t.increment; return (.cell (← t.read), t)
  | .decrement => do let t ← t.decrement; return (.cell (← t.read), t)
  | .read => do return (.cell (← t.read), t)
  | .write value => do let t ← t.write value; return (.cell value, t)

/-- The tape after all of `ops`, in order, with the answer of each. -/
def performAll (t : Tape) : List Op → Except OutOfRange (List Answer × Tape)
  | [] => .ok ([], t)
  | op :: ops => do
    let (answer, t) ← t.perform op
    let (answers, t) ← t.performAll ops
    return (answer :: answers, t)

end Tape

end TapeInterpreter
