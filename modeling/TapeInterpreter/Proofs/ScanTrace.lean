import TapeInterpreter.Proofs.Behaviour
import TapeInterpreter.Proofs.Consistency

/-!
# The scans of a run

The whole text is scanned once, and the body of a loop each time it is run or skipped: from behind
the opening bracket, up to the closing one. The trace of a run lists where scans start and where
they stop, in order; a scan that fails is the last one and never stops. It is read off the states
that the run visits.
-/
namespace TapeInterpreter
set_option autoImplicit false

/-- One pass over a text: where it starts, how many loops are open there, and what it does with the
commands it meets. -/
structure Scan where
  start : Nat
  level : Nat
  pass : Pass
  deriving DecidableEq, Repr

inductive ScanEvent where
  | started (scan : Scan)
  /-- The scan has come to the end of what it was to scan, at `position`. -/
  | returned (scan : Scan) (position : Nat)
  deriving DecidableEq, Repr

def ScanEvent.scan : ScanEvent → Scan
  | .started scan | .returned scan _ => scan

namespace State

/-- The innermost scan: that of the body of the innermost loop, or else of the whole text. -/
def scan (s : State) : Scan :=
  match s.frames with
  | [] => ⟨0, 0, .running⟩
  | f :: _ => ⟨f.opening + 1, f.level, f.pass⟩

/-- Where the innermost scan comes to an end at this state: at the closing bracket of its loop, or
behind the text. -/
def returns? (s : State) (code : Source) : Option Nat :=
  match s.frames, code.glyph? s.position with
  | [], none => some code.size
  | _ :: _, some .closing => some s.position
  | _, _ => none

/-- A scan starts where the run is at its first character. -/
def scanEvents (s : State) (code : Source) : List ScanEvent :=
  (if s.position = s.scan.start then [.started s.scan] else []) ++
    (s.returns? code).toList.map (.returned s.scan)

end State

variable {σ : Type}

/-- The states that a run from `s` visits within some steps of the machine, in order. -/
def Machine.visited (machine : Machine) (console : Console (StateM σ)) :
    Nat → State → σ → List State
  | 0, _, _ => []
  | n + 1, s, w =>
    s :: match machine.advance console s w with
      | (.running t, v) => machine.visited console n t v
      | (.halted _, _) => []

/-- The scans that an evaluation starts and ends within its patience. -/
def scanTrace (b : Behaviour) (settings : Settings) (code : Source) (patience : Nat) :
    List ScanEvent :=
  ((Machine.over settings code).visited b.console patience
    (State.initial settings.capacity code) []).flatMap (·.scanEvents code)

/-- The loop at 0 is skipped, with the loop at 1 in it, and the bracket at 6 closes nothing. -/
example : scanTrace .mute { capacity := 1 } (Source.ofString "[[.],]]") 9 =
    [.started ⟨0, 0, .running⟩, .started ⟨1, 1, .skipping⟩, .started ⟨2, 2, .skipping⟩,
      .returned ⟨2, 2, .skipping⟩ 3, .returned ⟨1, 1, .skipping⟩ 5] := by
  decide

variable {machine : Machine} {console : Console (StateM σ)} {code : Source} {maxDepth : Nat}
  {s t : State} {w v : σ} {event : ScanEvent}

namespace Machine

theorem reaches_of_visited {n : Nat} (h : t ∈ machine.visited console n s w) :
    ∃ v, machine.Reaches console s w t v := by
  induction n generalizing s w with
  | zero => cases h
  | succ n ih =>
    rw [visited] at h
    rcases List.mem_cons.mp h with rfl | h
    · exact ⟨w, .refl t w⟩
    · rcases ha : machine.advance console s w with ⟨u | halt, x⟩
      · rw [ha] at h
        obtain ⟨v, hreach⟩ := ih h
        exact ⟨v, .step ha hreach⟩
      · rw [ha] at h
        cases h

end Machine

/-- What is in the trace happens at a state that the run gets to. -/
theorem exists_of_mem_scanTrace {b : Behaviour} {settings : Settings} {patience : Nat}
    (h : event ∈ scanTrace b settings code patience) :
    ∃ s log, (Machine.over settings code).Reaches b.console
      (State.initial settings.capacity code) [] s log ∧ event ∈ s.scanEvents code := by
  obtain ⟨s, hs, hevent⟩ := List.mem_flatMap.mp h
  obtain ⟨log, hreach⟩ := Machine.reaches_of_visited hs
  exact ⟨s, log, hreach, hevent⟩

namespace State

/-- While a body is scanned its loop is open. -/
theorem mem_of_start {o : Nat} (h : s.scan.start = o + 1) : o ∈ s.frames.map Frame.opening := by
  unfold scan at h
  split at h
  · cases h
  · rename_i f outer hf
    rw [hf, ← Nat.succ.inj h]
    exact List.mem_cons_self

/-- The bracket of an open loop lies further to the left. -/
theorem Consistent.of_open {o : Nat} (h : s.Consistent code maxDepth)
    (ho : o ∈ s.frames.map Frame.opening) : o < s.position ∧ code.glyph? o = some .opening := by
  obtain ⟨comment, -, hx⟩ := h.context
  obtain ⟨inner, outer, hopened⟩ := List.append_of_mem ho
  rw [hopened] at hx
  obtain ⟨hlt, hg, -⟩ := Source.context_opened inner hx
  exact ⟨hlt, hg⟩

theorem returns_of_eq_some {p : Nat} (h : s.returns? code = some p) :
    (s.frames = [] ∧ p = code.size) ∨
      ∃ f outer, s.frames = f :: outer ∧ code.glyph? s.position = some .closing ∧
        p = s.position := by
  unfold returns? at h
  split at h
  · rename_i hf _
    cases h
    exact Or.inl ⟨hf, rfl⟩
  · rename_i f outer hf hg
    cases h
    exact Or.inr ⟨f, outer, hf, hg, rfl⟩
  · cases h

theorem mem_scanEvents :
    event ∈ s.scanEvents code ↔
      (s.position = s.scan.start ∧ event = .started s.scan) ∨
        ∃ p, s.returns? code = some p ∧ event = .returned s.scan p := by
  rw [scanEvents, List.mem_append, List.mem_map]
  refine or_congr ?_ (exists_congr fun p => and_congr Option.mem_toList eq_comm)
  split <;> simp [*]

theorem scan_of_mem (h : event ∈ s.scanEvents code) : event.scan = s.scan := by
  rcases mem_scanEvents.mp h with ⟨-, rfl⟩ | ⟨p, -, rfl⟩ <;> rfl

end State

end TapeInterpreter
