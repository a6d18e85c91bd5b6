import TapeInterpreter.Proofs.DryPass
import TapeInterpreter.Proofs.Guards
import TapeInterpreter.Proofs.UnreadInput

/-!
# The echo program copies its input

The program reads a byte, and while that is not zero it writes the byte and reads the next one. So
at each test of the cell all bytes but the one in the cell have been written, and no byte behind it
has been read. Where the input ends decides how the program ends.
-/
namespace TapeInterpreter
set_option autoImplicit false

/-- Copy the input up to the first zero byte. -/
def echo : Source := Source.ofString ",[.,]"

/-- No step is refused: there is no control, or it has no limit and the cancel flag is down. -/
def Settings.Unrefused (settings : Settings) (cancelled : Bool) : Prop :=
  settings.control = none ∨ settings.control = some ⟨none⟩ ∧ cancelled = false

variable {settings : Settings} {code : Source} {cancelled : Bool} {s t : State} {b : Buffer}
  {byte : UInt8}

theorem Settings.Unrefused.charge (h : settings.Unrefused cancelled) (steps : Nat) :
    ∃ n, TapeInterpreter.charge settings.control cancelled steps = .ok n := by
  rcases h with hnone | ⟨hcontrol, rfl⟩
  · exact ⟨steps, by rw [hnone]; rfl⟩
  · exact ⟨steps + 1, by rw [hcontrol]; rfl⟩

/-! ## Steps on a buffer -/

theorem advance_read (h : settings.Unrefused cancelled) (hp : s.pass = .running)
    (hg : code.glyph? s.position = some (.command .read)) (hrange : s.tape.InRange) (byte : UInt8)
    (rest : List UInt8) (written : Array UInt8) :
    ∃ tape n, (Machine.over settings code).advance (Buffer.console cancelled) s
        ⟨byte :: rest, written⟩ =
        (.running { s with position := s.position + 1, tape := tape, steps := n },
          ⟨rest, written⟩) ∧
      tape.InRange ∧ tape.read = .ok byte := by
  obtain ⟨n, hn⟩ := h.charge s.steps
  obtain ⟨tape, htape, hread, hinrange, -⟩ := hrange.modify_seen .setting fun _ => byte
  refine ⟨tape, n, ?_, hinrange, hread⟩
  rw [Buffer.advance_over, State.step_of_command hg hp, State.command_eq, hn]
  have hstore : ∀ t : State, t.tape = s.tape → t.store byte = .running { t with tape := tape } := by
    intro t ht
    rw [State.store, ht, Tape.write, htape]
  simp only [Command.effect, Step.serve, Buffer.console, Buffer.pop, bind, StateT.bind, hstore]
  rfl

theorem advance_read_at_end (h : settings.Unrefused cancelled) (hp : s.pass = .running)
    (hg : code.glyph? s.position = some (.command .read)) (written : Array UInt8) :
    ∃ last, (Machine.over settings code).advance (Buffer.console cancelled) s ⟨[], written⟩ =
      (.halted ⟨.error (.endOfInput s.position), last⟩, ⟨[], written⟩) := by
  obtain ⟨n, hn⟩ := h.charge s.steps
  refine ⟨{ s with position := s.position + 1, steps := n }, ?_⟩
  rw [Buffer.advance_over, State.step_of_command hg hp, State.command_eq, hn]
  rfl

theorem advance_write (h : settings.Unrefused cancelled) (hp : s.pass = .running)
    (hg : code.glyph? s.position = some (.command .write)) (hbyte : s.tape.read = .ok byte)
    (b : Buffer) :
    ∃ n, (Machine.over settings code).advance (Buffer.console cancelled) s b =
      (.running { s with position := s.position + 1, steps := n }, b.push byte) := by
  obtain ⟨n, hn⟩ := h.charge s.steps
  refine ⟨n, ?_⟩
  rw [Buffer.advance_over, State.step_of_command hg hp, State.command_eq, hn, Command.effect, hbyte]
  rfl

theorem test_unrefused (h : settings.Unrefused cancelled) (hbyte : s.tape.read = .ok byte)
    (zero nonzero : State → State) :
    ∃ n, s.test settings cancelled zero nonzero =
      .silent (if byte = 0 then zero { s with steps := n } else nonzero { s with steps := n }) := by
  obtain ⟨n, hn⟩ := h.charge s.steps
  refine ⟨n, ?_⟩
  rw [State.test_eq, hn, hbyte]

theorem advance_of_silent (h : s.step .remembering settings code cancelled = .silent t)
    (b : Buffer) :
    (Machine.over settings code).advance (Buffer.console cancelled) s b = (.running t, b) := by
  rw [Buffer.advance_over, h]
  rfl

/-- A run that gets to where the machine halts comes to this halt. -/
theorem Machine.Reaches.halts {σ : Type} {machine : Machine} {console : Console (StateM σ)}
    {w x y : σ} {halt : Halt} (h : machine.Reaches console s w t x)
    (ha : machine.advance console t x = (.halted halt, y)) :
    ∃ n, machine.run console n s w = (some halt, y) := by
  obtain ⟨k, hk⟩ := h.leads
  exact ⟨0 + 1 + k, by rw [hk, run_of_halts ha]⟩

/-! ## The loop -/

namespace State

/-- At a bracket of the loop, about to test the current cell, which holds `byte`. -/
structure Tests (s : State) (byte : UInt8) : Prop where
  place : s.position = 1 ∧ s.frames = [] ∨ s.position = 4 ∧ s.frames = [⟨1, 1, .running⟩]
  inRange : s.tape.InRange
  cell : s.tape.read = .ok byte

/-- In the body of the loop, at `position`. -/
structure Inside (s : State) (position : Nat) : Prop where
  position : s.position = position
  frames : s.frames = [⟨1, 1, .running⟩]
  inRange : s.tape.InRange

theorem Inside.pass {position : Nat} (h : s.Inside position) : s.pass = .running := by
  rw [State.pass, h.frames]

end State

/-- How the loop ends that copies `input` behind what has been written before. -/
def Copies (input written : List UInt8) (stopped : Except EvalError Nat) (b : Buffer) : Prop :=
  match input.idxOf? 0 with
  | some k => stopped = .ok echo.size ∧ b.written.toList = written ++ input.take k ∧
      b.unread = input.drop (k + 1)
  | none => stopped = .error (.endOfInput 3) ∧ b.written.toList = written ++ input ∧ b.unread = []

theorem Copies.cons {input earlier : List UInt8} {stopped : Except EvalError Nat}
    (hne : byte ≠ 0) (h : Copies input (earlier ++ [byte]) stopped b) :
    Copies (byte :: input) earlier stopped b := by
  rw [Copies] at h ⊢
  rw [List.idxOf?_cons, if_neg (by simpa using hne)]
  cases hk : input.idxOf? 0 with
  | none =>
    rw [hk] at h
    simpa using h
  | some k =>
    rw [hk] at h
    simpa using h

section
variable (hu : settings.Unrefused cancelled) (hdepth : 0 < settings.maxDepth)
include hu hdepth

namespace State.Tests

/-- The step at either bracket tests the cell. -/
theorem tested (h : s.Tests byte) : ∃ n,
    (s.position = 1 ∧ s.frames = [] ∧ s.step .remembering settings echo cancelled = .silent
      (if byte = 0 then Resume.remembering.skip { s with steps := n }
        else { s with steps := n }.enter .running)) ∨
    (s.position = 4 ∧ s.frames = [⟨1, 1, .running⟩] ∧
      s.step .remembering settings echo cancelled = .silent
        (if byte = 0 then { s with steps := n }.leave ⟨1, 1, .running⟩ []
          else { s with steps := n }.goto 2)) := by
  rcases h.place with ⟨hposition, hframes⟩ | ⟨hposition, hframes⟩
  · have hg : echo.glyph? s.position = some .opening := by rw [hposition]; rfl
    have hp : s.pass = .running := by rw [pass, hframes]
    have hlevel : s.level < settings.maxDepth := by rwa [level, hframes]
    obtain ⟨n, hn⟩ := test_unrefused hu h.cell Resume.remembering.skip (enter · .running)
    exact ⟨n, Or.inl ⟨hposition, hframes, (step_of_opening hg hlevel hp).trans hn⟩⟩
  · have hg : echo.glyph? s.position = some .closing := by rw [hposition]; rfl
    obtain ⟨n, hn⟩ := test_unrefused hu h.cell (Resume.remembering.exit · ⟨1, 1, .running⟩ [])
      (goto · 2)
    exact ⟨n, Or.inr ⟨hposition, hframes, (step_of_closing hg hframes rfl).trans hn⟩⟩

/-- At either bracket a byte that is not zero leads into the body. -/
theorem nonzero (h : s.Tests byte) (hne : byte ≠ 0) (b : Buffer) :
    ∃ t, (Machine.over settings echo).Reaches (Buffer.console cancelled) s b t b ∧
      t.Inside 2 ∧ t.tape.read = .ok byte := by
  obtain ⟨n, ⟨hposition, hframes, hstep⟩ | ⟨hposition, hframes, hstep⟩⟩ := h.tested hu hdepth
  · rw [if_neg hne] at hstep
    refine ⟨_, .step (advance_of_silent hstep b) (.refl _ b),
      ⟨congrArg (· + 1) hposition, ?_, h.inRange⟩, h.cell⟩
    simp only [enter, hposition, hframes, level]
  · rw [if_neg hne] at hstep
    exact ⟨_, .step (advance_of_silent hstep b) (.refl _ b), ⟨rfl, hframes, h.inRange⟩, h.cell⟩

/-- At either bracket a zero leads behind the loop: the body is skipped, or it is left. -/
theorem zero (h : s.Tests 0) (hc : s.Consistent echo settings.maxDepth) (b : Buffer) :
    ∃ t, (Machine.over settings echo).Reaches (Buffer.console cancelled) s b t b ∧
      t.position = echo.size ∧ t.frames = [] := by
  obtain ⟨n, ⟨hposition, hframes, hstep⟩ | ⟨hposition, hframes, hstep⟩⟩ := h.tested hu hdepth
  · have hg : echo.glyph? s.position = some .opening := by rw [hposition]; rfl
    have hlevel : s.level < settings.maxDepth := by rwa [level, hframes]
    have hm : echo.Matches settings.maxDepth s.position 4 := by
      obtain ⟨d, hd⟩ := Nat.exists_eq_add_one.mpr hdepth
      rw [hposition, hd]
      exact ⟨rfl, [], rfl⟩
    rw [if_pos rfl] at hstep
    rcases skip_glides Resume.remembering_sound (hc.withTape s.tape n) hg hlevel with
      ⟨c, hm', closings, hglides, -⟩ | ⟨hno, -⟩
    · obtain rfl := hm.unique hm'
      exact ⟨_, .step (advance_of_silent hstep b) (hglides.reaches (Buffer.quiet cancelled) b), rfl,
        hframes⟩
    · exact absurd hm (hno 4)
  · rw [if_pos rfl] at hstep
    exact ⟨_, .step (advance_of_silent hstep b) (.refl _ b), congrArg (· + 1) hposition, rfl⟩

/-- With a zero in the cell the run is over, and nothing more is copied. -/
theorem stops (h : s.Tests 0) (hc : s.Consistent echo settings.maxDepth)
    (rest : List UInt8) (written : Array UInt8) :
    ∃ n halt b, (Machine.over settings echo).run (Buffer.console cancelled) n s ⟨rest, written⟩ =
      (some halt, b) ∧ Copies (0 :: rest) written.toList halt.stopped b := by
  obtain ⟨t, hreach, hposition, hframes⟩ := h.zero hu hdepth hc ⟨rest, written⟩
  have hend : (Machine.over settings echo).advance (Buffer.console cancelled) t ⟨rest, written⟩ =
      (.halted ⟨.ok echo.size, t⟩, ⟨rest, written⟩) := by
    have hg : echo[t.position]? = none := by rw [hposition]; rfl
    rw [Buffer.advance_over, step_of_end hg, stop, hframes]
    rfl
  obtain ⟨n, hrun⟩ := hreach.halts hend
  exact ⟨n, _, _, hrun, rfl, (List.append_nil _).symm, rfl⟩

/-- Any other byte is written, and then the next one is wanted. -/
theorem writes (h : s.Tests byte) (hne : byte ≠ 0) (b : Buffer) :
    ∃ t, (Machine.over settings echo).Reaches (Buffer.console cancelled) s b t (b.push byte) ∧
      t.Inside 3 := by
  obtain ⟨t, hreach, hinside, hcell⟩ := h.nonzero hu hdepth hne b
  have hg : echo.glyph? t.position = some (.command .write) := by rw [hinside.position]; rfl
  obtain ⟨n, hwrite⟩ := advance_write hu hinside.pass hg hcell b
  exact ⟨_, hreach.trans (.step hwrite (.refl _ _)), congrArg (· + 1) hinside.position,
    hinside.frames, hinside.inRange⟩

/-- From a test on the loop copies what is in the cell and what is unread behind it. -/
theorem copies (h : s.Tests byte) (hc : s.Consistent echo settings.maxDepth)
    (rest : List UInt8) (written : Array UInt8) :
    ∃ n halt b, (Machine.over settings echo).run (Buffer.console cancelled) n s ⟨rest, written⟩ =
      (some halt, b) ∧ Copies (byte :: rest) written.toList halt.stopped b := by
  induction rest generalizing s byte written with
  | nil =>
    by_cases hz : byte = 0
    · subst hz
      exact h.stops hu hdepth hc [] written
    · obtain ⟨t, hreach, hinside⟩ := h.writes hu hdepth hz ⟨[], written⟩
      have hg : echo.glyph? t.position = some (.command .read) := by rw [hinside.position]; rfl
      obtain ⟨last, hend⟩ := advance_read_at_end hu hinside.pass hg (written.push byte)
      obtain ⟨n, hrun⟩ := hreach.halts hend
      exact ⟨n, _, _, hrun, .cons hz ⟨by rw [hinside.position], by simp, rfl⟩⟩
  | cons next rest ih =>
    by_cases hz : byte = 0
    · subst hz
      exact h.stops hu hdepth hc (next :: rest) written
    · obtain ⟨t, hreach, hinside⟩ := h.writes hu hdepth hz ⟨next :: rest, written⟩
      have hg : echo.glyph? t.position = some (.command .read) := by rw [hinside.position]; rfl
      obtain ⟨tape, k, hread, hrange, hcell⟩ := advance_read hu hinside.pass hg hinside.inRange
        next rest (written.push byte)
      have hagain := hreach.trans (.step hread (.refl _ _))
      have htests : Tests { t with position := t.position + 1, tape := tape, steps := k } next :=
        ⟨Or.inr ⟨congrArg (· + 1) hinside.position, hinside.frames⟩, hrange, hcell⟩
      obtain ⟨n, halt, b, hrun, hcopies⟩ := ih htests
        (hc.reaches Resume.remembering_sound (Buffer.quiet cancelled) hagain) (written.push byte)
      -- One round lies behind the run, and the next test before it.
      obtain ⟨j, hleads⟩ := hagain.leads
      refine ⟨n + j, halt, b, (hleads n).trans hrun, .cons hz ?_⟩
      rw [Array.toList_push] at hcopies
      exact hcopies

end State.Tests

end

/-! ## The program -/

/-- The echo program copies its input up to the first zero byte, on every tape, as long as no step
is refused and a loop is permitted. If there is such a byte, it is read and all behind it stays
unread. If there is none, all of the input is copied, and the first read or the one in the loop
fails at its end. -/
theorem echo_copies_up_to_zero (settings : Settings) (cancelled : Bool) (input : List UInt8)
    (hu : settings.Unrefused cancelled) (hdepth : 0 < settings.maxDepth) :
    ∃ outcome b, EvaluatesOn settings cancelled echo input outcome b ∧
      match input.idxOf? 0 with
      | some k => outcome.result = .ok () ∧ b.written.toList = input.take k ∧
          b.unread = input.drop (k + 1)
      | none =>
        outcome.result = .error (.endOfInput (if input = [] then 0 else 3)) ∧
          b.written.toList = input ∧ b.unread = [] := by
  have hg : echo.glyph? (State.initial settings.capacity echo).position = some (.command .read) :=
    rfl
  cases input with
  | nil =>
    obtain ⟨last, hend⟩ := advance_read_at_end hu rfl hg #[]
    exact ⟨_, _, evaluatesOn_iff.mpr ⟨1, _, Machine.run_of_halts hend 0, rfl⟩, rfl, rfl, rfl⟩
  | cons byte rest =>
    obtain ⟨tape, k, hread, hrange, hcell⟩ := advance_read hu rfl hg
      (Tape.inRange_blank settings.capacity) byte rest #[]
    have hreach := Machine.Reaches.step hread (.refl _ _)
    have hconsistent := (State.Consistent.initial settings.capacity).reaches
      Resume.remembering_sound (Buffer.quiet cancelled) hreach
    obtain ⟨n, halt, b, hrun, hcopies⟩ := State.Tests.copies hu hdepth
      ⟨Or.inl ⟨rfl, rfl⟩, hrange, hcell⟩ hconsistent rest #[]
    refine ⟨_, b, evaluatesOn_iff.mpr ⟨n + 1, halt, ?_, rfl⟩, ?_⟩
    · exact (Machine.leads_of_advance hread n).trans hrun
    · obtain ⟨stopped, last⟩ := halt
      rw [Copies] at hcopies
      cases hk : (byte :: rest).idxOf? 0 with
      | none =>
        rw [hk] at hcopies
        obtain ⟨rfl, hwritten, hunread⟩ := hcopies
        exact ⟨rfl, hwritten, hunread⟩
      | some k =>
        rw [hk] at hcopies
        obtain ⟨rfl, hwritten, hunread⟩ := hcopies
        exact ⟨rfl, hwritten, hunread⟩

/-- Of two bytes, a zero and one more byte the first two are copied, on a tape of a single cell and
with steps that are counted. -/
theorem bytes_behind_a_zero_stay_unread :
    (Settings.Unrefused { capacity := 0, control := some ⟨none⟩ } false ∧ 0 < defaultMaxDepth) ∧
      ∃ outcome b, EvaluatesOn { capacity := 0, control := some ⟨none⟩ } false echo
          [104, 105, 0, 106] outcome b ∧
        outcome.result = .ok () ∧ b.written.toList = [104, 105] ∧ b.unread = [106] :=
  have hu : Settings.Unrefused { capacity := 0, control := some ⟨none⟩ } false := Or.inr ⟨rfl, rfl⟩
  ⟨⟨hu, by decide⟩, echo_copies_up_to_zero _ false [104, 105, 0, 106] hu (by decide)⟩

end TapeInterpreter
