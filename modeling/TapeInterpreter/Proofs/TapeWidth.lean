import Mathlib.Data.Int.LeastGreatest
import TapeInterpreter.Proofs.Ring
import TapeInterpreter.Proofs.Simulation

/-!
# Programs that stay within the width of a tape

Seen by displacement, a run on a ring of any size touches a window of cells. While the window has
no more cells than two rings have, the runs on both are abreast: at each step the cursors have the
same displacement, and the cells of the window hold the same.
-/
namespace TapeInterpreter
set_option autoImplicit false

def Command.motion : Command → Int
  | .right => 1
  | .left => -1
  | _ => 0

/-- How far the next step moves the cursor, if it is not refused. A skipped command does not. -/
def State.motion (s : State) (code : Source) : Int :=
  match code.glyph? s.position with
  | some (.command c) =>
    match s.pass with
    | .running => c.motion
    | .skipping => 0
  | _ => 0

/-- The displacement of the cursor from where it was, after `n` steps of a run that then goes on. -/
def Machine.displacement? {σ : Type} (machine : Machine) (console : Console (StateM σ))
    (code : Source) : Nat → State → σ → Option Int
  | 0, _, _ => some 0
  | n + 1, s, w =>
    match machine.advance console s w with
    | (.running t, v) => (machine.displacement? console code n t v).map (s.motion code + ·)
    | (.halted _, _) => none

/-- Any two displacements that an evaluation reaches are less than `width` cells apart. -/
def StaysWithin (b : Behaviour) (settings : Settings) (code : Source) (width : Nat) : Prop :=
  ∀ m n d e,
    (Machine.over settings code).displacement? b.console code m
      (State.initial settings.capacity code) [] = some d →
    (Machine.over settings code).displacement? b.console code n
      (State.initial settings.capacity code) [] = some e →
    d - e < width

/-! ## Tapes that agree on a window -/

/-- Both cursors are at displacement `d`, and the `width` cells from displacement `low` on, of which
neither tape has fewer, hold the same on both. -/
structure Tape.Agree (low : Int) (width : Nat) (d : Int) (t u : Tape) : Prop where
  stands : t.StandsAt d
  stands' : u.StandsAt d
  fits : width ≤ t.capacity
  fits' : width ≤ u.capacity
  cells : ∀ e, low ≤ e → e < low + width → t.at? e = u.at? e

namespace Tape.Agree

variable {low d : Int} {width : Nat} {t u : Tape}

theorem blank {m n : Nat} (hm : width ≤ max m 1) (hn : width ≤ max n 1) (low : Int) :
    Agree low width 0 (.blank m) (.blank n) where
  stands := .blank m
  stands' := .blank n
  fits := by rw [capacity_blank]; exact hm
  fits' := by rw [capacity_blank]; exact hn
  cells e _ _ := by rw [at?_blank, at?_blank]

theorem advance (h : Agree low width d t u) : Agree low width (d + 1) t.advance u.advance :=
  ⟨h.stands.advance, h.stands'.advance, h.fits, h.fits', h.cells⟩

theorem retreat (h : Agree low width d t u) : Agree low width (d - 1) t.retreat u.retreat :=
  ⟨h.stands.retreat, h.stands'.retreat, h.fits, h.fits', h.cells⟩

/-- In the window both cursors are at a cell with the same value. -/
theorem cell (h : Agree low width d t u) (hlow : low ≤ d) (hhigh : d < low + width) :
    ∃ byte, t.at? d = some byte ∧ u.at? d = some byte :=
  ⟨_, h.stands.at?_eq, (h.cells d hlow hhigh).symm.trans h.stands.at?_eq⟩

theorem read (h : Agree low width d t u) (hlow : low ≤ d) (hhigh : d < low + width) :
    ∃ byte, t.read = .ok byte ∧ u.read = .ok byte := by
  obtain ⟨byte, ht, hu⟩ := h.cell hlow hhigh
  exact ⟨byte, h.stands.read ht, h.stands'.read hu⟩

theorem modify (h : Agree low width d t u) (hlow : low ≤ d) (hhigh : d < low + width)
    (use : CellUse) (f : UInt8 → UInt8) :
    ∃ t' u', t.modify use f = .ok t' ∧ u.modify use f = .ok u' ∧ Agree low width d t' u' := by
  obtain ⟨byte, ht, hu⟩ := h.cell hlow hhigh
  obtain ⟨t', ht', hstands, hsize, hcell, hother⟩ := h.stands.modify ht use f
  obtain ⟨u', hu', hstands', hsize', hcell', hother'⟩ := h.stands'.modify hu use f
  refine ⟨t', u', ht', hu', hstands, hstands', hsize ▸ h.fits, hsize' ▸ h.fits', ?_⟩
  intro e hle hlt
  have hfits := h.fits
  have hfits' := h.fits'
  by_cases he : e = d
  · rw [he, hcell, hcell']
  · rw [hother e he (abs_lt.mpr ⟨by omega, by omega⟩),
      hother' e he (abs_lt.mpr ⟨by omega, by omega⟩)]
    exact h.cells e hle hlt

end Tape.Agree

/-! ## Steps abreast -/

/-- Two states that differ in their tapes only, and those are related by `T`. -/
structure State.Twin (T : Tape → Tape → Prop) (s t : State) : Prop where
  tapes : T s.tape t.tape
  rest : t = { s with tape := t.tape }

/-- Two steps that ask the console for the same, and go on at states that `T` makes twins. -/
inductive Step.Twin (T : Tape → Tape → Prop) : Step → Step → Prop
  | silent {s t : State} (h : s.Twin T t) : Step.Twin T (.silent s) (.silent t)
  | write {byte : UInt8} {p : Nat} {s t : State} (h : s.Twin T t) :
      Step.Twin T (.write byte p s) (.write byte p t)
  | read {p : Nat} {s t : State}
      (h : ∀ byte, ∃ tape tape', s.tape.write byte = .ok tape ∧ t.tape.write byte = .ok tape' ∧
        State.Twin T { s with tape := tape } { t with tape := tape' })
      (hsteps : s.steps = t.steps) : Step.Twin T (.read p s) (.read p t)
  | failed {e : EvalError} {s t : State} (hsteps : s.steps = t.steps) :
      Step.Twin T (.failed e s) (.failed e t)
  | finished {p : Nat} {s t : State} (hsteps : s.steps = t.steps) :
      Step.Twin T (.finished p s) (.finished p t)

/-- The same end of two runs, behind the same number of steps. -/
def Halt.Twin (x y : Halt) : Prop := x.stopped = y.stopped ∧ x.last.steps = y.last.steps

/-- The console answers twin steps alike. -/
theorem Step.Twin.serve {σ : Type} {T : Tape → Tape → Prop} {a b : Step} (h : a.Twin T b)
    (console : Console (StateM σ)) (w : σ) :
    ∃ p q v, a.serve console w = (p, v) ∧ b.serve console w = (q, v) ∧
      Progress.Alike (State.Twin T) Halt.Twin p q := by
  cases h with
  | silent h => exact ⟨_, _, w, rfl, rfl, .running h⟩
  | failed hsteps => exact ⟨_, _, w, rfl, rfl, .halted ⟨rfl, hsteps⟩⟩
  | finished hsteps => exact ⟨_, _, w, rfl, rfl, .halted ⟨rfl, hsteps⟩⟩
  | @write byte p s t h =>
    have hsteps : s.steps = t.steps := by rw [h.rest]
    simp only [Step.serve, bind, StateT.bind]
    rcases console.write byte w with ⟨fault | _, v⟩
    · exact ⟨_, _, v, rfl, rfl, .halted ⟨rfl, hsteps⟩⟩
    · exact ⟨_, _, v, rfl, rfl, .running h⟩
  | @read p s t h hsteps =>
    simp only [Step.serve, bind, StateT.bind]
    rcases console.read w with ⟨fault | _ | byte, v⟩
    · exact ⟨_, _, v, rfl, rfl, .halted ⟨rfl, hsteps⟩⟩
    · exact ⟨_, _, v, rfl, rfl, .halted ⟨rfl, hsteps⟩⟩
    · obtain ⟨tape, tape', htape, htape', htwin⟩ := h byte
      simp only [State.store, htape, htape']
      exact ⟨_, _, v, rfl, rfl, .running htwin⟩

namespace State

variable {s t : State} {settings : Settings} {code : Source} {cancelled : Bool} {low d : Int}
  {width : Nat}

/-- In the window a command does the same on both tapes. -/
theorem command_twin (h : s.Twin (Tape.Agree low width d) t) (hlow : low ≤ d)
    (hhigh : d < low + width) (c : Command) :
    (s.command settings cancelled c).Twin (Tape.Agree low width (d + c.motion))
      (t.command settings cancelled c) := by
  obtain ⟨u, rfl⟩ : ∃ u, t = { s with tape := u } := ⟨_, h.rest⟩
  have htapes : Tape.Agree low width d s.tape u := h.tapes
  rw [command_eq, command_eq]
  cases charge settings.control cancelled s.steps with
  | error e => exact .failed rfl
  | ok n =>
    -- A command that is no motion keeps the displacement, which is then `d + 0`.
    have hstay : d + 0 = d := Int.add_zero d
    cases c with
    | right => exact .silent ⟨htapes.advance, rfl⟩
    | left => exact .silent ⟨htapes.retreat, rfl⟩
    | increment =>
      obtain ⟨tape, tape', htape, htape', hagree⟩ := htapes.modify hlow hhigh .incrementing (· + 1)
      simp only [Command.effect, Tape.increment, htape, htape', Except.map]
      exact .silent ⟨hstay.symm ▸ hagree, rfl⟩
    | decrement =>
      obtain ⟨tape, tape', htape, htape', hagree⟩ := htapes.modify hlow hhigh .decrementing (· - 1)
      simp only [Command.effect, Tape.decrement, htape, htape', Except.map]
      exact .silent ⟨hstay.symm ▸ hagree, rfl⟩
    | write =>
      obtain ⟨byte, hbyte, hbyte'⟩ := htapes.read hlow hhigh
      simp only [Command.effect, hbyte, hbyte', Except.map]
      exact .write ⟨hstay.symm ▸ htapes, rfl⟩
    | read =>
      refine .read (fun byte => ?_) rfl
      obtain ⟨tape, tape', htape, htape', hagree⟩ := htapes.modify hlow hhigh .setting fun _ => byte
      exact ⟨tape, tape', htape, htape', hstay.symm ▸ hagree, rfl⟩

/-- In the window a test comes to the same on both tapes. -/
theorem test_twin (h : s.Twin (Tape.Agree low width d) t) (hlow : low ≤ d)
    (hhigh : d < low + width) {zero nonzero : State → State}
    (hzero : ∀ s t, s.Twin (Tape.Agree low width d) t →
      (zero s).Twin (Tape.Agree low width d) (zero t))
    (hnonzero : ∀ s t, s.Twin (Tape.Agree low width d) t →
      (nonzero s).Twin (Tape.Agree low width d) (nonzero t)) :
    (s.test settings cancelled zero nonzero).Twin (Tape.Agree low width d)
      (t.test settings cancelled zero nonzero) := by
  obtain ⟨u, rfl⟩ : ∃ u, t = { s with tape := u } := ⟨_, h.rest⟩
  obtain ⟨byte, hbyte, hbyte'⟩ := h.tapes.read hlow hhigh
  rw [test_eq, test_eq]
  cases charge settings.control cancelled s.steps with
  | error e => exact .failed rfl
  | ok n =>
    have htwin : State.Twin (Tape.Agree low width d) { s with steps := n }
      { s with tape := u, steps := n } := ⟨h.tapes, rfl⟩
    simp only [hbyte, hbyte']
    by_cases hzero? : byte = 0
    · simp only [if_pos hzero?]
      exact .silent (hzero _ _ htwin)
    · simp only [if_neg hzero?]
      exact .silent (hnonzero _ _ htwin)

section Twin

variable {T : Tape → Tape → Prop}

theorem Twin.goto (h : s.Twin T t) (position : Nat) :
    (s.goto position).Twin T (t.goto position) :=
  ⟨h.tapes, congrArg (State.goto · position) h.rest⟩

theorem Twin.enter (h : s.Twin T t) (pass : Pass) : (s.enter pass).Twin T (t.enter pass) :=
  ⟨h.tapes, congrArg (State.enter · pass) h.rest⟩

theorem Twin.leave (h : s.Twin T t) (f : Frame) (outer : List Frame) :
    (s.leave f outer).Twin T (t.leave f outer) :=
  ⟨h.tapes, congrArg (State.leave · f outer) h.rest⟩

theorem Twin.skip (h : s.Twin T t) : s.skip.Twin T t.skip := by
  have hclosing : t.closing? t.position = s.closing? s.position := by rw [h.rest]; rfl
  simp only [State.skip, hclosing]
  cases s.closing? s.position with
  | none => exact h.enter .skipping
  | some closing => exact h.goto (closing + 1)

end Twin

/-- While the cursor is in the window, the next step comes to the same on both tapes and moves both
cursors alike. It may well move them out of the window. -/
theorem step_twin (h : s.Twin (Tape.Agree low width d) t) (hlow : low ≤ d)
    (hhigh : d < low + width) (settings : Settings) (code : Source) (cancelled : Bool) :
    (s.step .remembering settings code cancelled).Twin
      (Tape.Agree low width (d + s.motion code))
      (t.step .remembering settings code cancelled) := by
  -- But for their tapes the states are one, so both steps take the same branch.
  have hposition : t.position = s.position := by rw [h.rest]
  have hframes : t.frames = s.frames := by rw [h.rest]
  have hsteps : s.steps = t.steps := by rw [h.rest]
  have hpass : t.pass = s.pass := by rw [pass, pass, hframes]
  have hlevel : t.level = s.level := by rw [level, level, hframes]
  cases hc : code[s.position]? with
  | none =>
    rw [step_of_end hc, step_of_end (hposition ▸ hc), stop, stop, hframes]
    cases s.frames with
    | nil => exact .finished hsteps
    | cons f outer => exact .failed hsteps
  | some char =>
    have hg : code.glyph? s.position = some (Glyph.ofChar char) := by rw [Source.glyph?, hc]; rfl
    have hnext : s.next.Twin (Tape.Agree low width d) t.next := by
      rw [next, next, hposition]
      exact h.goto (s.position + 1)
    rw [step_of_char hc, step_of_char (hposition ▸ hc), motion, hg, hposition, hpass]
    cases Glyph.ofChar char with
    | blank => exact (Int.add_zero d).symm ▸ .silent hnext
    | comment => exact (Int.add_zero d).symm ▸ .silent (h.goto _)
    | foreign => exact .failed hsteps
    | command c =>
      cases s.pass with
      | running => exact command_twin h hlow hhigh c
      | skipping => exact (Int.add_zero d).symm ▸ .silent hnext
    | opening =>
      simp only [openLoop, hpass, hlevel, hposition, Int.add_zero]
      by_cases hd : settings.maxDepth ≤ s.level
      · simp only [if_pos hd]
        exact .failed hsteps
      · simp only [if_neg hd]
        cases s.pass with
        | skipping => exact .silent h.skip
        | running =>
          exact test_twin h hlow hhigh (fun _ _ h => h.skip) fun _ _ h => h.enter .running
    | closing =>
      simp only [closeLoop, hframes, hposition, Int.add_zero]
      cases s.frames with
      | nil => exact .failed hsteps
      | cons f outer =>
        cases hp : f.pass with
        | skipping =>
          simp only [hp]
          exact .silent (h.leave f outer)
        | running =>
          simp only [hp]
          exact test_twin h hlow hhigh (fun _ _ h => h.leave f outer)
            fun _ _ h => h.goto (f.opening + 1)

end State

/-! ## Runs abreast -/

variable {b : Behaviour} {settings : Settings} {code : Source} {s t : State} {low d : Int}
  {width : Nat} {log log' : List Call}

/-- From `s`, where the cursor is at `d`, a run keeps it in the window. -/
def Roams (b : Behaviour) (settings : Settings) (code : Source) (low : Int) (width : Nat) (d : Int)
    (s : State) (log : List Call) : Prop :=
  ∀ n e, (Machine.over settings code).displacement? b.console code n s log = some e →
    low ≤ d + e ∧ d + e < low + width

theorem Roams.here (h : Roams b settings code low width d s log) : low ≤ d ∧ d < low + width := by
  have hzero := h 0 0 rfl
  rwa [Int.add_zero] at hzero

theorem Roams.next (h : Roams b settings code low width d s log)
    (hs : (Machine.over settings code).advance b.console s log = (.running t, log')) :
    Roams b settings code low width (d + s.motion code) t log' := by
  intro n e he
  rw [Int.add_assoc]
  refine h (n + 1) (s.motion code + e) ?_
  rw [Machine.displacement?, hs]
  simp only [he, Option.map_some]

/-- The least displacement that is reached is where the window begins. -/
theorem StaysWithin.exists_window (h : StaysWithin b settings code width) :
    ∃ low, Roams b settings code low width 0 (State.initial settings.capacity code) [] := by
  have hbelow : ∃ bound : Int, ∀ e, (∃ n, (Machine.over settings code).displacement? b.console code
      n (State.initial settings.capacity code) [] = some e) → bound ≤ e := by
    refine ⟨-width, ?_⟩
    rintro e ⟨n, hn⟩
    have hlt := h 0 n 0 e rfl hn
    omega
  obtain ⟨low, ⟨n, hn⟩, hleast⟩ := Int.exists_least_of_bdd hbelow ⟨0, 0, rfl⟩
  -- Both bounds speak of the least displacement: one as the least, the other as one of two.
  refine ⟨low, fun m e he => ?_⟩
  have hle := hleast e ⟨m, he⟩
  have hlt := h m n e low he hn
  omega

/-- Two runs behind the same calls, whose cursors have the same displacement in a window that the
first run does not leave. -/
def WithinWindow (b : Behaviour) (settings : Settings) (code : Source) (low : Int) (width : Nat)
    (s : State) (log : List Call) (t : State) (log' : List Call) : Prop :=
  log = log' ∧ ∃ d, s.Twin (Tape.Agree low width d) t ∧ Roams b settings code low width d s log

theorem advance_twin (h : WithinWindow b settings code low width s log t log') :
    ∃ p v q v', (Machine.over settings code).advance b.console s log = (p, v) ∧
      (Machine.over settings code).advance b.console t log' = (q, v') ∧
      Progress.Alike (WithinWindow b settings code low width · v · v')
        (fun x y => x.Twin y ∧ v = v') p q := by
  obtain ⟨rfl, d, htwin, hroams⟩ := h
  obtain ⟨hlow, hhigh⟩ := hroams.here
  obtain ⟨p, q, v, hp, hq, halike⟩ :=
    (State.step_twin htwin hlow hhigh settings code (b.cancelled log)).serve b.console log
  rw [← advance_over] at hp hq
  refine ⟨p, v, q, v, hp, hq, ?_⟩
  cases halike with
  | running htwin => exact .running ⟨rfl, _, htwin, hroams.next hp⟩
  | halted hhalt => exact .halted ⟨hhalt, rfl⟩

theorem Halt.Twin.conclude {x y : Halt} (h : x.Twin y) (b : Behaviour) (code : Source)
    (log : List Call) :
    (x.conclude b.console code log).2 = (y.conclude b.console code log).2 ∧
      (x.conclude b.console code log).1.result = (y.conclude b.console code log).1.result ∧
      (x.conclude b.console code log).1.steps = (y.conclude b.console code log).1.steps := by
  obtain ⟨stopped, s⟩ := x
  obtain ⟨stopped', t⟩ := y
  obtain ⟨rfl, hsteps⟩ : stopped = stopped' ∧ s.steps = t.steps := h
  cases stopped with
  | error e => exact ⟨rfl, rfl, hsteps⟩
  | ok p =>
    simp only [Halt.conclude]
    split
    · exact ⟨rfl, rfl, hsteps⟩
    · exact ⟨rfl, rfl, hsteps⟩

/-- A program that stays within the width of two tapes cannot tell them apart: it makes the same
calls, counts the same steps and comes to the same result, or to none, on both. -/
theorem narrow_runs_cannot_tell_tapes_apart (b : Behaviour) (settings : Settings) (code : Source)
    (capacity : Nat)
    (h : StaysWithin b settings code (min (max settings.capacity 1) (max capacity 1)))
    (patience : Nat) :
    let (outcome, calls) := evaluate b.console settings code patience []
    let (outcome', calls') :=
      evaluate b.console { settings with capacity := capacity } code patience []
    calls' = calls ∧ outcome'.map (fun o => (o.result, o.steps)) =
      outcome.map fun o => (o.result, o.steps) := by
  obtain ⟨low, hroams⟩ := h.exists_window
  have hstart : WithinWindow b settings code low (min (max settings.capacity 1) (max capacity 1))
      (State.initial settings.capacity code) [] (State.initial capacity code) [] :=
    ⟨rfl, 0, ⟨.blank (Nat.min_le_left ..) (Nat.min_le_right ..) low, rfl⟩, hroams⟩
  have hover : Machine.over { settings with capacity := capacity } code =
    Machine.over settings code := rfl
  rw [evaluate_eq_scan, evaluate_eq_scan, hover]
  obtain ⟨v, v', ⟨ha, hb, -, -, rfl, -⟩ | ⟨x, y, ha, hb, hhalt, rfl⟩ | ⟨-, -, -, -, -, hfalse⟩⟩ :=
    Machine.run_abreast (E := fun _ _ _ _ => False) (fun _ _ _ _ h => Or.inl (advance_twin h))
      patience hstart
  · rw [Machine.scan_of_running ha, Machine.scan_of_running hb]
    exact ⟨rfl, rfl⟩
  · obtain ⟨hcalls, hresult, hsteps⟩ := hhalt.conclude b code v
    rw [Machine.scan_of_halted ha, Machine.scan_of_halted hb]
    simp only [hcalls, Option.map_some, hresult, hsteps, and_self]
  · exact hfalse.elim

/-- The cursor goes below cell 0, and the byte is written from the last cell of two or of five. -/
theorem wrapped_write_is_alike_on_two_and_five_cells :
    StaysWithin .mute { capacity := 2 } (Source.ofString "<+.>") 2 ∧ ∀ patience,
      let (outcome, calls) :=
        evaluate Behaviour.mute.console { capacity := 2 } (Source.ofString "<+.>") patience []
      let (outcome', calls') :=
        evaluate Behaviour.mute.console { capacity := 5 } (Source.ofString "<+.>") patience []
      calls' = calls ∧ outcome'.map (fun o => (o.result, o.steps)) =
        outcome.map fun o => (o.result, o.steps) := by
  have hreached : ∀ n d, (Machine.over { capacity := 2 } (Source.ofString "<+.>")).displacement?
      Behaviour.mute.console (Source.ofString "<+.>") n
      (State.initial 2 (Source.ofString "<+.>")) [] = some d → -1 ≤ d ∧ d ≤ 0 := by
    intro n d h
    match n with
    | 0 => cases h; decide
    | 1 => cases h; decide
    | 2 => cases h; decide
    | 3 => cases h; decide
    | 4 => cases h; decide
    | n + 5 => cases h
  have hwithin : StaysWithin .mute { capacity := 2 } (Source.ofString "<+.>") 2 := by
    intro m n d e hd he
    have hd := hreached m d hd
    have he := hreached n e he
    omega
  exact ⟨hwithin, narrow_runs_cannot_tell_tapes_apart .mute { capacity := 2 } _ 5 hwithin⟩

end TapeInterpreter
