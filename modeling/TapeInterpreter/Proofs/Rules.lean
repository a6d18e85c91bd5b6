import TapeInterpreter.Machine.Step
import TapeInterpreter.Proofs.Context

/-!
# The rules of a step

Every step follows one of the rules listed here, with the conditions under which it applies.
Invariants and simulations go through this list and never open the step itself.
-/
namespace TapeInterpreter
set_option autoImplicit false

/-- The count of steps after one more, unless the run is to stop there. -/
def charge (control : Option Control) (cancelled : Bool) (steps : Nat) : Except EvalError Nat :=
  match control with
  | none => .ok steps
  | some c =>
    if cancelled then .error .cancelled
    else match c.maxSteps with
      | none => .ok (steps + 1)
      | some limit => if limit ≤ steps then .error (.stepLimitExceeded limit) else .ok (steps + 1)

/-- What a command does to a tape, or asks of the console. -/
inductive Effect where
  | changed (tape : Tape)
  | written (byte : UInt8)
  | wanted

def Command.effect (tape : Tape) : Command → Except OutOfRange Effect
  | .right => .ok (.changed tape.advance)
  | .left => .ok (.changed tape.retreat)
  | .increment => tape.increment.map .changed
  | .decrement => tape.decrement.map .changed
  | .write => tape.read.map .written
  | .read => .ok .wanted

/-- The text of a source decides whether an error of this kind is reported. -/
def EvalError.isSyntax : EvalError → Bool
  | .unexpectedCharacter .. | .unmatched .. | .nestingTooDeep .. => true
  | _ => false

theorem charge_error {control : Option Control} {cancelled : Bool} {steps : Nat} {e : EvalError}
    (h : charge control cancelled steps = .error e) :
    e = .cancelled ∨ ∃ limit, e = .stepLimitExceeded limit := by
  unfold charge at h
  split at h
  · cases h
  · split at h
    · cases h; exact Or.inl rfl
    · split at h
      · cases h
      · split at h
        · cases h; exact Or.inr ⟨_, rfl⟩
        · cases h

/-- While the cancel flag is down no step is refused on account of it. -/
theorem charge_ne_cancelled (control : Option Control) (steps : Nat) :
    charge control false steps ≠ .error .cancelled := by
  intro h
  simp only [charge, Bool.false_eq_true, if_false] at h
  repeat' split at h
  all_goals cases h

/-- The state at which a run goes on after a step, if it does and the console does not fail. -/
def Step.next? : Step → Option State
  | .silent t | .write _ _ t | .read _ t => some t
  | .failed .. | .finished .. => none

namespace State

variable {s t : State} {resume : Resume} {settings : Settings} {code : Source} {cancelled : Bool}

theorem tick_eq (control : Option Control) :
    s.tick control cancelled =
      (charge control cancelled s.steps).map fun n => { s with steps := n } := by
  unfold tick charge
  cases control with
  | none => rfl
  | some c =>
    cases cancelled with
    | true => rfl
    | false =>
      obtain ⟨_ | limit⟩ := c
      · rfl
      · by_cases hl : limit ≤ s.steps
        · simp only [Bool.false_eq_true, if_false, if_pos hl, Except.map]
        · simp only [Bool.false_eq_true, if_false, if_neg hl, Except.map]

theorem command_eq (c : Command) :
    s.command settings cancelled c =
      match charge settings.control cancelled s.steps with
      | .error e => .failed e s
      | .ok n =>
        match c.effect s.tape with
        | .error e => .failed (.outOfRange e) { s with steps := n }
        | .ok (.changed tape) =>
          .silent { s with position := s.position + 1, tape := tape, steps := n }
        | .ok (.written byte) =>
          .write byte s.position { s with position := s.position + 1, steps := n }
        | .ok .wanted => .read s.position { s with position := s.position + 1, steps := n } := by
  rw [command, tick_eq]
  cases charge settings.control cancelled s.steps with
  | error e => rfl
  | ok n =>
    cases c with
    | right => rfl
    | left => rfl
    | read => rfl
    | increment => simp only [Except.map, Command.effect]; cases s.tape.increment <;> rfl
    | decrement => simp only [Except.map, Command.effect]; cases s.tape.decrement <;> rfl
    | write => simp only [Except.map, Command.effect]; cases s.tape.read <;> rfl

theorem test_eq (zero nonzero : State → State) :
    s.test settings cancelled zero nonzero =
      match charge settings.control cancelled s.steps with
      | .error e => .failed e s
      | .ok n =>
        match s.tape.read with
        | .error e => .failed (.outOfRange e) { s with steps := n }
        | .ok cell =>
          .silent
            (if cell = 0 then zero { s with steps := n } else nonzero { s with steps := n }) := by
  rw [test, tick_eq]
  cases charge settings.control cancelled s.steps <;> rfl

theorem step_of_end (h : code[s.position]? = none) :
    s.step resume settings code cancelled = s.stop code := by
  unfold step
  split
  · rfl
  · rename_i hsome
    cases hsome.symm.trans h

theorem step_of_char {char : Char} (h : code[s.position]? = some char) :
    s.step resume settings code cancelled =
      match Glyph.ofChar char with
      | .blank => .silent s.next
      | .comment => .silent (s.goto (code.lineEnd s.position + 1))
      | .opening => s.openLoop resume settings cancelled
      | .closing => s.closeLoop resume settings cancelled
      | .command c =>
        match s.pass with
        | .skipping => .silent s.next
        | .running => s.command settings cancelled c
      | .foreign => .failed (.unexpectedCharacter char s.position) s := by
  unfold step
  split
  · rename_i hnone
    cases hnone.symm.trans h
  · rename_i hsome
    cases hsome.symm.trans h
    rfl

theorem step_of_blank (h : code.glyph? s.position = some .blank) :
    s.step resume settings code cancelled = .silent s.next := by
  obtain ⟨char, hc, hg⟩ := Source.exists_of_glyph? h
  rw [step_of_char hc, hg]

theorem step_of_comment (h : code.glyph? s.position = some .comment) :
    s.step resume settings code cancelled = .silent (s.goto (code.lineEnd s.position + 1)) := by
  obtain ⟨char, hc, hg⟩ := Source.exists_of_glyph? h
  rw [step_of_char hc, hg]

theorem step_of_command {c : Command} (h : code.glyph? s.position = some (.command c))
    (hp : s.pass = .running) :
    s.step resume settings code cancelled = s.command settings cancelled c := by
  obtain ⟨char, hc, hg⟩ := Source.exists_of_glyph? h
  rw [step_of_char hc, hg, hp]

theorem step_of_opening (h : code.glyph? s.position = some .opening)
    (hd : s.level < settings.maxDepth) (hp : s.pass = .running) :
    s.step resume settings code cancelled =
      s.test settings cancelled resume.skip (enter · .running) := by
  obtain ⟨char, hc, hg⟩ := Source.exists_of_glyph? h
  rw [step_of_char hc, hg]
  simp only [openLoop, if_neg (Nat.not_le.mpr hd), hp]

theorem step_of_closing {f : Frame} {outer : List Frame}
    (h : code.glyph? s.position = some .closing) (hf : s.frames = f :: outer)
    (hp : f.pass = .running) :
    s.step resume settings code cancelled =
      s.test settings cancelled (resume.exit · f outer) (goto · (f.opening + 1)) := by
  obtain ⟨char, hc, hg⟩ := Source.exists_of_glyph? h
  rw [step_of_char hc, hg]
  simp only [closeLoop, hf, hp]

/-- The rules of a step from `s`. -/
inductive Rule (resume : Resume) (settings : Settings) (code : Source) (cancelled : Bool)
    (s : State) : Step → Prop
  | finished (hg : code.glyph? s.position = none) (hf : s.frames = []) :
      Rule resume settings code cancelled s (.finished code.size s)
  | unclosed {f : Frame} {outer : List Frame} (hg : code.glyph? s.position = none)
      (hf : s.frames = f :: outer) :
      Rule resume settings code cancelled s (.failed (.unmatched .opening f.opening) s)
  | blank (hg : code.glyph? s.position = some .blank) :
      Rule resume settings code cancelled s (.silent s.next)
  | comment (hg : code.glyph? s.position = some .comment) :
      Rule resume settings code cancelled s (.silent (s.goto (code.lineEnd s.position + 1)))
  | foreign {c : Char} (hc : code[s.position]? = some c) (hg : Glyph.ofChar c = .foreign) :
      Rule resume settings code cancelled s (.failed (.unexpectedCharacter c s.position) s)
  | passed {c : Command} (hg : code.glyph? s.position = some (.command c))
      (hp : s.pass = .skipping) : Rule resume settings code cancelled s (.silent s.next)
  | executed {c : Command} (hg : code.glyph? s.position = some (.command c))
      (hp : s.pass = .running) :
      Rule resume settings code cancelled s (s.command settings cancelled c)
  | tooDeep (hg : code.glyph? s.position = some .opening) (hd : settings.maxDepth ≤ s.level) :
      Rule resume settings code cancelled s
        (.failed (.nestingTooDeep s.position settings.maxDepth) s)
  | skipped (hg : code.glyph? s.position = some .opening) (hd : s.level < settings.maxDepth)
      (hp : s.pass = .skipping) : Rule resume settings code cancelled s (.silent (resume.skip s))
  | opened (hg : code.glyph? s.position = some .opening) (hd : s.level < settings.maxDepth)
      (hp : s.pass = .running) :
      Rule resume settings code cancelled s
        (s.test settings cancelled resume.skip (enter · .running))
  | unopened (hg : code.glyph? s.position = some .closing) (hf : s.frames = []) :
      Rule resume settings code cancelled s (.failed (.unmatched .closing s.position) s)
  | left {f : Frame} {outer : List Frame} (hg : code.glyph? s.position = some .closing)
      (hf : s.frames = f :: outer) (hp : f.pass = .skipping) :
      Rule resume settings code cancelled s (.silent (resume.leave s f outer))
  | closed {f : Frame} {outer : List Frame} (hg : code.glyph? s.position = some .closing)
      (hf : s.frames = f :: outer) (hp : f.pass = .running) :
      Rule resume settings code cancelled s
        (s.test settings cancelled (resume.exit · f outer) (goto · (f.opening + 1)))

/-- Every step follows a rule. -/
theorem rule (s : State) (resume : Resume) (settings : Settings) (code : Source)
    (cancelled : Bool) :
    Rule resume settings code cancelled s (s.step resume settings code cancelled) := by
  unfold step
  split
  · rename_i hc
    have hg : code.glyph? s.position = none := by rw [Source.glyph?, hc]; rfl
    unfold stop
    split
    · rename_i hf
      exact .finished hg hf
    · rename_i f outer hf
      exact .unclosed hg hf
  · rename_i char hc
    have hglyph : code.glyph? s.position = some (Glyph.ofChar char) := by
      rw [Source.glyph?, hc]; rfl
    split
    · rename_i hg
      exact .blank (hglyph.trans (congrArg some hg))
    · rename_i hg
      exact .comment (hglyph.trans (congrArg some hg))
    · rename_i hg
      rw [hg] at hglyph
      unfold openLoop
      split
      · rename_i hd
        exact .tooDeep hglyph hd
      · rename_i hd
        have hd := Nat.lt_of_not_le hd
        split
        · rename_i hp
          exact .skipped hglyph hd hp
        · rename_i hp
          exact .opened hglyph hd hp
    · rename_i hg
      rw [hg] at hglyph
      unfold closeLoop
      split
      · rename_i hf
        exact .unopened hglyph hf
      · rename_i f outer hf
        split
        · rename_i hp
          exact .left hglyph hf hp
        · rename_i hp
          exact .closed hglyph hf hp
    · rename_i c hg
      rw [hg] at hglyph
      split
      · rename_i hp
        exact .passed hglyph hp
      · rename_i hp
        exact .executed hglyph hp
    · rename_i hg
      exact .foreign hc hg

theorem pass_of_frames {f : Frame} {outer : List Frame} (hf : s.frames = f :: outer) :
    s.pass = f.pass := by
  rw [pass, hf]

/-- The rules of a step from `s` in the body of the loop `f`, the innermost one, which is being
skipped. -/
inductive DryRule (resume : Resume) (settings : Settings) (code : Source) (s : State) (f : Frame)
    (outer : List Frame) : Step → Prop
  | failed {e : EvalError} (he : e.isSyntax = true) :
      DryRule resume settings code s f outer (.failed e s)
  | passed {position : Nat} (hlt : s.position < position) (hsize : s.position < code.size) :
      DryRule resume settings code s f outer (.silent (s.goto position))
  | skipped (hg : code.glyph? s.position = some .opening) (hd : s.level < settings.maxDepth) :
      DryRule resume settings code s f outer (.silent (resume.skip s))
  | left (hg : code.glyph? s.position = some .closing) :
      DryRule resume settings code s f outer (.silent (resume.leave s f outer))

/-- Every step in a body that is being skipped follows one of them. -/
theorem dryRule {f : Frame} {outer : List Frame} (hf : s.frames = f :: outer)
    (hp : f.pass = .skipping) (resume : Resume) (settings : Settings) (code : Source)
    (cancelled : Bool) :
    DryRule resume settings code s f outer (s.step resume settings code cancelled) := by
  have hpass : s.pass = .skipping := (pass_of_frames hf).trans hp
  have hrule := s.rule resume settings code cancelled
  generalize s.step resume settings code cancelled = r at hrule
  cases hrule with
  | finished hg hnil => rw [hf] at hnil; cases hnil
  | unclosed => exact .failed rfl
  | blank hg => exact .passed (Nat.lt_succ_self _) (Source.lt_size_of_glyph? hg)
  | comment hg =>
    have hle := code.le_lineEnd s.position
    exact .passed (Nat.lt_succ_of_le hle) (Source.lt_size_of_glyph? hg)
  | foreign => exact .failed rfl
  | passed hg => exact .passed (Nat.lt_succ_self _) (Source.lt_size_of_glyph? hg)
  | executed hg hrun => rw [hpass] at hrun; cases hrun
  | tooDeep => exact .failed rfl
  | skipped hg hd => exact .skipped hg hd
  | opened hg hd hrun => rw [hpass] at hrun; cases hrun
  | unopened hg hnil => rw [hf] at hnil; cases hnil
  | left hg hf' => cases hf.symm.trans hf'; exact .left hg
  | closed hg hf' hrun => rw [pass_of_frames hf', hrun] at hpass; cases hpass

/-- While a body is skipped nobody looks at the cancel flag. -/
theorem step_of_skipping (hp : s.pass = .skipping) :
    s.step resume settings code cancelled = s.step resume settings code false := by
  unfold step openLoop closeLoop
  unfold pass at hp ⊢
  cases hf : s.frames with
  | nil => rw [hf] at hp; cases hp
  | cons f outer =>
    rw [hf] at hp
    simp only [hp]

/-- A command moves a run on by one character and opens or closes no loop. The tape is changed as
the command says, or the console is asked first. -/
theorem command_next {c : Command} (h : (s.command settings cancelled c).next? = some t) :
    ∃ tape n, (tape = s.tape ∨ c.effect s.tape = .ok (.changed tape)) ∧
      t = { s with position := s.position + 1, tape := tape, steps := n } := by
  rw [command_eq] at h
  split at h
  · cases h
  · split at h <;> cases h
    · rename_i heffect
      exact ⟨_, _, Or.inr heffect, rfl⟩
    · exact ⟨_, _, Or.inl rfl, rfl⟩
    · exact ⟨_, _, Or.inl rfl, rfl⟩

theorem test_next {zero nonzero : State → State}
    (h : (s.test settings cancelled zero nonzero).next? = some t) :
    ∃ n, t = zero { s with steps := n } ∨ t = nonzero { s with steps := n } := by
  rw [test_eq] at h
  split at h
  · cases h
  · split at h
    · cases h
    · simp only [Step.next?, Option.some.injEq] at h
      split at h
      · exact ⟨_, Or.inl h.symm⟩
      · exact ⟨_, Or.inr h.symm⟩

/-- The rules of a step from `s` behind which the run goes on, with the state where it does. Whether
a loop is passed over because the scan skips or because the cell is zero makes no difference. -/
inductive MoveRule (resume : Resume) (settings : Settings) (code : Source) (s : State) :
    State → Prop
  | blank (hg : code.glyph? s.position = some .blank) : MoveRule resume settings code s s.next
  | comment (hg : code.glyph? s.position = some .comment) :
      MoveRule resume settings code s (s.goto (code.lineEnd s.position + 1))
  | passed {c : Command} (hg : code.glyph? s.position = some (.command c)) :
      MoveRule resume settings code s s.next
  | executed {c : Command} {tape : Tape} {n : Nat}
      (hg : code.glyph? s.position = some (.command c))
      (htape : tape = s.tape ∨ c.effect s.tape = .ok (.changed tape)) :
      MoveRule resume settings code s
        { s with position := s.position + 1, tape := tape, steps := n }
  | skipped {n : Nat} (hg : code.glyph? s.position = some .opening)
      (hd : s.level < settings.maxDepth) :
      MoveRule resume settings code s (resume.skip { s with steps := n })
  | entered {n : Nat} (hg : code.glyph? s.position = some .opening)
      (hd : s.level < settings.maxDepth) :
      MoveRule resume settings code s (enter { s with steps := n } .running)
  | left {f : Frame} {outer : List Frame} (hg : code.glyph? s.position = some .closing)
      (hf : s.frames = f :: outer) : MoveRule resume settings code s (resume.leave s f outer)
  | exited {f : Frame} {outer : List Frame} {n : Nat}
      (hg : code.glyph? s.position = some .closing) (hf : s.frames = f :: outer) :
      MoveRule resume settings code s (resume.exit { s with steps := n } f outer)
  | repeated {f : Frame} {outer : List Frame} {n : Nat}
      (hg : code.glyph? s.position = some .closing) (hf : s.frames = f :: outer)
      (hp : f.pass = .running) :
      MoveRule resume settings code s (goto { s with steps := n } (f.opening + 1))

/-- Every step behind which a run goes on follows one of them. -/
theorem moveRule (hn : (s.step resume settings code cancelled).next? = some t) :
    MoveRule resume settings code s t := by
  have hrule := s.rule resume settings code cancelled
  generalize s.step resume settings code cancelled = r at hrule hn
  cases hrule with
  | finished => cases hn
  | unclosed => cases hn
  | foreign => cases hn
  | tooDeep => cases hn
  | unopened => cases hn
  | blank hg => cases hn; exact .blank hg
  | comment hg => cases hn; exact .comment hg
  | passed hg => cases hn; exact .passed hg
  | executed hg =>
    obtain ⟨tape, n, htape, rfl⟩ := command_next hn
    exact .executed hg htape
  | skipped hg hd => cases hn; exact .skipped (n := s.steps) hg hd
  | opened hg hd =>
    obtain ⟨n, rfl | rfl⟩ := test_next hn
    · exact .skipped hg hd
    · exact .entered hg hd
  | left hg hf => cases hn; exact .left hg hf
  | closed hg hf hp =>
    obtain ⟨n, rfl | rfl⟩ := test_next hn
    · exact .exited hg hf
    · exact .repeated hg hf hp

/-- A command that is not refused fails only for want of a cell. -/
theorem command_refused {c : Command} {e : EvalError}
    (h : s.command settings cancelled c = .failed e t) :
    charge settings.control cancelled s.steps = .error e ∨ ∃ access, e = .outOfRange access := by
  rw [command_eq] at h
  split at h
  · rename_i he
    cases h
    exact Or.inl he
  · split at h <;> cases h
    exact Or.inr ⟨_, rfl⟩

theorem test_refused {zero nonzero : State → State} {e : EvalError}
    (h : s.test settings cancelled zero nonzero = .failed e t) :
    charge settings.control cancelled s.steps = .error e ∨ ∃ access, e = .outOfRange access := by
  rw [test_eq] at h
  split at h
  · rename_i he
    cases h
    exact Or.inl he
  · split at h <;> cases h
    exact Or.inr ⟨_, rfl⟩

/-- A step that is refused, or that wants a cell, is at no defect of the text. -/
theorem isSyntax_of_refused {e : EvalError}
    (h : charge settings.control cancelled s.steps = .error e ∨ ∃ access, e = .outOfRange access) :
    e.isSyntax = false := by
  rcases h with h | ⟨access, rfl⟩
  · rcases charge_error h with rfl | ⟨limit, rfl⟩ <;> rfl
  · rfl

theorem command_failed {c : Command} {e : EvalError}
    (h : s.command settings cancelled c = .failed e t) : e.isSyntax = false :=
  isSyntax_of_refused (command_refused h)

theorem test_failed {zero nonzero : State → State} {e : EvalError}
    (h : s.test settings cancelled zero nonzero = .failed e t) : e.isSyntax = false :=
  isSyntax_of_refused (test_refused h)

/-- A step that fails is refused, or it is at a defect of the text or wants a cell. -/
theorem step_failed {e : EvalError}
    (h : s.step resume settings code cancelled = .failed e t) :
    e.isSyntax = true ∨ charge settings.control cancelled s.steps = .error e ∨
      ∃ access, e = .outOfRange access := by
  have hrule := s.rule resume settings code cancelled
  rw [h] at hrule
  generalize hr : Step.failed e t = r at hrule
  cases hrule with
  | executed => exact Or.inr (command_refused hr.symm)
  | opened => exact Or.inr (test_refused hr.symm)
  | closed => exact Or.inr (test_refused hr.symm)
  | unclosed => cases hr; exact Or.inl rfl
  | foreign => cases hr; exact Or.inl rfl
  | tooDeep => cases hr; exact Or.inl rfl
  | unopened => cases hr; exact Or.inl rfl
  | _ => cases hr

theorem command_ne_finished {c : Command} {position : Nat} :
    s.command settings cancelled c ≠ .finished position t := by
  intro h
  rw [command_eq] at h
  repeat' split at h
  all_goals cases h

theorem test_ne_finished {zero nonzero : State → State} {position : Nat} :
    s.test settings cancelled zero nonzero ≠ .finished position t := by
  intro h
  rw [test_eq] at h
  repeat' split at h
  all_goals cases h

/-- Only behind the source a run stops without an error, and only if no loop is open. -/
theorem step_finished {position : Nat}
    (h : s.step resume settings code cancelled = .finished position t) :
    position = code.size ∧ code.glyph? s.position = none ∧ s.frames = [] := by
  have hrule := s.rule resume settings code cancelled
  rw [h] at hrule
  generalize hr : Step.finished position t = r at hrule
  cases hrule with
  | finished hg hf => cases hr; exact ⟨rfl, hg, hf⟩
  | executed => exact absurd hr.symm command_ne_finished
  | opened => exact absurd hr.symm test_ne_finished
  | closed => exact absurd hr.symm test_ne_finished
  | _ => cases hr

end State

end TapeInterpreter
