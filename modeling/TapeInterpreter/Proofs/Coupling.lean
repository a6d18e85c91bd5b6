import TapeInterpreter.Proofs.Simulation

/-!
# Scans that keep together

Two scans, over two sources and with two ways of getting behind loops, see the same character at
corresponding positions. What a relation between their states has to be closed under is listed once,
and from that list their steps are alike.
-/
namespace TapeInterpreter
set_option autoImplicit false

/-- The same loop, opened where `place` moves its bracket to. -/
def Frame.relocate (place : Nat → Nat) (f : Frame) : Frame := { f with opening := place f.opening }

/-- `At` relates states in front of the same character, `R` states behind it. -/
structure Coupled (place : Nat → Nat) (resume resume' : Resume) (settings : Settings)
    (code code' : Source) (At R : State → State → Prop) : Prop where
  position {s t : State} : At s t → t.position < code'.size → s.position = place t.position
  frames {s t : State} : At s t → s.frames = t.frames.map (Frame.relocate place)
  tape {s t : State} : At s t → s.tape = t.tape
  steps {s t : State} : At s t → s.steps = t.steps
  char {s t : State} : At s t → code[s.position]? = code'[t.position]?
  charged {s t : State} : At s t → ∀ n, At { s with steps := n } { t with steps := n }
  next {s t : State} : At s t →
    code'.glyph? t.position = some .blank ∨ (∃ c, code'.glyph? t.position = some (.command c)) →
    ∀ tape, R { s.next with tape := tape } { t.next with tape := tape }
  comment {s t : State} : At s t → code'.glyph? t.position = some .comment →
    R (s.goto (code.lineEnd s.position + 1)) (t.goto (code'.lineEnd t.position + 1))
  enter {s t : State} : At s t → code'.glyph? t.position = some .opening →
    t.level < settings.maxDepth → R (s.enter .running) (t.enter .running)
  skip {s t : State} : At s t → code'.glyph? t.position = some .opening →
    t.level < settings.maxDepth → R (resume.skip s) (resume'.skip t)
  leave {s t : State} {f : Frame} {outer : List Frame} : At s t →
    code'.glyph? t.position = some .closing → t.frames = f :: outer → f.pass = .skipping →
    R (resume.leave s (f.relocate place) (outer.map (Frame.relocate place)))
      (resume'.leave t f outer)
  exit {s t : State} {f : Frame} {outer : List Frame} : At s t →
    code'.glyph? t.position = some .closing → t.frames = f :: outer → f.pass = .running →
    R (resume.exit s (f.relocate place) (outer.map (Frame.relocate place))) (resume'.exit t f outer)
  restart {s t : State} {f : Frame} {outer : List Frame} : At s t →
    code'.glyph? t.position = some .closing → t.frames = f :: outer → f.pass = .running →
    R (s.goto (place f.opening + 1)) (t.goto (f.opening + 1))

namespace Coupled

variable {place : Nat → Nat} {resume resume' : Resume} {settings : Settings} {code code' : Source}
  {At R : State → State → Prop} {s t : State}

theorem level_eq (h : Coupled place resume resume' settings code code' At R) (hAt : At s t) :
    s.level = t.level := by
  unfold State.level
  rw [h.frames hAt]
  cases t.frames <;> rfl

theorem pass_eq (h : Coupled place resume resume' settings code code' At R) (hAt : At s t) :
    s.pass = t.pass := by
  unfold State.pass
  rw [h.frames hAt]
  cases t.frames <;> rfl

/-- Passing over a character, the tape stays as it is. -/
theorem pass_over (h : Coupled place resume resume' settings code code' At R) (hAt : At s t)
    (hg : code'.glyph? t.position = some .blank ∨
      ∃ c, code'.glyph? t.position = some (.command c)) : R s.next t.next := by
  have hnext := h.next hAt hg s.tape
  rw [h.tape hAt] at hnext
  have hs : { s.next with tape := t.tape } = s.next := by rw [← h.tape hAt]; rfl
  rw [hs] at hnext
  exact hnext

/-- A step that fails here fails there. -/
theorem fail_alike (h : Coupled place resume resume' settings code code' At R) (hAt : At s t)
    (e : EvalError) :
    Step.Alike place code code' R (.failed (e.relocate place) s) (.failed e t) :=
  .failed (h.tape hAt) (h.steps hAt)

/-- A step that is refused here is refused there. -/
theorem refuse_alike (h : Coupled place resume resume' settings code code' At R) (hAt : At s t)
    {control : Option Control} {cancelled : Bool} {k : Nat} {e : EvalError}
    (he : charge control cancelled k = .error e) :
    Step.Alike place code code' R (.failed e s) (.failed e t) := by
  rcases charge_error he with rfl | ⟨limit, rfl⟩
  · exact h.fail_alike hAt .cancelled
  · exact h.fail_alike hAt (.stepLimitExceeded limit)

theorem test_alike (h : Coupled place resume resume' settings code code' At R) (hAt : At s t)
    {zero nonzero zero' nonzero' : State → State} (cancelled : Bool)
    (hzero : ∀ n, R (zero { s with steps := n }) (zero' { t with steps := n }))
    (hnonzero : ∀ n, R (nonzero { s with steps := n }) (nonzero' { t with steps := n })) :
    Step.Alike place code code' R (s.test settings cancelled zero nonzero)
      (t.test settings cancelled zero' nonzero') := by
  have hsteps := congrArg (charge settings.control cancelled) (h.steps hAt)
  have hread := congrArg Tape.read (h.tape hAt)
  rw [State.test_eq, State.test_eq, hsteps, hread]
  cases hcharge : charge settings.control cancelled t.steps with
  | error e => exact h.refuse_alike hAt hcharge
  | ok n =>
    cases t.tape.read with
    | error e => exact h.fail_alike (h.charged hAt n) (.outOfRange e)
    | ok cell =>
      simp only
      by_cases hc : cell = 0
      · simp only [if_pos hc]
        exact .silent (hzero n)
      · simp only [if_neg hc]
        exact .silent (hnonzero n)

theorem command_alike (h : Coupled place resume resume' settings code code' At R) (hAt : At s t)
    {c : Command} (hg : code'.glyph? t.position = some (.command c)) (cancelled : Bool) :
    Step.Alike place code code' R (s.command settings cancelled c)
      (t.command settings cancelled c) := by
  have hsteps := congrArg (charge settings.control cancelled) (h.steps hAt)
  have heffect := congrArg c.effect (h.tape hAt)
  rw [State.command_eq, State.command_eq, hsteps, heffect]
  cases hcharge : charge settings.control cancelled t.steps with
  | error e => exact h.refuse_alike hAt hcharge
  | ok n =>
    have hcharged := h.charged hAt n
    have hnext := h.pass_over hcharged (Or.inr ⟨c, hg⟩)
    have hstored := h.next hcharged (Or.inr ⟨c, hg⟩)
    have htape : s.tape = t.tape := h.tape hAt
    have hposition := h.position hAt (Source.lt_size_of_glyph? hg)
    cases c.effect t.tape with
    | error e => exact h.fail_alike hcharged (.outOfRange e)
    | ok effect =>
      cases effect with
      | changed tape => exact .silent (hstored tape)
      | written byte => exact .write hposition hnext htape rfl
      | wanted => exact .read hposition hstored htape rfl

/-- In front of the same character the steps are alike. -/
theorem step_alike (h : Coupled place resume resume' settings code code' At R) (hAt : At s t)
    (cancelled : Bool) :
    Step.Alike place code code' R (s.step resume settings code cancelled)
      (t.step resume' settings code' cancelled) := by
  have hchar := h.char hAt
  have hframes := h.frames hAt
  cases hc : code'[t.position]? with
  | none =>
    rw [State.step_of_end (hchar.trans hc), State.step_of_end hc, State.stop, State.stop, hframes]
    cases t.frames with
    | nil => exact .finished (h.tape hAt) (h.steps hAt)
    | cons f outer => exact h.fail_alike hAt (.unmatched .opening f.opening)
  | some char =>
    have hglyph : code'.glyph? t.position = some (Glyph.ofChar char) := by
      rw [Source.glyph?, hc]; rfl
    have hposition := h.position hAt (Source.lt_size_of_glyph? hglyph)
    rw [State.step_of_char (hchar.trans hc), State.step_of_char hc, h.pass_eq hAt]
    generalize hg : Glyph.ofChar char = g at hglyph
    cases g with
    | blank => exact .silent (h.pass_over hAt (Or.inl hglyph))
    | comment => exact .silent (h.comment hAt hglyph)
    | foreign =>
      rw [hposition]
      exact h.fail_alike hAt (.unexpectedCharacter char t.position)
    | command c =>
      cases t.pass with
      | skipping => exact .silent (h.pass_over hAt (Or.inr ⟨c, hglyph⟩))
      | running => exact h.command_alike hAt hglyph cancelled
    | opening =>
      simp only [State.openLoop, h.level_eq hAt, h.pass_eq hAt, hposition]
      by_cases hd : settings.maxDepth ≤ t.level
      · rw [if_pos hd, if_pos hd]
        exact h.fail_alike hAt (.nestingTooDeep t.position settings.maxDepth)
      · have hlevel := Nat.lt_of_not_le hd
        rw [if_neg hd, if_neg hd]
        cases t.pass with
        | skipping => exact .silent (h.skip hAt hglyph hlevel)
        | running =>
          exact h.test_alike hAt cancelled (fun n => h.skip (h.charged hAt n) hglyph hlevel)
            fun n => h.enter (h.charged hAt n) hglyph hlevel
    | closing =>
      simp only [State.closeLoop, hframes, hposition]
      cases hf : t.frames with
      | nil => exact h.fail_alike hAt (.unmatched .closing t.position)
      | cons f outer =>
        simp only [List.map_cons, Frame.relocate]
        cases hp : f.pass with
        | skipping =>
          have hleave := h.leave hAt hglyph hf hp
          simp only [Frame.relocate, hp] at hleave
          exact .silent hleave
        | running =>
          refine h.test_alike hAt cancelled (fun n => ?_) fun n => ?_
          · have hexit := h.exit (h.charged hAt n) hglyph hf hp
            simp only [Frame.relocate, hp] at hexit
            exact hexit
          · exact h.restart (h.charged hAt n) hglyph hf hp

end Coupled

end TapeInterpreter
