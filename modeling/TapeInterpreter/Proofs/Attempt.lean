import TapeInterpreter.Proofs.Behaviour
import TapeInterpreter.Proofs.Consistency

/-!
# Steps that count

Commands that are run and tests of a cell are the attempts of a run. Only an attempt is charged,
looks at the cancel flag or can be refused, and only attempts can keep a run from ending: between
two of them it glides to the right.
-/
namespace TapeInterpreter
set_option autoImplicit false

/-- The same settings under another control. -/
def Settings.under (settings : Settings) (control : Option Control) : Settings :=
  { settings with control := control }

def State.withSteps (s : State) (n : Nat) : State := { s with steps := n }

def Step.withSteps (n : Nat) : Step → Step
  | .silent s => .silent (s.withSteps n)
  | .write byte p s => .write byte p (s.withSteps n)
  | .read p s => .read p (s.withSteps n)
  | .failed e s => .failed e (s.withSteps n)
  | .finished p s => .finished p (s.withSteps n)

namespace State

variable {s t : State} {settings : Settings} {code : Source} {cancelled : Bool} {n : Nat}

/-- The scan is about to run a command or to test a cell. -/
def attempts (s : State) (settings : Settings) (code : Source) : Bool :=
  s.pass == .running &&
    match code.glyph? s.position with
    | some (.command _) => true
    | some .opening => s.level < settings.maxDepth
    | some .closing => !s.frames.isEmpty
    | _ => false

/-- The count of steps behind the next step, if that is not refused. -/
def charged (s : State) (settings : Settings) (code : Source) (cancelled : Bool) :
    Except EvalError Nat :=
  if s.attempts settings code then charge settings.control cancelled s.steps else .ok s.steps

/-- The next step where nothing is counted. -/
def free (s : State) (settings : Settings) (code : Source) : Step :=
  (s.withSteps 0).step .remembering (settings.under none) code false

theorem skip_withSteps (s : State) (n : Nat) :
    (s.withSteps n).skip = (s.withSteps 0).skip.withSteps n := by
  have hclosing : ∀ k, (s.withSteps k).closing? (s.withSteps k).position = s.closing? s.position :=
    fun _ => rfl
  rw [skip, skip, hclosing, hclosing]
  cases s.closing? s.position <;> rfl

/-- A test is refused, or it is the free test with the count moved on. -/
theorem test_charged {zero nonzero : State → State}
    (hzero : ∀ n, zero (s.withSteps n) = (zero (s.withSteps 0)).withSteps n)
    (hnonzero : ∀ n, nonzero (s.withSteps n) = (nonzero (s.withSteps 0)).withSteps n) :
    s.test settings cancelled zero nonzero =
      match charge settings.control cancelled s.steps with
      | .error e => .failed e s
      | .ok n => ((s.withSteps 0).test (settings.under none) false zero nonzero).withSteps n := by
  have hfree : charge (settings.under none).control false (s.withSteps 0).steps = .ok 0 := rfl
  have htape : (s.withSteps 0).tape = s.tape := rfl
  rw [test_eq, test_eq, hfree, htape]
  cases charge settings.control cancelled s.steps with
  | error e => rfl
  | ok n =>
    cases s.tape.read with
    | error e => rfl
    | ok cell =>
      by_cases hc : cell = 0
      · simp only [if_pos hc]
        exact congrArg Step.silent (hzero n)
      · simp only [if_neg hc]
        exact congrArg Step.silent (hnonzero n)

theorem command_charged (c : Command) :
    s.command settings cancelled c =
      match charge settings.control cancelled s.steps with
      | .error e => .failed e s
      | .ok n => ((s.withSteps 0).command (settings.under none) false c).withSteps n := by
  have hfree : charge (settings.under none).control false (s.withSteps 0).steps = .ok 0 := rfl
  have htape : (s.withSteps 0).tape = s.tape := rfl
  rw [command_eq, command_eq, hfree, htape]
  cases charge settings.control cancelled s.steps with
  | error e => rfl
  | ok n =>
    cases c.effect s.tape with
    | error e => rfl
    | ok effect => cases effect <;> rfl

theorem charged_of_idle (h : s.attempts settings code = false) :
    s.charged settings code cancelled = .ok s.steps := by
  rw [charged, h]
  rfl

theorem charged_of_attempt (h : s.attempts settings code = true) :
    s.charged settings code cancelled = charge settings.control cancelled s.steps := by
  rw [charged, h]
  rfl

/-- Where nothing is attempted the control does not matter, and else it decides. -/
theorem step_charged (s : State) (settings : Settings) (code : Source) (cancelled : Bool) :
    s.step .remembering settings code cancelled =
      match s.charged settings code cancelled with
      | .error e => .failed e s
      | .ok n => (s.free settings code).withSteps n := by
  rw [free]
  have hchar : code[(s.withSteps 0).position]? = code[s.position]? := rfl
  have hframes : (s.withSteps 0).frames = s.frames := rfl
  have hpass : (s.withSteps 0).pass = s.pass := rfl
  have hlevel : (s.withSteps 0).level = s.level := rfl
  have hdepth : (settings.under none).maxDepth = settings.maxDepth := rfl
  cases hc : code[s.position]? with
  | none =>
    have hg : code.glyph? s.position = none := by rw [Source.glyph?, hc]; rfl
    rw [charged_of_idle (by simp [attempts, hg]), step_of_end hc, step_of_end (hchar.trans hc),
      stop, stop, hframes]
    cases s.frames <;> rfl
  | some char =>
    have hg : code.glyph? s.position = some (Glyph.ofChar char) := by rw [Source.glyph?, hc]; rfl
    rw [step_of_char hc, step_of_char (hchar.trans hc), hpass]
    generalize Glyph.ofChar char = g at hg ⊢
    cases g with
    | blank => rw [charged_of_idle (by simp [attempts, hg])]; rfl
    | comment => rw [charged_of_idle (by simp [attempts, hg])]; rfl
    | foreign => rw [charged_of_idle (by simp [attempts, hg])]; rfl
    | command c =>
      cases hp : s.pass with
      | skipping =>
        rw [charged_of_idle (by simp [attempts, hp])]
        rfl
      | running =>
        rw [charged_of_attempt (by simp [attempts, hp, hg])]
        exact command_charged c
    | opening =>
      simp only [openLoop, hdepth, hlevel, hpass]
      by_cases hd : settings.maxDepth ≤ s.level
      · simp only [charged_of_idle (show s.attempts settings code = false by
          simp [attempts, hg, hd]), if_pos hd]
        rfl
      · have hd' := Nat.lt_of_not_le hd
        simp only [if_neg hd]
        cases hp : s.pass with
        | skipping =>
          rw [charged_of_idle (by simp [attempts, hp])]
          exact congrArg Step.silent (skip_withSteps s s.steps)
        | running =>
          rw [charged_of_attempt (by simp [attempts, hp, hg, hd'])]
          exact test_charged (skip_withSteps s) fun _ => rfl
    | closing =>
      simp only [closeLoop, hframes]
      cases hf : s.frames with
      | nil =>
        rw [charged_of_idle (by simp [attempts, hg, hf])]
        rfl
      | cons f outer =>
        have hpass : s.pass = f.pass := by rw [pass, hf]
        cases hp : f.pass with
        | skipping =>
          rw [charged_of_idle (by simp [attempts, hpass, hp])]
          simp only [hp]
          rfl
        | running =>
          rw [charged_of_attempt (by simp [attempts, hpass, hp, hg, hf])]
          simp only [hp]
          exact test_charged (fun _ => rfl) fun _ => rfl

/-- A step at which nothing is attempted does not look at the cancel flag. -/
theorem step_of_idle (h : s.attempts settings code = false) (cancelled : Bool) :
    s.step .remembering settings code cancelled = s.step .remembering settings code false := by
  rw [step_charged, charged_of_idle h, step_charged s settings code false, charged_of_idle h]

/-- Where a step is not refused the count goes on as charged. -/
theorem charged_of_next (hn : (s.step .remembering settings code cancelled).next? = some t) :
    s.charged settings code cancelled = .ok t.steps := by
  rw [step_charged] at hn
  cases hcharged : s.charged settings code cancelled with
  | error e =>
    rw [hcharged] at hn
    cases hn
  | ok n =>
    rw [hcharged] at hn
    cases hfree : s.free settings code <;> rw [hfree] at hn <;> cases hn <;> rfl

/-- Whatever is not an attempt is silent, and moves the run to the right. -/
theorem Consistent.moves_of_idle (h : s.Consistent code settings.maxDepth)
    (hidle : s.attempts settings code = false)
    (hn : (s.step .remembering settings code cancelled).next? = some t) :
    s.step .remembering settings code cancelled = .silent t ∧
      s.position < t.position ∧ s.position < code.size := by
  have hrule := s.rule .remembering settings code cancelled
  generalize s.step .remembering settings code cancelled = r at hrule hn
  cases hrule with
  | finished => cases hn
  | unclosed => cases hn
  | foreign => cases hn
  | tooDeep => cases hn
  | unopened => cases hn
  | blank hg =>
    cases hn
    exact ⟨rfl, Nat.lt_succ_self _, Source.lt_size_of_glyph? hg⟩
  | comment hg =>
    cases hn
    exact ⟨rfl, Nat.lt_succ_of_le (code.le_lineEnd s.position), Source.lt_size_of_glyph? hg⟩
  | passed hg =>
    cases hn
    exact ⟨rfl, Nat.lt_succ_self _, Source.lt_size_of_glyph? hg⟩
  | left hg =>
    cases hn
    exact ⟨rfl, Nat.lt_succ_self _, Source.lt_size_of_glyph? hg⟩
  | skipped hg =>
    cases hn
    refine ⟨rfl, ?_, Source.lt_size_of_glyph? hg⟩
    rcases Resume.remembering_sound.skip s h.remembers with he | ⟨c, hm, he⟩
    · rw [he]
      exact Nat.lt_succ_self _
    · rw [he]
      exact Nat.lt_succ_of_lt hm.lt
  | executed hg hp => simp [attempts, hg, hp] at hidle
  | opened hg hd hp => simp [attempts, hg, hp, hd] at hidle
  | closed hg hf hp => simp [attempts, hg, hf, State.pass, hp] at hidle

/-- The scan is about to attempt a step, or it does not go on. -/
def Rests (s : State) (settings : Settings) (code : Source) : Prop :=
  s.attempts settings code = true ∨
    ∀ cancelled, (s.step .remembering settings code cancelled).next? = none

/-- A run glides to its next attempt, or to where it stops. -/
theorem Consistent.rests (settings : Settings) (h : s.Consistent code settings.maxDepth) :
    ∃ t, (Machine.over settings code).Glides s t ∧ t.Consistent code settings.maxDepth ∧
      t.steps = s.steps ∧ t.Rests settings code := by
  induction hn : code.size - s.position using Nat.strongRecOn generalizing s with
  | ind n ih =>
  cases hidle : s.attempts settings code with
  | true => exact ⟨s, .refl s, h, rfl, Or.inl hidle⟩
  | false =>
    cases hnext : (s.step .remembering settings code false).next? with
    | none => exact ⟨s, .refl s, h, rfl, Or.inr fun cancelled => by rw [step_of_idle hidle, hnext]⟩
    | some t =>
      obtain ⟨hsilent, hright, hsize⟩ := h.moves_of_idle hidle hnext
      have hsteps : s.steps = t.steps :=
        Except.ok.inj ((charged_of_idle hidle).symm.trans (charged_of_next hnext))
      obtain ⟨u, hglides, hu, husteps, hrest⟩ :=
        ih (code.size - t.position) (by omega) (h.step Resume.remembering_sound hnext) rfl
      exact ⟨u, .step (fun cancelled => (step_of_idle hidle cancelled).trans hsilent) hglides, hu,
        husteps.trans hsteps.symm, hrest⟩

/-- Where nothing is attempted the console is not asked for anything. -/
theorem serve_of_idle {σ : Type} (h : s.attempts settings code = false)
    (console : Console (StateM σ)) (w : σ) :
    ((s.step .remembering settings code cancelled).serve console w).2 = w := by
  have hrule := s.rule .remembering settings code cancelled
  generalize s.step .remembering settings code cancelled = r at hrule
  cases hrule with
  | executed hg hp => simp [attempts, hg, hp] at h
  | opened hg hd hp => simp [attempts, hg, hp, hd] at h
  | closed hg hf hp => simp [attempts, hg, hf, State.pass, hp] at h
  | _ => rfl

end State

/-! ## Charged runs -/

def Progress.withSteps (n : Nat) : Progress → Progress
  | .running s => .running (s.withSteps n)
  | .halted halt => .halted ⟨halt.stopped, halt.last.withSteps n⟩

/-- The console does not see the count of steps. -/
theorem serve_withSteps {σ : Type} (console : Console (StateM σ)) (step : Step) (n : Nat) (w : σ) :
    (step.withSteps n).serve console w =
      ((step.serve console w).1.withSteps n, (step.serve console w).2) := by
  cases step with
  | silent s => rfl
  | failed e s => rfl
  | finished p s => rfl
  | write byte p s =>
    simp only [Step.withSteps, Step.serve, bind, StateT.bind]
    rcases console.write byte w with ⟨_ | _, v⟩ <;> rfl
  | read p s =>
    simp only [Step.withSteps, Step.serve, bind, StateT.bind]
    rcases console.read w with ⟨_ | _ | byte, v⟩
    · rfl
    · rfl
    · simp only [State.store, State.withSteps]
      cases s.tape.write byte <;> rfl

variable {settings : Settings} {code : Source} {s : State}

/-- A step that is not refused is the free step, served, with the count moved on. -/
theorem advance_of_charged (b : Behaviour) (log : List Call) {n : Nat}
    (h : s.charged settings code (b.cancelled log) = .ok n) :
    (Machine.over settings code).advance b.console s log =
      (((s.free settings code).serve b.console log).1.withSteps n,
        ((s.free settings code).serve b.console log).2) := by
  rw [advance_over, State.step_charged, h]
  exact serve_withSteps b.console (s.free settings code) n log

theorem advance_of_refused (b : Behaviour) (log : List Call) {e : EvalError}
    (h : s.charged settings code (b.cancelled log) = .error e) :
    (Machine.over settings code).advance b.console s log = (.halted ⟨.error e, s⟩, log) := by
  rw [advance_over, State.step_charged, h]
  rfl

/-- The count of steps is not looked at when a run is concluded. -/
theorem conclude_withSteps (b : Behaviour) (code : Source) (halt : Halt) (k : Nat)
    (log : List Call) :
    (⟨halt.stopped, halt.last.withSteps k⟩ : Halt).conclude b.console code log =
      ({ (halt.conclude b.console code log).1 with steps := k },
        (halt.conclude b.console code log).2) := by
  obtain ⟨stopped, last⟩ := halt
  cases stopped with
  | error e => rfl
  | ok p =>
    simp only [Halt.conclude]
    split <;> rfl

theorem conclude_steps (b : Behaviour) (code : Source) (halt : Halt) (log : List Call) :
    (halt.conclude b.console code log).1.steps = halt.last.steps :=
  congrArg (fun concluded => Outcome.steps concluded.1)
    (conclude_withSteps b code halt halt.last.steps log)

end TapeInterpreter
