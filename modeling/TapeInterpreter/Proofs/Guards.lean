import TapeInterpreter.Tape.InRange
import TapeInterpreter.Proofs.Behaviour

/-!
# Guards that never fire

Each use of a cell is guarded against a cursor that indexes none, and the end of a scan against a
source that has not been consumed. Neither happens: the cursor indexes a cell in every state of a
run, and a run that ends without an error has come to the end of its source.
-/
namespace TapeInterpreter
set_option autoImplicit false

/-- The error reports that a guard has fired. -/
def EvalError.ofGuard : EvalError → Bool
  | .outOfRange _ | .incompleteScan _ => true
  | _ => false

/-- No guard fires at the step, and behind it the cursor indexes a cell. -/
def Step.Guarded : Step → Prop
  | .silent t | .write _ _ t | .read _ t | .finished _ t => t.tape.InRange
  | .failed e _ => e.ofGuard = false

/-- The same once the console has answered. -/
def Progress.Guarded : Progress → Prop
  | .running t => t.tape.InRange
  | .halted halt => ∀ e, halt.stopped = .error e → e.ofGuard = false

/-- On a cell every command has its effect. -/
theorem Tape.InRange.effect {tape : Tape} (h : tape.InRange) (c : Command) :
    ∃ effect, c.effect tape = .ok effect ∧ ∀ tape', effect = .changed tape' → tape'.InRange := by
  cases c with
  | right => exact ⟨.changed tape.advance, rfl, by rintro _ ⟨⟩; exact h.advance⟩
  | left => exact ⟨.changed tape.retreat, rfl, by rintro _ ⟨⟩; exact h.retreat⟩
  | read => exact ⟨.wanted, rfl, by rintro _ ⟨⟩⟩
  | write =>
    refine ⟨.written (tape.cell h), ?_, by rintro _ ⟨⟩⟩
    rw [Command.effect, h.read_eq_ok]
    rfl
  | increment =>
    obtain ⟨u, hu, -, hrange, -⟩ := h.modify_seen .incrementing (· + 1)
    refine ⟨.changed u, ?_, by rintro _ ⟨⟩; exact hrange⟩
    rw [Command.effect, Tape.increment, hu]
    rfl
  | decrement =>
    obtain ⟨u, hu, -, hrange, -⟩ := h.modify_seen .decrementing (· - 1)
    refine ⟨.changed u, ?_, by rintro _ ⟨⟩; exact hrange⟩
    rw [Command.effect, Tape.decrement, hu]
    rfl

theorem ofGuard_of_charge {control : Option Control} {cancelled : Bool} {steps : Nat}
    {e : EvalError} (h : charge control cancelled steps = .error e) : e.ofGuard = false := by
  rcases charge_error h with rfl | ⟨limit, rfl⟩ <;> rfl

namespace State

variable {s : State} {settings : Settings} {code : Source} {cancelled : Bool}

theorem command_guarded (h : s.tape.InRange) (c : Command) :
    (s.command settings cancelled c).Guarded := by
  rw [command_eq]
  cases hcharge : charge settings.control cancelled s.steps with
  | error e => exact ofGuard_of_charge hcharge
  | ok n =>
    obtain ⟨effect, heffect, hchanged⟩ := h.effect c
    rw [heffect]
    cases effect with
    | changed tape => exact hchanged tape rfl
    | written byte => exact h
    | wanted => exact h

theorem test_guarded (h : s.tape.InRange) {zero nonzero : State → State}
    (hzero : ∀ s, (zero s).tape = s.tape) (hnonzero : ∀ s, (nonzero s).tape = s.tape) :
    (s.test settings cancelled zero nonzero).Guarded := by
  rw [test_eq]
  cases hcharge : charge settings.control cancelled s.steps with
  | error e => exact ofGuard_of_charge hcharge
  | ok n =>
    rw [h.read_eq_ok]
    simp only [Step.Guarded]
    split
    · rw [hzero]; exact h
    · rw [hnonzero]; exact h

theorem tape_skip (s : State) : s.skip.tape = s.tape := by
  unfold skip
  split <;> rfl

/-- With the cursor on a cell no guard fires, and the cursor stays on a cell. -/
theorem step_guarded (h : s.tape.InRange) :
    (s.step .remembering settings code cancelled).Guarded := by
  have hrule := s.rule .remembering settings code cancelled
  generalize s.step .remembering settings code cancelled = r at hrule ⊢
  have hskip : s.skip.tape.InRange := by rw [tape_skip]; exact h
  cases hrule with
  | executed => exact command_guarded h _
  | opened => exact test_guarded h tape_skip fun _ => rfl
  | closed => exact test_guarded h (fun _ => rfl) fun _ => rfl
  | skipped => exact hskip
  | unclosed => rfl
  | foreign => rfl
  | tooDeep => rfl
  | unopened => rfl
  | finished => exact h
  | blank => exact h
  | comment => exact h
  | passed => exact h
  | left => exact h

end State

variable {σ : Type} {console : Console (StateM σ)} {settings : Settings} {code : Source}
  {s t : State} {w v : σ} {halt : Halt}

theorem Served.guarded {step : Step} {progress : Progress} (hs : Served console w step progress v)
    (h : step.Guarded) : progress.Guarded := by
  cases hs with
  | silent => exact h
  | written => exact h
  | stored _ ht => exact Tape.InRange.of_modify h ht
  | misplaced _ ht =>
    obtain ⟨u, hu, -⟩ := Tape.InRange.modify_seen h .setting fun _ => _
    cases ht.symm.trans hu
  | failed => rintro e ⟨⟩; exact h
  | finished => rintro e ⟨⟩
  | unwritten => rintro e ⟨⟩; rfl
  | exhausted => rintro e ⟨⟩; rfl
  | unread => rintro e ⟨⟩; rfl

theorem advance_guarded (hq : console.Quiet) (h : s.tape.InRange) {progress : Progress}
    (ha : (Machine.over settings code).advance console s w = (progress, v)) : progress.Guarded :=
  (Machine.advance_served hq ha).guarded (State.step_guarded h)

/-- A run that halts does so by no guard, and without an error at the end of the source only. -/
theorem guarded_of_run (hq : console.Quiet) (h : s.tape.InRange) {n : Nat}
    (hrun : (Machine.over settings code).run console n s w = (some halt, v)) :
    (∀ e, halt.stopped = .error e → e.ofGuard = false) ∧
      ∀ p, halt.stopped = .ok p → p = code.size := by
  obtain ⟨t, u, ht, ha⟩ := Machine.run_halted (P := fun s _ => s.tape.InRange)
    (fun _ _ _ _ hs ha => advance_guarded hq hs ha) h hrun
  refine ⟨advance_guarded hq ht ha, fun p hp => ?_⟩
  rcases (Machine.advance_served hq ha).halted with ⟨e, -, he⟩ | ⟨p', hs, hp'⟩ | ⟨e, he, -⟩
  · cases hp.symm.trans he
  · cases hp.symm.trans hp'
    exact (State.step_finished hs).1
  · cases hp.symm.trans he

theorem ofGuard_of_evaluates {b : Behaviour} {outcome : Outcome} {calls : List Call}
    (h : Evaluates b settings code outcome calls) {e : EvalError}
    (he : outcome.result = .error e) : e.ofGuard = false := by
  obtain ⟨n, halt, log, hrun, hconclude⟩ := Machine.evaluates_iff.mp h
  obtain ⟨herror, hend⟩ := guarded_of_run b.quiet (Tape.inRange_blank settings.capacity) hrun
  rw [show outcome = (halt.conclude b.console code log).1 by rw [hconclude]] at he
  rcases error_of_conclude he with hstop | ⟨p, hstop, ⟨hp, -⟩ | ⟨fault, rfl⟩⟩
  · exact herror _ hstop
  · exact absurd (hend p hstop) hp
  · rfl

/-- The guards never fire. In every state of a run the cursor indexes a cell. A scan that ends
without an error has consumed just its source, also if that ends in a comment. So no evaluation
reports a cursor out of range or an incomplete scan. -/
theorem guards_never_fire (b : Behaviour) (settings : Settings) (code : Source) :
    (∀ s log, (Machine.over settings code).Reaches b.console
      (State.initial settings.capacity code) [] s log → s.tape.InRange) ∧
    (∀ n halt log, (Machine.over settings code).run b.console n
      (State.initial settings.capacity code) [] = (some halt, log) →
        (∀ access, halt.stopped ≠ .error (.outOfRange access)) ∧
        ∀ p, halt.stopped = .ok p → p = code.size) ∧
    ∀ outcome calls, Evaluates b settings code outcome calls →
      (∀ access, outcome.result ≠ .error (.outOfRange access)) ∧
      ∀ p, outcome.result ≠ .error (.incompleteScan p) := by
  have hstart : (State.initial settings.capacity code).tape.InRange :=
    Tape.inRange_blank settings.capacity
  refine ⟨fun s log hreach => ?_, fun n halt log hrun => ?_, fun outcome calls h => ?_⟩
  · exact hreach.preserves (P := fun s _ => s.tape.InRange)
      (fun _ _ _ _ hs ha => advance_guarded b.quiet hs ha) hstart
  · obtain ⟨herror, hend⟩ := guarded_of_run b.quiet hstart hrun
    refine ⟨fun access he => ?_, hend⟩
    cases herror _ he
  · refine ⟨fun access he => ?_, fun p he => ?_⟩
    · cases ofGuard_of_evaluates h he
    · cases ofGuard_of_evaluates h he

/-- The scan gets one character behind a comment that no line feed ends, and still stops at 2. -/
example : ((Machine.over {} (Source.ofString "+#")).run Behaviour.mute.console 5
    (State.initial 1 (Source.ofString "+#")) []).1.map
      (fun halt => (halt.stopped.toOption, halt.last.position)) = some (some 2, 3) := by
  decide

end TapeInterpreter
