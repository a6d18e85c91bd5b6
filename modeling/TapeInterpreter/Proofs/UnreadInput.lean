import TapeInterpreter.Proofs.CallDiscipline
import TapeInterpreter.Proofs.Isolation
import TapeInterpreter.Proofs.Simulation

/-!
# Unread input has no influence

Two evaluations of one source, of which one has more input behind that of the other, step abreast
up to the first read at the end of the shorter input. One that never gets there leaves what is
behind untouched.
-/
namespace TapeInterpreter
set_option autoImplicit false

/-- On a buffer with `input` evaluation ends, with some patience, in `outcome` and leaves `b`. -/
def EvaluatesOn (settings : Settings) (cancelled : Bool) (code : Source) (input : List UInt8)
    (outcome : Outcome) (b : Buffer) : Prop :=
  ∃ patience, evaluate (Buffer.console cancelled) settings code patience (.ofInput input) =
    (some outcome, b)

namespace Buffer

/-- The same buffer with `more` input behind. -/
def followedBy (more : List UInt8) (b : Buffer) : Buffer := { b with unread := b.unread ++ more }

theorem quiet (cancelled : Bool) : (console cancelled).Quiet := fun _ => rfl

/-- How a run is concluded does not depend on the buffer, and leaves it as it is. -/
theorem conclude_eq (cancelled : Bool) (code : Source) (halt : Halt) (b b' : Buffer) :
    halt.conclude (console cancelled) code b =
      ((halt.conclude (console cancelled) code b').1, b) := by
  obtain ⟨_ | p, last⟩ := halt
  · rfl
  · simp only [Halt.conclude]
    split <;> rfl

/-- An evaluation is at the end of the input if its run was. -/
theorem result_of_conclude (cancelled : Bool) (code : Source) (halt : Halt) (b : Buffer) (p : Nat) :
    (halt.conclude (console cancelled) code b).1.result = .error (.endOfInput p) ↔
      halt.stopped = .error (.endOfInput p) := by
  obtain ⟨e | q, last⟩ := halt
  · exact ⟨fun h => by cases h; rfl, fun h => by cases h; rfl⟩
  · refine ⟨fun h => ?_, by rintro ⟨⟩⟩
    simp only [Halt.conclude] at h
    split at h <;> cases h

end Buffer

variable {settings : Settings} {code : Source} {cancelled : Bool} {s t : State} {b v : Buffer}
  {more : List UInt8}

theorem Buffer.advance_over (settings : Settings) (code : Source) (cancelled : Bool) (s : State)
    (b : Buffer) :
    (Machine.over settings code).advance (Buffer.console cancelled) s b =
      (s.step .remembering settings code cancelled).serve (Buffer.console cancelled) b :=
  Machine.advance_eq (Buffer.quiet cancelled)

/-- Two runs abreast, the first one with `more` input behind that of the second one. -/
def Abreast (more : List UInt8) (s : State) (w : Buffer) (t : State) (v : Buffer) : Prop :=
  s = t ∧ w = v.followedBy more

/-- Both runs have halted in the same way, not at the end of the input. -/
def HaltedAbreast (more : List UInt8) (x : Halt) (w : Buffer) (y : Halt) (v : Buffer) : Prop :=
  x = y ∧ w = v.followedBy more ∧ ∀ p, y.stopped ≠ .error (.endOfInput p)

/-- The second run has halted at the end of its input, where the first one may go on. -/
def Exhausted (more : List UInt8) (_ : State) (w : Buffer) (y : Halt) (v : Buffer) : Prop :=
  w = v.followedBy more ∧ v.unread = [] ∧ ∃ p, y.stopped = .error (.endOfInput p)

/-- More input makes no difference to a step, unless the step is a read at the end of the input. -/
theorem advance_abreast (settings : Settings) (code : Source) (cancelled : Bool)
    (h : Abreast more s b t v) :
    (∃ p b' q v', (Machine.over settings code).advance (Buffer.console cancelled) s b = (p, b') ∧
      (Machine.over settings code).advance (Buffer.console cancelled) t v = (q, v') ∧
      Progress.Alike (Abreast more · b' · v') (HaltedAbreast more · b' · v') p q) ∨
    ∃ halt v', (Machine.over settings code).advance (Buffer.console cancelled) t v =
      (.halted halt, v') ∧ Exhausted more s b halt v' := by
  obtain ⟨rfl, rfl⟩ := h
  simp only [Buffer.advance_over]
  cases hstep : s.step .remembering settings code cancelled with
  | silent t => exact Or.inl ⟨_, _, _, v, rfl, rfl, .running ⟨rfl, rfl⟩⟩
  | write byte p t => exact Or.inl ⟨_, _, _, v.push byte, rfl, rfl, .running ⟨rfl, rfl⟩⟩
  | finished p t => exact Or.inl ⟨_, _, _, v, rfl, rfl, .halted ⟨rfl, rfl, by rintro _ ⟨⟩⟩⟩
  | failed e t =>
    have he := ofConsole_of_failed hstep
    refine Or.inl ⟨_, _, _, v, rfl, rfl, .halted ⟨rfl, rfl, ?_⟩⟩
    rintro p ⟨⟩
    cases he
  | read p t =>
    obtain ⟨_ | ⟨byte, rest⟩, written⟩ := v
    · exact Or.inr ⟨_, _, rfl, rfl, rfl, p, rfl⟩
    · left
      cases hw : t.tape.write byte with
      | ok tape =>
        have hstore : t.store byte = .running { t with tape := tape } := by rw [State.store, hw]
        exact ⟨_, _, _, ⟨rest, written⟩, rfl, rfl, by rw [hstore]; exact .running ⟨rfl, rfl⟩⟩
      | error e =>
        have hstore : t.store byte = .halted ⟨.error (.outOfRange e), t⟩ := by rw [State.store, hw]
        refine ⟨_, _, _, ⟨rest, written⟩, rfl, rfl, ?_⟩
        rw [hstore]
        exact .halted ⟨rfl, rfl, by rintro _ ⟨⟩⟩

/-- An evaluation that ends is a run that halts, and leaves the buffer as the run does. -/
theorem evaluatesOn_iff {input : List UInt8} {outcome : Outcome} :
    EvaluatesOn settings cancelled code input outcome b ↔
      ∃ n halt, (Machine.over settings code).run (Buffer.console cancelled) n
          (State.initial settings.capacity code) (.ofInput input) = (some halt, b) ∧
        (halt.conclude (Buffer.console cancelled) code (.ofInput input)).1 = outcome := by
  refine exists_congr fun n => Machine.evaluate_eq_some_iff.trans ⟨?_, ?_⟩
  · rintro ⟨halt, v, hrun, hconclude⟩
    rw [Buffer.conclude_eq cancelled code halt v (.ofInput input)] at hconclude
    cases hconclude
    exact ⟨halt, hrun, rfl⟩
  · rintro ⟨halt, hrun, rfl⟩
    exact ⟨halt, b, hrun, Buffer.conclude_eq cancelled code halt b (.ofInput input)⟩

/-- Output is only added to while a run goes on. -/
theorem written_of_run {machine : Machine} {n : Nat} {halt? : Option Halt}
    (h : machine.run (Buffer.console cancelled) n s b = (halt?, v)) :
    b.written.toList <+: v.written.toList := by
  have hkept := (Buffer.console_continues cancelled b).run machine n s b (.refl b)
  rw [h] at hkept
  exact hkept.written

/-- Unread input cannot influence an evaluation. One that ends, and not for want of input, ends in
the same outcome with the same output if there is more input behind, and leaves all of that unread.
One that ends for want of input has read all of it, and what it has written is what the evaluation
with more input writes first. -/
theorem unread_input_has_no_influence (settings : Settings) (cancelled : Bool) (code : Source)
    (input more : List UInt8) :
    (∀ outcome b, EvaluatesOn settings cancelled code input outcome b →
      (∀ p, outcome.result ≠ .error (.endOfInput p)) →
      EvaluatesOn settings cancelled code (input ++ more) outcome (b.followedBy more)) ∧
    ∀ outcome b p, EvaluatesOn settings cancelled code input outcome b →
      outcome.result = .error (.endOfInput p) →
      b.unread = [] ∧ ∀ outcome' b',
        EvaluatesOn settings cancelled code (input ++ more) outcome' b' →
        b.written.toList <+: b'.written.toList := by
  have hstart : Abreast more (State.initial settings.capacity code) (.ofInput (input ++ more))
      (State.initial settings.capacity code) (.ofInput input) := ⟨rfl, rfl⟩
  have hruns := fun n => Machine.run_abreast (A := .over settings code) (B := .over settings code)
    (fun _ _ _ _ h => advance_abreast settings code cancelled h) n hstart
  constructor
  · intro outcome b h hresult
    obtain ⟨n, halt, hrun, rfl⟩ := evaluatesOn_iff.mp h
    have hstopped : ∀ p, halt.stopped ≠ .error (.endOfInput p) := fun p hp =>
      hresult p ((Buffer.result_of_conclude cancelled code halt _ p).mpr hp)
    obtain ⟨w, v, ⟨-, hb, -⟩ | ⟨x, y, ha, hb, rfl, rfl, -⟩ | ⟨-, -, y, -, hb, -, -, p, hp⟩⟩ :=
      hruns n
    · cases hrun.symm.trans hb
    · cases hrun.symm.trans hb
      refine evaluatesOn_iff.mpr ⟨n, halt, ha, ?_⟩
      rw [Buffer.conclude_eq cancelled code halt _ (.ofInput input)]
    · cases hrun.symm.trans hb
      exact absurd hp (hstopped p)
  · intro outcome b p h hresult
    obtain ⟨n, halt, hrun, rfl⟩ := evaluatesOn_iff.mp h
    rw [Buffer.result_of_conclude] at hresult
    obtain ⟨w, v, ⟨-, hb, -⟩ | ⟨x, y, -, hb, rfl, -, hy⟩ | ⟨m, s, y, hleads, hb, rfl, hend, -⟩⟩ :=
      hruns n
    · cases hrun.symm.trans hb
    · cases hrun.symm.trans hb
      exact absurd hresult (hy p)
    · cases hrun.symm.trans hb
      -- Up to the read that fails both runs are one, and what is written stays written.
      refine ⟨hend, fun outcome' b' h' => ?_⟩
      obtain ⟨k, halt', hrun', -⟩ := evaluatesOn_iff.mp h'
      exact written_of_run (b := b.followedBy more) (hleads.run_sub hrun').2

end TapeInterpreter
