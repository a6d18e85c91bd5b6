import TapeInterpreter.Proofs.Rules
import TapeInterpreter.Evaluation.Patience

/-!
# Runs of a machine in a world

The rules of how a console answers a step, and how facts about single steps carry over to whole
runs. A world is a state that the console's effects change.
-/
namespace TapeInterpreter
set_option autoImplicit false

variable {σ : Type}

/-- What a step comes to once the console has answered in the world `w`. -/
inductive Served (console : Console (StateM σ)) (w : σ) : Step → Progress → σ → Prop
  | silent {t : State} : Served console w (.silent t) (.running t) w
  | written {byte : UInt8} {p : Nat} {t : State} {v : σ}
      (h : console.write byte w = (.ok (), v)) : Served console w (.write byte p t) (.running t) v
  | unwritten {byte : UInt8} {p : Nat} {t : State} {v : σ} {fault : Fault}
      (h : console.write byte w = (.error fault, v)) :
      Served console w (.write byte p t) (.halted ⟨.error (.io p fault), t⟩) v
  | stored {p : Nat} {t : State} {v : σ} {byte : UInt8} {tape : Tape}
      (h : console.read w = (.ok (some byte), v)) (ht : t.tape.write byte = .ok tape) :
      Served console w (.read p t) (.running { t with tape := tape }) v
  | misplaced {p : Nat} {t : State} {v : σ} {byte : UInt8} {e : OutOfRange}
      (h : console.read w = (.ok (some byte), v)) (ht : t.tape.write byte = .error e) :
      Served console w (.read p t) (.halted ⟨.error (.outOfRange e), t⟩) v
  | exhausted {p : Nat} {t : State} {v : σ} (h : console.read w = (.ok none, v)) :
      Served console w (.read p t) (.halted ⟨.error (.endOfInput p), t⟩) v
  | unread {p : Nat} {t : State} {v : σ} {fault : Fault}
      (h : console.read w = (.error fault, v)) :
      Served console w (.read p t) (.halted ⟨.error (.io p fault), t⟩) v
  | failed {e : EvalError} {t : State} :
      Served console w (.failed e t) (.halted ⟨.error e, t⟩) w
  | finished {p : Nat} {t : State} :
      Served console w (.finished p t) (.halted ⟨.ok p, t⟩) w

theorem serve_served (console : Console (StateM σ)) (w : σ) (step : Step) :
    Served console w step (step.serve console w).1 (step.serve console w).2 := by
  cases step with
  | silent t => exact .silent
  | failed e t => exact .failed
  | finished p t => exact .finished
  | write byte p t =>
    simp only [Step.serve, bind, StateT.bind]
    rcases hw : console.write byte w with ⟨_ | _, v⟩
    · exact .unwritten hw
    · exact .written hw
  | read p t =>
    simp only [Step.serve, bind, StateT.bind]
    rcases hr : console.read w with ⟨_ | _ | byte, v⟩
    · exact .unread hr
    · exact .exhausted hr
    · simp only [State.store]
      cases ht : t.tape.write byte with
      | error e => exact .misplaced hr ht
      | ok tape => exact .stored hr ht

variable {machine : Machine} {console : Console (StateM σ)} {s t : State} {w v : σ} {halt : Halt}

/-- A run goes on at the state its step names, up to a byte that has been stored. -/
theorem Served.next {step : Step} (h : Served console w step (.running t) v) :
    ∃ u, step.next? = some u ∧ ∃ tape, t = { u with tape := tape } := by
  cases h with
  | silent => exact ⟨_, rfl, _, rfl⟩
  | written => exact ⟨_, rfl, _, rfl⟩
  | stored => exact ⟨_, rfl, _, rfl⟩

/-- A run that halts with a syntax error, or behind the source, does so by its step alone. -/
theorem Served.halted {step : Step} (h : Served console w step (.halted halt) v) :
    (∃ e, step = .failed e halt.last ∧ halt.stopped = .error e) ∨
      (∃ p, step = .finished p halt.last ∧ halt.stopped = .ok p) ∨
      ∃ e, halt.stopped = .error e ∧ e.isSyntax = false := by
  cases h with
  | failed => exact Or.inl ⟨_, rfl, rfl⟩
  | finished => exact Or.inr (Or.inl ⟨_, rfl, rfl⟩)
  | unwritten => exact Or.inr (Or.inr ⟨_, rfl, rfl⟩)
  | misplaced => exact Or.inr (Or.inr ⟨_, rfl, rfl⟩)
  | exhausted => exact Or.inr (Or.inr ⟨_, rfl, rfl⟩)
  | unread => exact Or.inr (Or.inr ⟨_, rfl, rfl⟩)

/-- Looking at the cancel flag changes nothing. -/
def Console.Quiet (console : Console (StateM σ)) : Prop := ∀ w, (console.cancelled w).2 = w

namespace Machine

theorem advance_eq (hq : console.Quiet) :
    machine.advance console s w = (machine s (console.cancelled w).1).serve console w := by
  have hw := hq w
  simp only [advance, bind, StateT.bind]
  generalize console.cancelled w = polled at hw ⊢
  obtain ⟨cancelled, v⟩ := polled
  obtain rfl : v = w := hw
  rfl

/-- One step of a run follows a rule of service. -/
theorem advance_served (hq : console.Quiet) {progress : Progress}
    (h : machine.advance console s w = (progress, v)) :
    Served console w (machine s (console.cancelled w).1) progress v := by
  have hs := serve_served console w (machine s (console.cancelled w).1)
  rw [← advance_eq hq, h] at hs
  exact hs

/-- A run from `s` in the world `w` gets to `t` in the world `v`. -/
inductive Reaches (machine : Machine) (console : Console (StateM σ)) :
    State → σ → State → σ → Prop
  | refl (s : State) (w : σ) : Reaches machine console s w s w
  | step {s t u : State} {w v x : σ} (h : machine.advance console s w = (.running t, v))
      (hrest : Reaches machine console t v u x) : Reaches machine console s w u x

theorem Reaches.trans {u : State} {x : σ} (h : machine.Reaches console s w t v)
    (h' : machine.Reaches console t v u x) : machine.Reaches console s w u x := by
  induction h with
  | refl => exact h'
  | step hs _ ih => exact .step hs (ih h')

theorem reaches_of_running {k : Nat} (h : machine.run console k s w = (none, v)) :
    ∃ t, machine.Reaches console s w t v := by
  induction k generalizing s w with
  | zero => cases h; exact ⟨s, .refl s _⟩
  | succ k ih =>
    rw [run_succ] at h
    rcases hs : machine.advance console s w with ⟨t | halt, y⟩
    · rw [hs] at h
      obtain ⟨u, hu⟩ := ih h
      exact ⟨u, .step hs hu⟩
    · rw [hs] at h
      cases h

theorem reaches_of_halted {n : Nat} (h : machine.run console n s w = (some halt, v)) :
    ∃ t u, machine.Reaches console s w t u ∧ machine.advance console t u = (.halted halt, v) := by
  induction n generalizing s w with
  | zero => cases h
  | succ n ih =>
    rw [run_succ] at h
    rcases hs : machine.advance console s w with ⟨t | halt', y⟩
    · rw [hs] at h
      obtain ⟨t', u, hreach, ha⟩ := ih h
      exact ⟨t', u, .step hs hreach, ha⟩
    · rw [hs] at h
      cases h
      exact ⟨s, w, .refl s w, hs⟩

/-- What every step preserves holds wherever a run gets to. -/
theorem Reaches.preserves {P : State → σ → Prop}
    (hP : ∀ s w t v, P s w → machine.advance console s w = (.running t, v) → P t v)
    (h : machine.Reaches console s w t v) (hs : P s w) : P t v := by
  induction h with
  | refl => exact hs
  | step ha _ ih => exact ih (hP _ _ _ _ hs ha)

/-- What every step preserves holds where a run halts. -/
theorem run_halted {P : State → σ → Prop}
    (hP : ∀ s w t v, P s w → machine.advance console s w = (.running t, v) → P t v) {n : Nat}
    (h : P s w) (hrun : machine.run console n s w = (some halt, v)) :
    ∃ t u, P t u ∧ machine.advance console t u = (.halted halt, v) := by
  obtain ⟨t, u, hreach, ha⟩ := reaches_of_halted hrun
  exact ⟨t, u, hreach.preserves hP h, ha⟩

/-- The machine goes from one state and world to another in `k` steps. -/
def Leads (machine : Machine) (console : Console (StateM σ)) (k : Nat) (s : State) (w : σ)
    (t : State) (v : σ) : Prop :=
  ∀ n, machine.run console (n + k) s w = machine.run console n t v

theorem Leads.refl (s : State) (w : σ) : machine.Leads console 0 s w s w := fun _ => rfl

theorem Leads.trans {k l : Nat} {u : State} {x : σ} (h : machine.Leads console k s w t v)
    (h' : machine.Leads console l t v u x) : machine.Leads console (l + k) s w u x := by
  intro n
  rw [← Nat.add_assoc, h, h']

theorem leads_of_advance (h : machine.advance console s w = (.running t, v)) :
    machine.Leads console 1 s w t v := by
  intro n
  rw [run_succ, h]

theorem Reaches.leads (h : machine.Reaches console s w t v) :
    ∃ k, machine.Leads console k s w t v := by
  induction h with
  | refl s w => exact ⟨0, .refl s w⟩
  | step hs _ ih =>
    obtain ⟨k, hk⟩ := ih
    exact ⟨k + 1, (leads_of_advance hs).trans hk⟩

theorem run_of_halts (h : machine.advance console s w = (.halted halt, v)) (n : Nat) :
    machine.run console (n + 1) s w = (some halt, v) := by
  rw [run_succ, h]

/-- Steps on which the console is not asked and the cancel flag does not matter. -/
inductive Glides (machine : Machine) : State → State → Prop
  | refl (s : State) : Glides machine s s
  | step {s t u : State} (h : ∀ cancelled, machine s cancelled = .silent t)
      (hrest : Glides machine t u) : Glides machine s u

theorem Glides.trans {u : State} (h : machine.Glides s t) (h' : machine.Glides t u) :
    machine.Glides s u := by
  induction h with
  | refl => exact h'
  | step hs _ ih => exact .step hs (ih h')

theorem leads_of_silent (hq : console.Quiet) (h : machine s (console.cancelled w).1 = .silent t) :
    machine.Leads console 1 s w t w := by
  apply leads_of_advance
  rw [advance_eq hq, h]
  rfl

/-- Nothing but the state changes while a machine glides. -/
theorem Glides.reaches (hq : console.Quiet) (h : machine.Glides s t) (w : σ) :
    machine.Reaches console s w t w := by
  induction h with
  | refl s => exact .refl s w
  | step hs _ ih =>
    refine .step ?_ ih
    rw [advance_eq hq, hs]
    rfl

theorem Glides.leads (hq : console.Quiet) (h : machine.Glides s t) (w : σ) :
    ∃ k, machine.Leads console k s w t w :=
  (h.reaches hq w).leads

/-- A run that starts with a glide gives up on it, or goes on behind it. -/
theorem Glides.run_eq (hq : console.Quiet) (h : machine.Glides s t) (n : Nat) (w : σ) :
    machine.run console n s w = (none, w) ∨
      ∃ k ≤ n, machine.run console n s w = machine.run console k t w := by
  induction h generalizing n with
  | refl s => exact Or.inr ⟨n, Nat.le_refl n, rfl⟩
  | step hs _ ih =>
    cases n with
    | zero => exact Or.inl rfl
    | succ n =>
      rw [leads_of_silent hq (hs _) n]
      rcases ih n with he | ⟨k, hk, he⟩
      · exact Or.inl he
      · exact Or.inr ⟨k, Nat.le_succ_of_le hk, he⟩

/-- A run that halts does so behind every state it is led to. -/
theorem Leads.run_sub {k n : Nat} (h : machine.Leads console k s w t v) {u : σ}
    (hrun : machine.run console n s w = (some halt, u)) :
    k ≤ n ∧ machine.run console (n - k) t v = (some halt, u) := by
  have hle : k ≤ n := by
    refine Nat.not_lt.mp fun hlt => ?_
    have hk := run_add n (k - n) s w hrun
    rw [Nat.add_sub_cancel' (Nat.le_of_lt hlt), ← Nat.zero_add k, h 0, run_zero] at hk
    cases hk
  refine ⟨hle, ?_⟩
  rw [← h, Nat.sub_add_cancel hle, hrun]

/-- A run that is refused is so by its control, at some step. -/
theorem charge_of_run {settings : Settings} {code : Source} (hq : console.Quiet) {n : Nat}
    {e : EvalError} (hrun : (Machine.over settings code).run console n s w = (some halt, v))
    (he : halt.stopped = .error e) (hrefused : e = .cancelled ∨ ∃ l, e = .stepLimitExceeded l) :
    ∃ u steps, charge settings.control (console.cancelled u).1 steps = .error e := by
  obtain ⟨t, u, -, ha⟩ := reaches_of_halted hrun
  have hserved := advance_served hq ha
  generalize hstep : Machine.over settings code t (console.cancelled u).1 = step at hserved
  cases hserved with
  | failed =>
    cases he
    rcases State.step_failed hstep with hsyntax | hcharge | ⟨access, rfl⟩
    · rcases hrefused with rfl | ⟨l, rfl⟩ <;> cases hsyntax
    · exact ⟨_, _, hcharge⟩
    · rcases hrefused with h | ⟨l, h⟩ <;> cases h
  | _ => cases he <;> rcases hrefused with h | ⟨l, h⟩ <;> cases h

end Machine

end TapeInterpreter
