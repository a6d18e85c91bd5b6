import TapeInterpreter.Proofs.StepLimit

/-!
# Cancellation takes effect at the next attempt

The cancel flag goes up behind a chosen call. Until then the run with the flag and the run without
it are one run. From then on both go the same way as long as nothing is attempted, and at the first
attempt the cancelled run stops.
-/
namespace TapeInterpreter
set_option autoImplicit false

/-- The same replies, with a cancel flag that goes up behind the first `n` calls. -/
def Behaviour.raisedBehind (b : Behaviour) (n : Nat) : Behaviour :=
  { b with cancelled := fun calls => n ≤ calls.length }

/-- Behind its first `n` calls an evaluation that nobody cancels attempts a step. -/
def AttemptsBehind (b : Behaviour) (settings : Settings) (code : Source) (n : Nat) : Prop :=
  ∃ t log, (Machine.over settings code).Reaches (b.steady false).console
    (State.initial settings.capacity code) [] t log ∧ n ≤ log.length ∧
      t.attempts settings code = true

variable {b : Behaviour} {settings : Settings} {code : Source} {maxSteps : Option Nat}
  {n : Nat} {s t : State} {log v : List Call} {machine : Machine}

/-- Until the flag goes up, and at every step that is no attempt, the two runs do the same. -/
theorem advance_raised (h : log.length < n ∨ s.attempts settings code = false) :
    (Machine.over settings code).advance (b.raisedBehind n).console s log =
      (Machine.over settings code).advance (b.steady false).console s log := by
  rw [advance_over, advance_over]
  have hflag : s.step .remembering settings code ((b.raisedBehind n).cancelled log) =
      s.step .remembering settings code ((b.steady false).cancelled log) := by
    rcases h with h | h
    · have hdown : (b.raisedBehind n).cancelled log = false := by
        simp [Behaviour.raisedBehind, h]
      rw [hdown]
      rfl
    · exact State.step_of_idle h _
  rw [hflag]
  -- The two consoles differ in nothing but the flag.
  cases s.step .remembering settings code _ <;> rfl

/-- Once the flag is up an attempt is refused. -/
theorem advance_cancelled (hn : n ≤ log.length)
    (h : s.attempts (settings.under (some ⟨maxSteps⟩)) code = true) :
    (Machine.over (settings.under (some ⟨maxSteps⟩)) code).advance (b.raisedBehind n).console s
      log = (.halted ⟨.error .cancelled, s⟩, log) := by
  apply advance_of_refused
  rw [State.charged_of_attempt h]
  have hup : (b.raisedBehind n).cancelled log = true := by simp [Behaviour.raisedBehind, hn]
  rw [hup]
  rfl

/-- Before the flag goes up a step makes at most the call behind which it does, and afterwards a
step that is no attempt makes none. -/
theorem length_of_advance {progress : Progress} (hlog : log.length ≤ n)
    (h : log.length < n ∨ s.attempts settings code = false)
    (ha : (Machine.over settings code).advance (b.steady false).console s log = (progress, v)) :
    v.length ≤ n := by
  rcases h with h | h
  · obtain ⟨new, rfl, hnew, -⟩ := Machine.advance_calls ha
    rw [List.length_append]
    omega
  · rw [advance_over] at ha
    have hserve : ((s.step .remembering settings code ((b.steady false).cancelled log)).serve
        (b.steady false).console log).2 = log := State.serve_of_idle h _ log
    rw [ha] at hserve
    obtain rfl : v = log := hserve
    exact hlog

/-- The two runs are one run, or both have got behind the first `n` calls. -/
theorem run_raised (b : Behaviour) (settings : Settings) (code : Source) (n k : Nat) (s : State)
    (log : List Call) :
    (Machine.over settings code).run (b.raisedBehind n).console k s log =
      (Machine.over settings code).run (b.steady false).console k s log ∨
    ∃ v, n ≤ v.length ∧
      v <+: ((Machine.over settings code).run (b.raisedBehind n).console k s log).2 ∧
      v <+: ((Machine.over settings code).run (b.steady false).console k s log).2 := by
  induction k generalizing s log with
  | zero => exact Or.inl rfl
  | succ k ih =>
    rcases Nat.lt_or_ge log.length n with hlt | hle
    · rw [Machine.run_succ, Machine.run_succ, advance_raised (Or.inl hlt)]
      rcases (Machine.over settings code).advance (b.steady false).console s log with
        ⟨t | halt, v⟩
      · exact ih t v
      · exact Or.inl rfl
    · have hcalls := fun b => Machine.run_calls (Machine.over settings code) b (k + 1) s log
      obtain ⟨new, hnew, -⟩ := hcalls (b.raisedBehind n)
      obtain ⟨new', hnew', -⟩ := hcalls (b.steady false)
      exact Or.inr ⟨log, hle, ⟨new, hnew.symm⟩, ⟨new', hnew'.symm⟩⟩

/-- Without an attempt behind the first `n` calls the two runs are one run, which makes no other
call. -/
theorem run_of_no_attempt (k : Nat) (hlog : log.length ≤ n)
    (h : ∀ t v, (Machine.over settings code).Reaches (b.steady false).console s log t v →
      n ≤ v.length → t.attempts settings code = false) :
    (Machine.over settings code).run (b.raisedBehind n).console k s log =
      (Machine.over settings code).run (b.steady false).console k s log ∧
    ((Machine.over settings code).run (b.steady false).console k s log).2.length ≤ n := by
  induction k generalizing s log with
  | zero => exact ⟨rfl, hlog⟩
  | succ k ih =>
    have hsame : log.length < n ∨ s.attempts settings code = false := by
      rcases Nat.lt_or_ge log.length n with hlt | hle
      · exact Or.inl hlt
      · exact Or.inr (h s log (.refl s log) hle)
    rw [Machine.run_succ, Machine.run_succ, advance_raised hsame]
    rcases ha : (Machine.over settings code).advance (b.steady false).console s log with
      ⟨t | halt, v⟩
    · exact ih (length_of_advance hlog hsame ha) fun u x hu => h u x (.step ha hu)
    · exact ⟨rfl, length_of_advance hlog hsame ha⟩

/-- From here the cancelled run stops behind the first `n` calls, which the other run makes too. -/
def StopsBehind (b : Behaviour) (settings : Settings) (code : Source) (n : Nat) (s : State)
    (log : List Call) : Prop :=
  ∃ k last v, v.length = n ∧
    (Machine.over settings code).run (b.raisedBehind n).console k s log =
      (some ⟨.error .cancelled, last⟩, v) ∧
    ∃ j, (Machine.over settings code).run (b.steady false).console j s log = (none, v)

theorem stopsBehind_of_attempt (hlog : log.length = n)
    (h : s.attempts (settings.under (some ⟨maxSteps⟩)) code = true) :
    StopsBehind b (settings.under (some ⟨maxSteps⟩)) code n s log :=
  ⟨1, s, log, hlog, Machine.run_of_halts (advance_cancelled (Nat.le_of_eq hlog.symm) h) 0, 0, rfl⟩

theorem StopsBehind.of_step (h : StopsBehind b settings code n t v)
    (hsame : log.length < n ∨ s.attempts settings code = false)
    (ha : (Machine.over settings code).advance (b.steady false).console s log = (.running t, v)) :
    StopsBehind b settings code n s log := by
  obtain ⟨k, last, x, hx, hk, j, hj⟩ := h
  have hraised := Machine.leads_of_advance ((advance_raised hsame).trans ha)
  exact ⟨k + 1, last, x, hx, (hraised k).trans hk, j + 1,
    (Machine.leads_of_advance ha j).trans hj⟩

/-- With an attempt behind the first `n` calls the cancelled run stops after just these calls. -/
theorem stopsBehind_of_reaches (hlog : log.length ≤ n)
    (h : (Machine.over (settings.under (some ⟨maxSteps⟩)) code).Reaches (b.steady false).console
      s log t v)
    (hv : n ≤ v.length) (ht : t.attempts (settings.under (some ⟨maxSteps⟩)) code = true) :
    StopsBehind b (settings.under (some ⟨maxSteps⟩)) code n s log := by
  induction h with
  | refl s log => exact stopsBehind_of_attempt (Nat.le_antisymm hlog hv) ht
  | @step s t u log v x ha _ ih =>
    have hon : log.length < n ∨ s.attempts (settings.under (some ⟨maxSteps⟩)) code = false →
        StopsBehind b (settings.under (some ⟨maxSteps⟩)) code n s log := fun hsame =>
      (ih (length_of_advance hlog hsame ha) hv ht).of_step hsame ha
    rcases Nat.lt_or_ge log.length n with hlt | hge
    · exact hon (Or.inl hlt)
    · cases hattempts : s.attempts (settings.under (some ⟨maxSteps⟩)) code with
      | true => exact stopsBehind_of_attempt (Nat.le_antisymm hlog hge) hattempts
      | false => exact hon (Or.inr hattempts)

/-! ## Cancelled evaluations -/

/-- The flag makes no difference to how a run is concluded. -/
theorem conclude_raised (halt : Halt) (log : List Call) :
    halt.conclude (b.raisedBehind n).console code log =
      halt.conclude (b.steady false).console code log := by
  obtain ⟨_ | p, last⟩ := halt <;> rfl

/-- A scan makes the calls of its run, and at most a flush behind them. -/
theorem calls_of_scan (machine : Machine) (b : Behaviour) (code : Source) (k : Nat) (s : State)
    (log : List Call) :
    (machine.scan b code k s log).2 = (machine.run b.console k s log).2 ∨
      ∃ reply, (machine.scan b code k s log).2 =
        (machine.run b.console k s log).2 ++ [.flush reply] := by
  rcases hrun : machine.run b.console k s log with ⟨_ | halt, v⟩
  · exact Or.inl (by rw [Machine.scan_of_running hrun])
  · rw [Machine.scan_of_halted hrun]
    exact conclude_calls b code halt v

/-- Runs that are the same give the same scans. -/
theorem scan_raised {k : Nat}
    (h : machine.run (b.raisedBehind n).console k s log =
      machine.run (b.steady false).console k s log) :
    machine.scan (b.raisedBehind n) code k s log = machine.scan (b.steady false) code k s log := by
  rcases hrun : machine.run (b.steady false).console k s log with ⟨_ | halt, v⟩
  · rw [Machine.scan_of_running hrun, Machine.scan_of_running (h.trans hrun)]
  · rw [Machine.scan_of_halted hrun, Machine.scan_of_halted (h.trans hrun), conclude_raised]

/-- The first `n` calls are the same. -/
theorem take_of_raised (b : Behaviour) (settings : Settings) (code : Source) (n k : Nat) :
    (evaluate (b.raisedBehind n).console settings code k []).2.take n =
      (evaluate (b.steady false).console settings code k []).2.take n := by
  rw [evaluate_eq_scan, evaluate_eq_scan]
  rcases run_raised b settings code n k (State.initial settings.capacity code) [] with
    hsame | ⟨v, hv, ⟨later, hraised⟩, ⟨later', hsteady⟩⟩
  · rw [scan_raised hsame]
  · have hscan : ∀ b : Behaviour, ∀ later,
        v ++ later = ((Machine.over settings code).run b.console k
          (State.initial settings.capacity code) []).2 →
        ((Machine.over settings code).scan b code k
          (State.initial settings.capacity code) []).2.take n = v.take n := by
      intro b later hlater
      rcases calls_of_scan (Machine.over settings code) b code k
        (State.initial settings.capacity code) [] with h | ⟨reply, h⟩
      · rw [h, ← hlater, List.take_append_of_le_length hv]
      · rw [h, ← hlater, List.append_assoc, List.take_append_of_le_length hv]
    rw [hscan _ later hraised, hscan _ later' hsteady]

/-- Where no step is attempted any more, at most the flush is left to be called. -/
theorem evaluate_of_no_attempt (h : ¬ AttemptsBehind b settings code n) (k : Nat) :
    evaluate (b.raisedBehind n).console settings code k [] =
      evaluate (b.steady false).console settings code k [] ∧
    ((evaluate (b.steady false).console settings code k []).2.drop n = [] ∨
      ∃ reply,
        (evaluate (b.steady false).console settings code k []).2.drop n = [.flush reply]) := by
  have hidle : ∀ t v, (Machine.over settings code).Reaches (b.steady false).console
      (State.initial settings.capacity code) [] t v → n ≤ v.length →
      t.attempts settings code = false := by
    intro t v hreach hv
    cases hattempts : t.attempts settings code with
    | false => rfl
    | true => exact absurd ⟨t, v, hreach, hv, hattempts⟩ h
  obtain ⟨hsame, hlength⟩ := run_of_no_attempt k (Nat.zero_le n) hidle
  rw [evaluate_eq_scan, evaluate_eq_scan]
  refine ⟨scan_raised hsame, ?_⟩
  rcases calls_of_scan (Machine.over settings code) (b.steady false) code k
    (State.initial settings.capacity code) [] with hcalls | ⟨reply, hcalls⟩
  · rw [hcalls]
    exact Or.inl (List.drop_eq_nil_of_le hlength)
  · rw [hcalls]
    rcases Nat.lt_or_eq_of_le hlength with hlt | heq
    · exact Or.inl (List.drop_eq_nil_of_le (by rw [List.length_append]; exact hlt))
    · exact Or.inr ⟨reply, by rw [← heq, List.drop_left]⟩

/-- Once no step is attempted any more the evaluation ends. -/
theorem evaluates_of_no_attempt (h : ¬ AttemptsBehind b settings code n) {calls : List Call}
    (hcalls : Makes (b.steady false) settings code calls) (hn : n ≤ calls.length) :
    ∃ outcome calls, Evaluates (b.steady false) settings code outcome calls := by
  obtain ⟨k, hk⟩ := hcalls
  rw [evaluate_eq_scan] at hk
  rcases hrun : (Machine.over settings code).run (b.steady false).console k
    (State.initial settings.capacity code) [] with ⟨_ | halt, log⟩
  · rw [Machine.scan_of_running hrun] at hk
    obtain rfl : log = calls := hk
    obtain ⟨t, ht⟩ := Machine.reaches_of_running hrun
    have hconsistent : (State.initial settings.capacity code).Consistent code settings.maxDepth :=
      .initial settings.capacity
    have ht' := hconsistent.reaches Resume.remembering_sound (b.steady false).quiet ht
    obtain ⟨u, hglides, -, -, hrest⟩ := ht'.rests settings
    have hu := ht.trans (hglides.reaches (b.steady false).quiet log)
    have hstops := hrest.resolve_left fun hattempts => h ⟨u, log, hu, hn, hattempts⟩
    obtain ⟨j, hj⟩ := hu.leads
    obtain ⟨halt, v, ha⟩ := halts_of_next_eq_none (b.steady false) log hstops
    exact ⟨_, _, Machine.evaluates_iff.mpr
      ⟨1 + j, halt, v, (hj 1).trans (Machine.run_of_halts ha 0), rfl⟩⟩
  · exact ⟨_, _, Machine.evaluates_iff.mpr ⟨k, halt, log, hrun, rfl⟩⟩

/-- Cancellation takes effect at the next attempt. Up to the call behind which the flag goes up, the
calls are those of the evaluation that nobody cancels. If that one attempts no step afterwards, it
ends, and the cancelled one does just the same: at most the flush is left to be called. Else the
cancelled evaluation ends with a cancellation and makes no further call, whatever the attempt would
have come to. -/
theorem cancellation_takes_effect_at_the_next_attempt (b : Behaviour) (settings : Settings)
    (maxSteps : Option Nat) (code : Source) (n : Nat) :
    (∀ k,
      (evaluate (b.raisedBehind n).console (settings.under (some ⟨maxSteps⟩)) code k []).2.take n =
        (evaluate (b.steady false).console (settings.under (some ⟨maxSteps⟩)) code k []).2.take n) ∧
    (¬ AttemptsBehind b (settings.under (some ⟨maxSteps⟩)) code n →
      (∀ k, evaluate (b.raisedBehind n).console (settings.under (some ⟨maxSteps⟩)) code k [] =
        evaluate (b.steady false).console (settings.under (some ⟨maxSteps⟩)) code k []) ∧
      ∀ calls, Makes (b.steady false) (settings.under (some ⟨maxSteps⟩)) code calls →
        (calls.drop n = [] ∨ ∃ reply, calls.drop n = [.flush reply]) ∧
        (n ≤ calls.length → ∃ outcome calls,
          Evaluates (b.steady false) (settings.under (some ⟨maxSteps⟩)) code outcome calls)) ∧
    (AttemptsBehind b (settings.under (some ⟨maxSteps⟩)) code n →
      ∃ outcome calls,
        Evaluates (b.raisedBehind n) (settings.under (some ⟨maxSteps⟩)) code outcome calls ∧
        outcome.result = .error .cancelled ∧ calls.length = n ∧
        Makes (b.steady false) (settings.under (some ⟨maxSteps⟩)) code calls) := by
  refine ⟨take_of_raised b _ code n, fun hno => ?_, ?_⟩
  · refine ⟨fun k => (evaluate_of_no_attempt hno k).1, ?_⟩
    rintro calls ⟨k, rfl⟩
    exact ⟨(evaluate_of_no_attempt hno k).2, evaluates_of_no_attempt hno ⟨k, rfl⟩⟩
  · rintro ⟨t, log, hreach, hn, hattempts⟩
    obtain ⟨k, last, x, hx, hk, j, hj⟩ :=
      stopsBehind_of_reaches (Nat.zero_le n) hreach hn hattempts
    refine ⟨_, _, Machine.evaluates_iff.mpr ⟨k, _, x, hk, rfl⟩, rfl, hx, j, ?_⟩
    rw [evaluate_eq_scan]
    exact congrArg Prod.snd (Machine.scan_of_running hj)

end TapeInterpreter
