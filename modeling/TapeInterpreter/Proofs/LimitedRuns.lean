import TapeInterpreter.Proofs.Attempt

/-!
# A limited run ends

Under a limit each attempt uses up one step, and a step that is no attempt uses up text. So what a
run has left, the steps first and then the text, gets less with every step of the machine, however
often a body is run again. The count of steps stays within the limit, and the calls within the
count.
-/
namespace TapeInterpreter
set_option autoImplicit false

/-- More than the steps of the machine that a run under the limit has left. All the text can be
scanned for each step that may still be counted. -/
def State.remaining (s : State) (limit : Nat) (code : Source) : Nat :=
  (limit - s.steps) * (code.size + 2) + (code.size + 1 - s.position)

/-- Where a run goes on, or where it has halted. -/
def Progress.state : Progress → State
  | .running s => s
  | .halted halt => halt.last

variable {σ : Type} {console : Console (StateM σ)} {b : Behaviour} {settings : Settings}
  {code : Source} {limit : Nat} {s t : State} {w : σ} {log calls : List Call} {outcome : Outcome}

/-- A limit permits a step if it has not been reached. -/
theorem charge_limited {cancelled : Bool} {k n : Nat}
    (h : charge (some ⟨some limit⟩) cancelled k = .ok n) : k < limit ∧ n = k + 1 := by
  simp only [charge] at h
  split at h
  · cases h
  · split at h
    · cases h
    · rename_i hlimit
      cases h
      exact ⟨Nat.lt_of_not_le hlimit, rfl⟩

/-- Every step uses up some of what is left. -/
theorem State.Consistent.remaining_lt {cancelled : Bool}
    (hlimit : settings.control = some ⟨some limit⟩) (h : s.Consistent code settings.maxDepth)
    (hn : (s.step .remembering settings code cancelled).next? = some t) :
    t.remaining limit code < s.remaining limit code := by
  have hcharged := charged_of_next hn
  cases hattempts : s.attempts settings code with
  | true =>
    rw [charged_of_attempt hattempts, hlimit] at hcharged
    obtain ⟨hlt, hsteps⟩ := charge_limited hcharged
    obtain ⟨k, hk⟩ : ∃ k, limit - s.steps = k + 1 := ⟨limit - s.steps - 1, by omega⟩
    have hleft : limit - t.steps = k := by omega
    -- All of the text may lie before the run again, but that is less than a step is worth.
    rw [remaining, remaining, hk, hleft, Nat.succ_mul]
    omega
  | false =>
    rw [charged_of_idle hattempts] at hcharged
    obtain ⟨-, hright, hsize⟩ := h.moves_of_idle hattempts hn
    have hsteps : t.steps = s.steps := (Except.ok.inj hcharged).symm
    rw [remaining, remaining, hsteps]
    omega

/-- A run with more patience than it has left to run halts. -/
theorem halts_of_remaining_lt (hq : console.Quiet) (hlimit : settings.control = some ⟨some limit⟩)
    (h : s.Consistent code settings.maxDepth) {n : Nat} (hn : s.remaining limit code < n) :
    ∃ halt v, (Machine.over settings code).run console n s w = (some halt, v) := by
  induction n generalizing s w with
  | zero => exact absurd hn (Nat.not_lt_zero _)
  | succ n ih =>
    rw [Machine.run_succ]
    rcases ha : (Machine.over settings code).advance console s w with ⟨t | halt, v⟩
    · have ht := h.advance Resume.remembering_sound hq ha
      obtain ⟨u, hu, tape, rfl⟩ := (Machine.advance_served hq ha).next
      have hlt : u.remaining limit code < s.remaining limit code := h.remaining_lt hlimit hu
      exact ih ht (Nat.lt_of_lt_of_le hlt (Nat.le_of_lt_succ hn))
    · exact ⟨halt, v, rfl⟩

/-! ## Counts and calls -/

/-- The count of steps is within the limit, and the calls are within the count. -/
def Counted (limit : Nat) (s : State) (log : List Call) : Prop :=
  s.steps ≤ limit ∧ log.length ≤ s.steps

/-- A step makes a call only if it is counted. -/
theorem Counted.advance (hlimit : settings.control = some ⟨some limit⟩) (h : Counted limit s log)
    {progress : Progress}
    (ha : (Machine.over settings code).advance b.console s log = (progress, calls)) :
    Counted limit progress.state calls := by
  obtain ⟨hsteps, hlog⟩ := h
  have hstate : ∀ {n}, s.charged settings code (b.cancelled log) = .ok n →
      progress.state.steps = n := by
    intro n hn
    rw [advance_of_charged b log hn] at ha
    obtain ⟨rfl, -⟩ := Prod.mk.inj ha
    cases ((s.free settings code).serve b.console log).1 <;> rfl
  cases hattempts : s.attempts settings code with
  | false =>
    have hidle : ((s.step .remembering settings code (b.cancelled log)).serve b.console log).2 =
        log := State.serve_of_idle hattempts b.console log
    rw [← advance_over, ha] at hidle
    obtain rfl : calls = log := hidle
    have hcount := hstate (State.charged_of_idle hattempts)
    exact ⟨hcount ▸ hsteps, hcount ▸ hlog⟩
  | true =>
    have hcharged : s.charged settings code (b.cancelled log) =
        charge settings.control (b.cancelled log) s.steps := State.charged_of_attempt hattempts
    cases hcharge : charge settings.control (b.cancelled log) s.steps with
    | error e =>
      rw [advance_of_refused b log (hcharged.trans hcharge)] at ha
      cases ha
      exact ⟨hsteps, hlog⟩
    | ok n =>
      have hcount := hstate (hcharged.trans hcharge)
      rw [hlimit] at hcharge
      obtain ⟨hlt, rfl⟩ := charge_limited hcharge
      obtain ⟨new, rfl, hnew, -⟩ := Machine.advance_calls ha
      rw [Counted, hcount, List.length_append]
      omega

theorem Counted.initial (limit capacity : Nat) (code : Source) :
    Counted limit (State.initial capacity code) [] :=
  ⟨Nat.zero_le limit, Nat.zero_le _⟩

/-- With a limit on the steps every evaluation ends, within a patience that depends on the limit
and the length of the source only. On the way the count of steps never exceeds the limit, and there
are no more reads and writes than steps. -/
theorem limited_evaluation_ends (b : Behaviour) (settings : Settings) (limit : Nat)
    (code : Source) :
    (∀ patience, (limit + 1) * (code.size + 2) ≤ patience → ∃ outcome calls,
      evaluate b.console (settings.under (some ⟨some limit⟩)) code patience [] =
        (some outcome, calls)) ∧
    (∀ s log, (Machine.over (settings.under (some ⟨some limit⟩)) code).Reaches b.console
      (State.initial settings.capacity code) [] s log →
        s.steps ≤ limit ∧ log.length ≤ s.steps) ∧
    ∀ outcome calls, Evaluates b (settings.under (some ⟨some limit⟩)) code outcome calls →
      outcome.steps ≤ limit ∧ (calls.countP fun call => !call.isFlush) ≤ outcome.steps := by
  have hlimit : (settings.under (some ⟨some limit⟩)).control = some ⟨some limit⟩ := rfl
  refine ⟨fun patience hpatience => ?_, fun s log hreach => ?_, fun outcome calls h => ?_⟩
  · have hleft : (State.initial settings.capacity code).remaining limit code < patience := by
      rw [Nat.succ_mul] at hpatience
      simp only [State.remaining, State.initial, Nat.sub_zero]
      omega
    obtain ⟨halt, log, hrun⟩ := halts_of_remaining_lt b.quiet hlimit
      (.initial settings.capacity) hleft
    exact ⟨_, _, Machine.evaluate_eq_some_iff.mpr ⟨halt, log, hrun, rfl⟩⟩
  · exact hreach.preserves (fun _ _ _ _ hs ha => hs.advance hlimit ha)
      (Counted.initial limit settings.capacity code)
  · obtain ⟨n, halt, log, hrun, hconclude⟩ := Machine.evaluates_iff.mp h
    obtain ⟨t, u, ht, ha⟩ := Machine.run_halted (P := Counted limit)
      (fun _ _ _ _ hs ha => hs.advance hlimit ha) (.initial limit settings.capacity code) hrun
    obtain ⟨hsteps, hlog⟩ : Counted limit halt.last log := ht.advance hlimit ha
    have hcount := conclude_steps b code halt log
    have hcalls := conclude_calls b code halt log
    rw [hconclude] at hcount hcalls
    have hserved := List.countP_le_length (p := fun call : Call => !call.isFlush) (l := log)
    rw [hcount]
    refine ⟨hsteps, ?_⟩
    rcases hcalls with rfl | ⟨reply, rfl⟩
    · exact Nat.le_trans hserved hlog
    · rw [List.countP_append]
      exact Nat.le_trans hserved hlog

end TapeInterpreter
