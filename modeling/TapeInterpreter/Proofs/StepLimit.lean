import Mathlib.Order.Nat
import Mathlib.Data.Nat.Find
import TapeInterpreter.Proofs.LimitedRuns
import TapeInterpreter.Proofs.SyntaxVerdict

/-!
# The step limit cuts a run and changes nothing else

Two runs of one source under different controls take the same steps until one of them is refused.
So a run that is not refused is reproduced under every laxer control, and one that is has made the
first calls of the other. A limited run always ends.
-/
namespace TapeInterpreter
set_option autoImplicit false

/-- The same replies, with a cancel flag that never changes. -/
def Behaviour.steady (b : Behaviour) (flag : Bool) : Behaviour :=
  { b with cancelled := fun _ => flag }

/-- Where `control` permits a step, so does `control'`, and `C` relates the counts before and
behind it. -/
def Laxer (control control' : Option Control) (C : Nat → Nat → Prop) : Prop :=
  ∀ k k' n, C k k' → charge control false k = .ok n →
    ∃ n', charge control' false k' = .ok n' ∧ C n n'

/-- A limit is laxer than another one if it is not lower. -/
theorem laxer_of_le {l : Nat} {maxSteps : Option Nat} (h : ∀ l' ∈ maxSteps, l ≤ l') :
    Laxer (some ⟨some l⟩) (some ⟨maxSteps⟩) Eq := by
  rintro k _ n rfl hcharge
  by_cases hk : l ≤ k
  · simp [charge, hk] at hcharge
  · simp only [charge, Bool.false_eq_true, if_false, if_neg hk, Except.ok.injEq] at hcharge
    subst hcharge
    refine ⟨k + 1, ?_, rfl⟩
    cases maxSteps with
    | none => rfl
    | some l' =>
      have hl := h l' rfl
      simp only [charge, Bool.false_eq_true, if_false]
      exact if_neg (by omega)

/-- Without a control nothing is refused and nothing counted. -/
theorem laxer_none (control : Option Control) : Laxer control none fun _ k => k = 0 :=
  fun _ k' _ hk _ => ⟨k', rfl, hk⟩

theorem charge_le_succ {control : Option Control} {cancelled : Bool} {k n : Nat}
    (h : charge control cancelled k = .ok n) : n ≤ k + 1 := by
  unfold charge at h
  split at h
  · cases h; exact Nat.le_succ k
  · split at h
    · cases h
    · split at h
      · cases h; exact Nat.le_refl _
      · split at h
        · cases h
        · cases h; exact Nat.le_refl _

theorem control_of_charge {control : Option Control} {cancelled : Bool} {k l : Nat}
    (h : charge control cancelled k = .error (.stepLimitExceeded l)) : control = some ⟨some l⟩ := by
  unfold charge at h
  split at h
  · cases h
  · split at h
    · cases h
    · split at h
      · cases h
      · rename_i c _ l' hl
        split at h
        · cases h
          rw [← hl]
        · cases h

/-- While the flag is down only a limit refuses a step. -/
theorem charge_refused {control : Option Control} {k : Nat} {e : EvalError}
    (h : charge control false k = .error e) :
    ∃ l, control = some ⟨some l⟩ ∧ l ≤ k ∧ e = .stepLimitExceeded l := by
  unfold charge at h
  split at h
  · cases h
  · rename_i c
    obtain ⟨maxSteps⟩ := c
    simp only [Bool.false_eq_true, if_false] at h
    split at h
    · cases h
    · rename_i l
      split at h
      · rename_i hle
        cases h
        exact ⟨l, rfl, hle, rfl⟩
      · cases h

variable {b : Behaviour} {settings : Settings} {code : Source} {control control' : Option Control}
  {C : Nat → Nat → Prop} {s : State} {m : Nat}

/-- The three ways in which a run under `control` can stand to the one under `control'`. -/
inductive Compared (settings : Settings) (code : Source) (b : Behaviour)
    (control control' : Option Control) (C : Nat → Nat → Prop) (n : Nat) (s : State) (m : Nat)
    (log : List Call) : Prop
  /-- Both go on. -/
  | running {v : List Call}
      (h : (Machine.over (settings.under control) code).run (b.steady false).console n s log =
        (none, v))
      (h' : (Machine.over (settings.under control') code).run (b.steady false).console n
        (s.withSteps m) log = (none, v))
  /-- Both have halted in the same way. -/
  | halted {stopped : Except EvalError Nat} {last : State} {k : Nat} {v : List Call}
      (h : (Machine.over (settings.under control) code).run (b.steady false).console n s log =
        (some ⟨stopped, last⟩, v))
      (h' : (Machine.over (settings.under control') code).run (b.steady false).console n
        (s.withSteps m) log = (some ⟨stopped, last.withSteps k⟩, v))
      (hC : C last.steps k)
  /-- The first one has been refused a step where the second one goes on. -/
  | refused {l j : Nat} {last : State} {v : List Call} (hcontrol : control = some ⟨some l⟩)
      (h : (Machine.over (settings.under control) code).run (b.steady false).console n s log =
        (some ⟨.error (.stepLimitExceeded l), last⟩, v))
      (h' : (Machine.over (settings.under control') code).run (b.steady false).console j
        (s.withSteps m) log = (none, v))
      (hj : j < n) (hl : l ≤ s.steps + j)

/-- Runs under two controls take the same steps until one is refused. -/
theorem compared_of_laxer (hlax : Laxer control control' C) (n : Nat) (hC : C s.steps m)
    (log : List Call) : Compared settings code b control control' C n s m log := by
  induction n generalizing s m log with
  | zero => exact .running rfl rfl
  | succ n ih =>
    -- What is served is the same on both sides, and only the counts differ.
    have hserved : ∀ k k', s.charged (settings.under control) code false = .ok k →
        (s.withSteps m).charged (settings.under control') code false = .ok k' → C k k' →
        k ≤ s.steps + 1 → Compared settings code b control control' C (n + 1) s m log := by
      intro k k' hk hk' hkk hle
      have hadvance := advance_of_charged (b.steady false) log hk
      have hadvance' := advance_of_charged (b.steady false) log hk'
      have hfree : (s.withSteps m).free (settings.under control') code =
          s.free (settings.under control) code := rfl
      rw [hfree] at hadvance'
      generalize (s.free (settings.under control) code).serve (b.steady false).console log = served
        at hadvance hadvance'
      obtain ⟨u | halt, v⟩ := served
      · have hrun := Machine.leads_of_advance hadvance
        have hrun' := Machine.leads_of_advance hadvance'
        cases ih (s := u.withSteps k) (m := k') hkk v with
        | running h h' => exact .running ((hrun n).trans h) ((hrun' n).trans h')
        | halted h h' hC => exact .halted ((hrun n).trans h) ((hrun' n).trans h') hC
        | @refused l j last v hcontrol h h' hj hl =>
          have hl : l ≤ k + j := hl
          exact .refused hcontrol ((hrun n).trans h) ((hrun' j).trans h') (by omega) (by omega)
      · exact .halted (Machine.run_of_halts hadvance n) (Machine.run_of_halts hadvance' n) hkk
    have hattempts : (s.withSteps m).attempts (settings.under control') code =
        s.attempts (settings.under control) code := rfl
    cases hidle : s.attempts (settings.under control) code with
    | false =>
      exact hserved s.steps m (State.charged_of_idle hidle)
        (State.charged_of_idle (hattempts.trans hidle)) hC (Nat.le_succ _)
    | true =>
      have hcharged : s.charged (settings.under control) code false =
          charge control false s.steps := State.charged_of_attempt hidle
      have hcharged' : (s.withSteps m).charged (settings.under control') code false =
          charge control' false m := State.charged_of_attempt (hattempts.trans hidle)
      cases hcharge : charge control false s.steps with
      | ok k =>
        obtain ⟨k', hk', hkk⟩ := hlax _ _ _ hC hcharge
        exact hserved k k' (hcharged.trans hcharge) (hcharged'.trans hk') hkk
          (charge_le_succ hcharge)
      | error e =>
        obtain ⟨l, hcontrol, hl, rfl⟩ := charge_refused hcharge
        have hadvance := advance_of_refused (b.steady false) log (hcharged.trans hcharge)
        exact .refused hcontrol (Machine.run_of_halts hadvance n) rfl (Nat.succ_pos n) hl

/-! ## Limited evaluations -/

variable {outcome : Outcome} {calls : List Call}

/-- An evaluation that ends under `control` is reproduced under `control'`, or it has been refused
a step before. -/
theorem evaluates_of_laxer (hlax : Laxer control control' C) (hC : C 0 0)
    (h : Evaluates (b.steady false) (settings.under control) code outcome calls) :
    (∃ k, C outcome.steps k ∧
      Evaluates (b.steady false) (settings.under control') code { outcome with steps := k } calls) ∨
    ∃ l, control = some ⟨some l⟩ ∧ outcome.result = .error (.stepLimitExceeded l) ∧
      ∃ j, (Machine.over (settings.under control') code).run (b.steady false).console j
        (State.initial settings.capacity code) [] = (none, calls) := by
  obtain ⟨n, halt, log, hrun, hconclude⟩ := Machine.evaluates_iff.mp h
  have hcompared : Compared settings code b control control' C n
      (State.initial settings.capacity code) 0 [] := compared_of_laxer hlax n hC []
  cases hcompared with
  | running hrun' => cases hrun.symm.trans hrun'
  | @halted stopped last k v hrun₁ hrun₂ hk =>
    cases hrun.symm.trans hrun₁
    have hsteps := conclude_steps (b.steady false) code ⟨stopped, last⟩ log
    have hother := conclude_withSteps (b.steady false) code ⟨stopped, last⟩ k log
    rw [hconclude] at hsteps hother
    exact Or.inl ⟨k, by rw [hsteps]; exact hk, Machine.evaluates_iff.mpr ⟨n, _, log, hrun₂, hother⟩⟩
  | @refused l j last v hcontrol hrun₁ hrun₂ =>
    cases hrun.symm.trans hrun₁
    cases hconclude
    exact Or.inr ⟨l, hcontrol, rfl, j, hrun₂⟩

/-- No limit is set and nobody cancels. -/
def Unlimited (b : Behaviour) (settings : Settings) : Prop :=
  settings.control = none ∨ settings.control = some ⟨none⟩ ∧ ∀ log, b.cancelled log = false

/-- Without a limit it does not matter whether steps are counted. -/
theorem Unlimited.uncounted (h : Unlimited b settings) :
    (Evaluates b settings code outcome calls →
      ∃ k, Evaluates b (settings.under none) code { outcome with steps := k } calls) ∧
    (Evaluates b (settings.under none) code outcome calls →
      ∃ k, Evaluates b settings code { outcome with steps := k } calls) := by
  rcases h with hnone | ⟨hcontrol, hflag⟩
  · rw [show settings.under none = settings by rw [← hnone]; rfl]
    exact ⟨fun h => ⟨outcome.steps, h⟩, fun h => ⟨outcome.steps, h⟩⟩
  · rw [show b = b.steady false by rw [Behaviour.steady, ← funext hflag]]
    have hsettings : settings = settings.under (some ⟨none⟩) := by rw [← hcontrol]; rfl
    constructor
    · intro h
      rw [hsettings] at h
      rcases evaluates_of_laxer (laxer_none _) rfl h with ⟨k, -, hfree⟩ | ⟨l, hl, -⟩
      · exact ⟨k, hfree⟩
      · cases hl
    · intro h
      have hlax : Laxer none (some ⟨none⟩) fun _ _ => True :=
        fun _ k' _ _ _ => ⟨k' + 1, rfl, trivial⟩
      rcases evaluates_of_laxer hlax trivial h with ⟨k, -, hcounted⟩ | ⟨l, hl, -⟩
      · rw [hsettings]
        exact ⟨k, hcounted⟩
      · cases hl

/-- What ends under a laxer control within some patience is reproduced under a limit, unless the
limit is below that patience and refuses a step. -/
theorem limited_of_evaluates {l n : Nat} {halt : Halt} {log : List Call}
    (hlax : Laxer (some ⟨some l⟩) control' C) (hC : C 0 0)
    (hrun : (Machine.over (settings.under control') code).run (b.steady false).console n
      (State.initial settings.capacity code) [] = (some halt, log))
    (hconclude : halt.conclude (b.steady false).console code log = (outcome, calls)) :
    (∃ k, Evaluates (b.steady false) (settings.under (some ⟨some l⟩)) code
      { outcome with steps := k } calls) ∨
    l < n ∧ ∃ outcome' calls', Evaluates (b.steady false) (settings.under (some ⟨some l⟩)) code
      outcome' calls' ∧ outcome'.result = .error (.stepLimitExceeded l) ∧ calls' <+: calls := by
  have hcompared : Compared settings code b (some ⟨some l⟩) control' C n
      (State.initial settings.capacity code) 0 [] := compared_of_laxer hlax n hC []
  cases hcompared with
  | running _ hrun' => cases hrun.symm.trans hrun'
  | @halted stopped last k v hrun₁ hrun₂ =>
    cases hrun.symm.trans hrun₂
    have hother := conclude_withSteps (b.steady false) code ⟨stopped, last⟩ k log
    rw [hconclude] at hother
    refine Or.inl ⟨last.steps, Machine.evaluates_iff.mpr ⟨n, _, log, hrun₁, ?_⟩⟩
    have hsteps := conclude_steps (b.steady false) code ⟨stopped, last⟩ log
    rcases hmine : (⟨stopped, last⟩ : Halt).conclude (b.steady false).console code log with ⟨o, c⟩
    rw [hmine] at hother hsteps
    cases hother
    rw [← hsteps]
  | @refused l' j last v hcontrol hrun₁ hrun₂ hj hl =>
    obtain rfl : l = l' := by cases hcontrol; rfl
    have hl : l ≤ j := by simpa [State.initial] using hl
    refine Or.inr ⟨by omega, _, v, Machine.evaluates_iff.mpr ⟨n, _, v, hrun₁, rfl⟩, rfl, ?_⟩
    have hended := Machine.evaluates_iff.mpr ⟨n, halt, log, hrun, hconclude⟩
    exact Machine.calls_of_running hrun₂ hended

/-- Only a limit refuses a step on account of a limit. -/
theorem limit_of_run {σ : Type} {console : Console (StateM σ)} (hq : console.Quiet) {n l : Nat}
    {halt : Halt} {w v : σ}
    (hrun : (Machine.over settings code).run console n s w = (some halt, v))
    (he : halt.stopped = .error (.stepLimitExceeded l)) : settings.control = some ⟨some l⟩ := by
  obtain ⟨u, steps, hcharge⟩ := Machine.charge_of_run hq hrun he (Or.inr ⟨l, rfl⟩)
  exact control_of_charge hcharge

theorem limit_of_evaluates {l : Nat} (h : Evaluates b settings code outcome calls)
    (he : outcome.result = .error (.stepLimitExceeded l)) : settings.control = some ⟨some l⟩ := by
  obtain ⟨n, halt, log, hrun, hconclude⟩ := Machine.evaluates_iff.mp h
  have hresult : (halt.conclude b.console code log).1.result = .error (.stepLimitExceeded l) := by
    rw [hconclude]
    exact he
  rcases error_of_conclude hresult with hstop | ⟨p, -, ⟨-, ⟨⟩⟩ | ⟨fault, ⟨⟩⟩⟩
  exact limit_of_run b.quiet hrun hstop

/-- A limited evaluation stands to a higher limit, to no limit and to no control as the last
theorem of this module says. -/
theorem limited_evaluation {l l' : Nat} (hl : l ≤ l')
    (h : Evaluates (b.steady false) (settings.under (some ⟨some l⟩)) code outcome calls) :
    ((∀ limit, outcome.result ≠ .error (.stepLimitExceeded limit)) →
      Evaluates (b.steady false) (settings.under (some ⟨some l'⟩)) code outcome calls ∧
      Evaluates (b.steady false) (settings.under (some ⟨none⟩)) code outcome calls ∧
      Evaluates (b.steady false) (settings.under none) code { outcome with steps := 0 } calls) ∧
    ∀ limit, outcome.result = .error (.stepLimitExceeded limit) → limit = l ∧
      ∀ outcome' calls', Evaluates (b.steady false) (settings.under (some ⟨some l'⟩)) code outcome'
        calls' → calls <+: calls' := by
  have hhigher : Laxer (some ⟨some l⟩) (some ⟨some l'⟩) Eq :=
    laxer_of_le fun _ hm => Option.some.inj hm ▸ hl
  have hfree : Laxer (some ⟨some l⟩) (some ⟨none⟩) Eq := laxer_of_le (by rintro _ ⟨⟩)
  constructor
  · intro hresult
    refine ⟨?_, ?_, ?_⟩
    · rcases evaluates_of_laxer hhigher rfl h with ⟨_, rfl, hev⟩ | ⟨l, -, he, -⟩
      · exact hev
      · exact absurd he (hresult l)
    · rcases evaluates_of_laxer hfree rfl h with ⟨_, rfl, hev⟩ | ⟨l, -, he, -⟩
      · exact hev
      · exact absurd he (hresult l)
    · rcases evaluates_of_laxer (laxer_none _) rfl h with ⟨_, rfl, hev⟩ | ⟨l, -, he, -⟩
      · exact hev
      · exact absurd he (hresult l)
  · intro limit he
    have hlimit := limit_of_evaluates h he
    obtain rfl : l = limit := by cases hlimit; rfl
    refine ⟨rfl, fun outcome' calls' h' => ?_⟩
    rcases evaluates_of_laxer hhigher rfl h with ⟨_, rfl, hev⟩ | ⟨-, -, -, j, hj⟩
    · obtain ⟨-, rfl⟩ := Machine.Evaluates.unique hev h'
      exact List.prefix_refl calls
    · exact Machine.calls_of_running hj h'

/-- The step limit is an exact threshold. A limited evaluation always ends. If it is not refused a
step, every higher limit, no limit and no control give the same result with the same calls, and if
it is, it has made the first of the calls that are made under a higher limit. An evaluation that
ends without a limit is reproduced from some limit on, and refused a step under each one below. -/
theorem step_limit_is_exact (b : Behaviour) (settings : Settings) (code : Source) :
    (∀ l, ∃ outcome calls,
      Evaluates (b.steady false) (settings.under (some ⟨some l⟩)) code outcome calls) ∧
    (∀ l l', l ≤ l' → ∀ outcome calls,
      Evaluates (b.steady false) (settings.under (some ⟨some l⟩)) code outcome calls →
      ((∀ limit, outcome.result ≠ .error (.stepLimitExceeded limit)) →
        Evaluates (b.steady false) (settings.under (some ⟨some l'⟩)) code outcome calls ∧
        Evaluates (b.steady false) (settings.under (some ⟨none⟩)) code outcome calls ∧
        Evaluates (b.steady false) (settings.under none) code { outcome with steps := 0 } calls) ∧
      ∀ limit, outcome.result = .error (.stepLimitExceeded limit) → limit = l ∧
        ∀ outcome' calls', Evaluates (b.steady false) (settings.under (some ⟨some l'⟩)) code
          outcome' calls' → calls <+: calls') ∧
    ∀ control, control = none ∨ control = some ⟨none⟩ → ∀ outcome calls,
      Evaluates (b.steady false) (settings.under control) code outcome calls →
      ∃ threshold,
        (∀ l, threshold ≤ l → ∃ k, Evaluates (b.steady false) (settings.under (some ⟨some l⟩)) code
          { outcome with steps := k } calls) ∧
        ∀ l, l < threshold → ∃ outcome' calls',
          Evaluates (b.steady false) (settings.under (some ⟨some l⟩)) code outcome' calls' ∧
          outcome'.result = .error (.stepLimitExceeded l) ∧ calls' <+: calls := by
  refine ⟨fun l => ?_, fun l l' hl outcome calls h => limited_evaluation hl h,
    fun control hcontrol outcome calls h => ?_⟩
  · have hlimit : (settings.under (some ⟨some l⟩)).control = some ⟨some l⟩ := rfl
    obtain ⟨halt, log, hrun⟩ := halts_of_remaining_lt (b.steady false).quiet hlimit
      (.initial settings.capacity) (Nat.lt_succ_self _)
    exact ⟨_, _, Machine.evaluates_iff.mpr ⟨_, halt, log, hrun, rfl⟩⟩
  · obtain ⟨n, halt, log, hrun, hconclude⟩ := Machine.evaluates_iff.mp h
    obtain ⟨C, hC, hlax⟩ :
        ∃ C : Nat → Nat → Prop, C 0 0 ∧ ∀ l, Laxer (some ⟨some l⟩) control C := by
      rcases hcontrol with rfl | rfl
      · exact ⟨fun _ k => k = 0, rfl, fun l => laxer_none _⟩
      · exact ⟨Eq, rfl, fun l => laxer_of_le (by rintro _ ⟨⟩)⟩
    have hresult : ∀ limit, outcome.result ≠ .error (.stepLimitExceeded limit) := by
      intro limit he
      have hlimit : control = some ⟨some limit⟩ := limit_of_evaluates h he
      rcases hcontrol with rfl | rfl <;> cases hlimit
    have hcases := fun l => limited_of_evaluates (hlax l) hC hrun hconclude
    -- The patience that was enough without a limit is a limit that is enough.
    have hsome : ∃ l k, Evaluates (b.steady false) (settings.under (some ⟨some l⟩)) code
        { outcome with steps := k } calls :=
      ⟨n, (hcases n).resolve_right fun hn => Nat.lt_irrefl n hn.1⟩
    classical
    refine ⟨Nat.find hsome, fun l hl => ?_, fun l hl => ?_⟩
    · obtain ⟨k, hk⟩ := Nat.find_spec hsome
      exact ⟨k, ((limited_evaluation hl hk).1 hresult).1⟩
    · exact ((hcases l).resolve_left (Nat.find_min hsome hl)).2

end TapeInterpreter
