import TapeInterpreter.Proofs.Simulation
import TapeInterpreter.Proofs.SyntaxVerdict

/-!
# The nesting limit bounds the scans and shows only where it is met

A scan is started for each open loop, at the level of the loop, and no more loops are open than may
nest. Under a deeper limit a run takes the same steps, up to an opening bracket that the lower limit
does not permit. The text alone says which bracket that is.
-/
namespace TapeInterpreter
set_option autoImplicit false

/-- The same settings, with loops that may nest to `maxDepth`. -/
def Settings.nesting (settings : Settings) (maxDepth : Nat) : Settings :=
  { settings with maxDepth := maxDepth }

/-! ## Brackets below the limit in the text -/

variable {code : Source} {maxDepth p limit : Nat}

/-- A bracket that is too deep has just as many open brackets around it as may nest. -/
theorem Source.tooDeep_of_defect (h : code.defect? maxDepth = some (.nestingTooDeep p limit)) :
    limit = maxDepth ∧ code[p]? = some '[' ∧
      ∃ opened, code.context maxDepth p = .ok ⟨false, opened⟩ ∧ opened.length = maxDepth := by
  cases isDefect_of_defect? h with
  | tooDeep hg hx hd =>
    obtain ⟨char, hc, hopening⟩ := exists_of_glyph? hg
    exact ⟨rfl, Glyph.eq_of_char? hopening rfl ▸ hc, _, hx, hd⟩

/-- Under a deeper limit the scan from the left is the same, up to a bracket that is too deep. -/
theorem Source.context_deeper {d : Nat} (hd : maxDepth ≤ d) (code : Source) (i : Nat) :
    code.context d i = code.context maxDepth i ∨
      ∃ p, code.context maxDepth i = .error (.nestingTooDeep p maxDepth) := by
  induction i with
  | zero => exact Or.inl rfl
  | succ i ih =>
    rcases ih with hsame | ⟨p, hdeep⟩
    · cases hx : code.context maxDepth i with
      | error e =>
        rw [context_succ_of_error (hsame.trans hx), context_succ_of_error hx]
        exact Or.inl rfl
      | ok x =>
        cases hc : code[i]? with
        | none =>
          have hend := Array.getElem?_eq_none_iff.mp hc
          rw [context_succ_of_size_le hend, context_succ_of_size_le hend]
          exact Or.inl hsame
        | some c =>
          rw [context_succ (hsame.trans hx) hc, context_succ hx hc]
          unfold Context.read
          split
          · exact Or.inl rfl
          · -- Only an opening bracket is held against the limit.
            cases Glyph.ofChar c with
            | opening =>
              by_cases hlevel : maxDepth ≤ x.opened.length
              · exact Or.inr ⟨i, if_pos hlevel⟩
              · have hdeeper : ¬ d ≤ x.opened.length := fun h => hlevel (Nat.le_trans hd h)
                simp only [if_neg hlevel, if_neg hdeeper, true_or]
            | blank => exact Or.inl rfl
            | command k => exact Or.inl rfl
            | comment => exact Or.inl rfl
            | closing => exact Or.inl rfl
            | foreign => exact Or.inl rfl
    · exact Or.inr ⟨p, context_succ_of_error hdeep⟩

/-- Under a deeper limit a text has the same defect, unless it has a bracket that is too deep. -/
theorem Source.defect?_deeper {d : Nat} (hd : maxDepth ≤ d) (code : Source) :
    code.defect? d = code.defect? maxDepth ∨
      ∃ p, code.defect? maxDepth = some (.nestingTooDeep p maxDepth) := by
  rcases code.context_deeper hd code.size with hsame | ⟨p, hdeep⟩
  · rw [defect?, defect?, hsame]
    exact Or.inl rfl
  · exact Or.inr ⟨p, defect?_of_context_error hdeep⟩

/-- The bracket in the comment is not open around the one at 4. -/
example : (Source.ofString "[#[\n[]]").defect? 1 = some (.nestingTooDeep 4 1) := by decide

/-! ## Levels of the scans -/

variable {settings : Settings} {s t : State} {d : Nat}

theorem Leveled.level_le {frames : List Frame} (h : Leveled frames) :
    ∀ f ∈ frames, f.level ≤ frames.length := by
  induction frames with
  | nil => rintro f ⟨⟩
  | cons g outer ih =>
    obtain ⟨hlevel, houter⟩ := h
    intro f hf
    rcases List.mem_cons.mp hf with rfl | hf
    · exact Nat.le_of_eq hlevel
    · exact Nat.le_succ_of_le (ih houter f hf)

/-- No more loops are open than may nest, and none lies at a higher level. -/
theorem State.Consistent.within (h : s.Consistent code maxDepth) :
    s.frames.length ≤ maxDepth ∧ ∀ f ∈ s.frames, f.level ≤ maxDepth := by
  obtain ⟨comment, -, hx⟩ := h.context
  have hlength := Source.length_opened_le hx
  rw [List.length_map] at hlength
  exact ⟨hlength, fun f hf => Nat.le_trans (h.leveled.level_le f hf) hlength⟩

/-! ## Two limits -/

/-- Under a deeper limit a step is the same, unless the lower limit is met. -/
theorem State.step_nesting (hd : settings.maxDepth ≤ d) (code : Source) (s : State)
    (cancelled : Bool) :
    s.step .remembering (settings.nesting d) code cancelled =
        s.step .remembering settings code cancelled ∨
      s.step .remembering settings code cancelled =
        .failed (.nestingTooDeep s.position settings.maxDepth) s := by
  cases hc : code[s.position]? with
  | none =>
    rw [step_of_end hc, step_of_end hc]
    exact Or.inl rfl
  | some char =>
    rw [step_of_char hc, step_of_char hc]
    cases Glyph.ofChar char with
    | opening =>
      by_cases hlevel : settings.maxDepth ≤ s.level
      · exact Or.inr (if_pos hlevel)
      · have hdeeper : ¬ (settings.nesting d).maxDepth ≤ s.level :=
          fun h => hlevel (Nat.le_trans hd h)
        left
        simp only [openLoop, if_neg hlevel, if_neg hdeeper]
        rfl
    | blank => exact Or.inl rfl
    | comment => exact Or.inl rfl
    | closing => exact Or.inl rfl
    | command c => exact Or.inl rfl
    | foreign => exact Or.inl rfl

/-- However long the run goes on, it is the same under a deeper limit, unless it halts at a bracket
that is too deep, where the other one may go on. -/
theorem run_nesting (b : Behaviour) (hd : settings.maxDepth ≤ d) (code : Source) (n : Nat)
    (s : State) (log : List Call) :
    (Machine.over (settings.nesting d) code).run b.console n s log =
        (Machine.over settings code).run b.console n s log ∨
      ∃ m t p last calls,
        (Machine.over (settings.nesting d) code).Leads b.console m s log t calls ∧
        (Machine.over settings code).run b.console n s log =
          (some ⟨.error (.nestingTooDeep p settings.maxDepth), last⟩, calls) := by
  have hstep : ∀ s t log, s = t →
      (∃ p q calls, (Machine.over (settings.nesting d) code).advance b.console s log = (p, calls) ∧
        (Machine.over settings code).advance b.console t log = (q, calls) ∧
        Progress.Alike Eq Eq p q) ∨
      ∃ halt, (Machine.over settings code).advance b.console t log = (.halted halt, log) ∧
        ∃ p, halt.stopped = .error (.nestingTooDeep p settings.maxDepth) := by
    rintro s _ log rfl
    rw [advance_over, advance_over]
    rcases State.step_nesting hd code s (b.cancelled log) with h | h
    · rw [h]
      exact Or.inl ⟨_, _, _, rfl, rfl, .refl _⟩
    · rw [h]
      exact Or.inr ⟨_, rfl, _, rfl⟩
  obtain ⟨calls, ⟨ha, hb⟩ | ⟨x, _, ha, hb, rfl⟩ | ⟨m, t, ⟨_, last⟩, hleads, hb, p, rfl⟩⟩ :=
    Machine.run_until hstep n (rfl : s = s) log
  · exact Or.inl (ha.trans hb.symm)
  · exact Or.inl (ha.trans hb.symm)
  · exact Or.inr ⟨m, t, p, last, calls, hleads, hb⟩

/-- The nesting limit bounds the scans, and else it does not show. No loop is ever open, and so no
scan started, above the limit. An evaluation that does not report a bracket as too deep is the same
under every deeper limit, for as long as it is looked at. One that does so reports the limit and an
opening bracket outside comments with just as many open loops around it, and has made the first of
the calls that are made under a deeper limit. -/
theorem nesting_limit_shows_only_where_met (b : Behaviour) (settings : Settings) (code : Source) :
    (∀ s log, (Machine.over settings code).Reaches b.console
      (State.initial settings.capacity code) [] s log →
        s.frames.length ≤ settings.maxDepth ∧ ∀ f ∈ s.frames, f.level ≤ settings.maxDepth) ∧
    ∀ d, settings.maxDepth ≤ d →
      (∀ patience, (∀ outcome p limit,
          (evaluate b.console settings code patience []).1 = some outcome →
            outcome.result ≠ .error (.nestingTooDeep p limit)) →
        evaluate b.console (settings.nesting d) code patience [] =
          evaluate b.console settings code patience []) ∧
      ∀ outcome calls p limit, Evaluates b settings code outcome calls →
        outcome.result = .error (.nestingTooDeep p limit) →
          limit = settings.maxDepth ∧ code[p]? = some '[' ∧
          (∃ opened, code.context settings.maxDepth p = .ok ⟨false, opened⟩ ∧
            opened.length = settings.maxDepth) ∧
          Makes b (settings.nesting d) code calls ∧
          ∀ outcome' calls', Evaluates b (settings.nesting d) code outcome' calls' →
            calls <+: calls' := by
  constructor
  · intro s log hreach
    have hconsistent := State.Consistent.reaches Resume.remembering_sound b.quiet
      (.initial settings.capacity) hreach
    exact hconsistent.within
  intro d hd
  have hruns := fun n => run_nesting b hd code n (State.initial settings.capacity code) []
  constructor
  · intro patience hresult
    rw [evaluate_eq_scan, evaluate_eq_scan]
    rcases hruns patience with hsame | ⟨m, t, p, last, calls, -, hrun⟩
    · have hcapacity : (settings.nesting d).capacity = settings.capacity := rfl
      rw [hcapacity, Machine.scan, Machine.scan, hsame]
    · rw [evaluate_eq_scan, Machine.scan_of_halted hrun] at hresult
      exact absurd rfl (hresult _ p settings.maxDepth rfl)
  · intro outcome calls p limit h he
    obtain ⟨hlimit, hchar, hopened⟩ := Source.tooDeep_of_defect ((evaluates_verdict h).2 _ he rfl)
    refine ⟨hlimit, hchar, hopened, ?_⟩
    obtain ⟨n, halt, log, hrun, hconclude⟩ := Machine.evaluates_iff.mp h
    rcases hruns n with hsame | ⟨m, t, q, last, log', hleads, hrun'⟩
    · have hdeeper : Evaluates b (settings.nesting d) code outcome calls :=
        Machine.evaluates_iff.mpr ⟨n, halt, log, hsame.trans hrun, hconclude⟩
      obtain ⟨k, hk⟩ := id hdeeper
      refine ⟨⟨k, congrArg Prod.snd hk⟩, fun outcome' calls' h' => ?_⟩
      obtain ⟨-, rfl⟩ := Machine.Evaluates.unique hdeeper h'
      exact List.prefix_refl calls
    · cases hrun.symm.trans hrun'
      obtain ⟨-, rfl⟩ := Prod.mk.inj hconclude
      have hrunning := hleads 0
      rw [Nat.zero_add] at hrunning
      exact ⟨Machine.makes_of_running hrunning, fun _ _ h' => Machine.calls_of_running hrunning h'⟩

end TapeInterpreter
