import TapeInterpreter.Proofs.Behaviour
import TapeInterpreter.Proofs.Consistency

/-!
# The syntax verdict does not depend on the run

A run can only report the first defect of its source, and it cannot end well if there is one. What
it can do is end for another reason before it gets there, or never end.
-/
namespace TapeInterpreter
set_option autoImplicit false

variable {σ : Type} {console : Console (StateM σ)} {resume : Resume} {settings : Settings}
  {code : Source} {s t : State} {w v : σ} {halt : Halt}

/-- A run that halts either reports the first defect, or has met none, or was stopped before. -/
theorem run_verdict (hr : resume.Sound code settings.maxDepth) (hq : console.Quiet) {n : Nat}
    (h : s.Consistent code settings.maxDepth)
    (hrun : (Machine.resuming resume settings code).run console n s w = (some halt, v)) :
    match halt.stopped with
    | .ok position => position = code.size ∧ code.defect? settings.maxDepth = none
    | .error e => e.isSyntax = true → code.defect? settings.maxDepth = some e := by
  obtain ⟨t, u, ht, ha⟩ := Machine.run_halted
    (P := fun s _ => s.Consistent code settings.maxDepth)
    (fun _ _ _ _ hs ha => hs.advance hr hq ha) h hrun
  rcases (Machine.advance_served hq ha).halted with ⟨e, hs, he⟩ | ⟨p, hs, hp⟩ | ⟨e, he, hio⟩
  · rw [he]
    exact ht.defect_of_failed hs
  · rw [hp]
    exact ht.defect_of_finished hs
  · rw [he]
    intro hsyn
    rw [hio] at hsyn
    cases hsyn

variable {b : Behaviour} {outcome : Outcome} {calls : List Call}

/-- An evaluation ends as its run does, or else with a successful or failed flush. -/
theorem evaluates_verdict (h : Evaluates b settings code outcome calls) :
    (code.defect? settings.maxDepth = none ∨ outcome.result ≠ .ok ()) ∧
      ∀ e, outcome.result = .error e → e.isSyntax = true →
        code.defect? settings.maxDepth = some e := by
  obtain ⟨n, halt, log, hrun, hc⟩ := Machine.evaluates_iff.mp h
  have hverdict := run_verdict Resume.remembering_sound b.quiet (.initial settings.capacity) hrun
  obtain rfl : outcome = (halt.conclude b.console code log).1 := by rw [hc]
  constructor
  · cases hstop : halt.stopped with
    | error e =>
      rw [conclude_of_error hstop]
      exact Or.inr (by rintro ⟨⟩)
    | ok position =>
      rw [hstop] at hverdict
      exact Or.inl hverdict.2
  · intro e he hsyn
    rcases error_of_conclude he with hstop | ⟨p, -, ⟨-, rfl⟩ | ⟨fault, rfl⟩⟩
    · rw [hstop] at hverdict
      exact hverdict hsyn
    · cases hsyn
    · cases hsyn

/-- Nothing is flushed in front of a defect. -/
theorem no_flush_of_defect {d : EvalError} (hd : code.defect? settings.maxDepth = some d)
    (patience : Nat) :
    ∀ call ∈ (evaluate b.console settings code patience []).2, call.isFlush = false := by
  have hnew := Machine.run_calls (.over settings code) b patience
    (State.initial settings.capacity code) []
  rcases hrun : (Machine.over settings code).run b.console patience
    (State.initial settings.capacity code) [] with ⟨_ | halt, log⟩
  · rw [evaluate_eq_scan, Machine.scan_of_running hrun]
    rw [hrun] at hnew
    obtain ⟨new, rfl, hnew⟩ := hnew
    exact hnew
  · rw [evaluate_eq_scan, Machine.scan_of_halted hrun]
    rw [hrun] at hnew
    obtain ⟨new, rfl, hnew⟩ := hnew
    have hverdict := run_verdict Resume.remembering_sound b.quiet (.initial settings.capacity) hrun
    cases hstop : halt.stopped with
    | error e => rw [conclude_of_error hstop]; exact hnew
    | ok position =>
      rw [hstop, hd] at hverdict
      cases hverdict.2

/-- The syntax errors of a source are decided by its text. Without a defect no evaluation reports
one; with one no evaluation succeeds or flushes, and none reports another. So two evaluations that
both end in a syntax error report the same one, whatever tape, input and limits they have. -/
theorem syntax_errors_are_the_defect (settings : Settings) (code : Source) :
    (code.defect? settings.maxDepth = none → ∀ b outcome calls,
      Evaluates b settings code outcome calls →
        ∀ e, outcome.result = .error e → e.isSyntax = false) ∧
    (∀ d, code.defect? settings.maxDepth = some d → ∀ b,
      (∀ patience, ∀ call ∈ (evaluate b.console settings code patience []).2,
        call.isFlush = false) ∧
      ∀ outcome calls, Evaluates b settings code outcome calls →
        outcome.result ≠ .ok () ∧
          ∀ e, outcome.result = .error e → e.isSyntax = true → e = d) ∧
    ∀ settings', settings'.maxDepth = settings.maxDepth → ∀ b b' outcome outcome' calls calls' e e',
      Evaluates b settings code outcome calls → Evaluates b' settings' code outcome' calls' →
        outcome.result = .error e → e.isSyntax = true →
          outcome'.result = .error e' → e'.isSyntax = true → e = e' := by
  refine ⟨fun hd b outcome calls h e he => ?_, fun d hd b => ⟨no_flush_of_defect hd, ?_⟩, ?_⟩
  · have hsyn := (evaluates_verdict h).2 e he
    rw [hd] at hsyn
    cases hs : e.isSyntax with
    | false => rfl
    | true => cases hsyn hs
  · intro outcome calls h
    obtain ⟨hok, hsyn⟩ := evaluates_verdict h
    rw [hd] at hok hsyn
    refine ⟨hok.resolve_left (by rintro ⟨⟩), fun e he hs => ?_⟩
    exact (Option.some.inj (hsyn e he hs)).symm
  · intro settings' hdepth b b' outcome outcome' calls calls' e e' h h' he hs he' hs'
    have hd := (evaluates_verdict h).2 e he hs
    have hd' := (evaluates_verdict h').2 e' he' hs'
    rw [hdepth, hd] at hd'
    exact Option.some.inj hd'

end TapeInterpreter
