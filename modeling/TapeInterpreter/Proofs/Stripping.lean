import TapeInterpreter.Proofs.Placement
import TapeInterpreter.Proofs.Significant

/-!
# Blanks and comments mean nothing

A run over a source and a run over the same source without its blanks and comments keep together:
the first one glides over what the second one does not have.
-/
namespace TapeInterpreter
set_option autoImplicit false

namespace Source

/-- A scan of the source that is at `p` corresponds to one of the stripped source at its rank. A
position behind the end may be one in a comment. -/
structure Ranked (code : Source) (p q : Nat) : Prop where
  rank : q = code.rank p
  outside : code.inComment p = false ∨ code.size ≤ p

/-- The stripped source has its places at its origins. -/
theorem placement_stripped (code : Source) :
    Placement code.origin code.Ranked code code.stripped where
  inj := origin_inj
  lt hj := lt_size_of_isSignificant (isSignificant_origin hj)
  char hj := (getElem?_stripped hj).symm
  behind hj := by
    have hs := isSignificant_origin hj
    refine ⟨?_, Or.inl (inComment_succ_of_isSignificant hs)⟩
    rw [rank_succ_of_isSignificant hs, rank_origin hj]
  comment {j} hg := by
    have hj := lt_size_of_glyph? hg
    rw [glyph?, getElem?_stripped hj] at hg
    exact absurd hg (glyph?_of_isSignificant (isSignificant_origin hj)).2

end Source

variable {settings : Settings} {code : Source} {kept : Nat → Option Nat} {s t : State}

/-- A run over the source glides to the next character that is not stripped. -/
theorem Placed.glides_to_origin
    (h : Placed code.origin code.Ranked kept code code.stripped s t) :
    ∃ s', (Machine.over settings code).Glides s s' ∧
      Aligned code.origin code.Ranked kept code code.stripped s' t := by
  induction hn : code.size - s.position using Nat.strongRecOn generalizing s with
  | ind n ih =>
  obtain ⟨hrank, hout⟩ := h.position
  -- Whatever is stripped moves the run to the right, and its rank stays.
  have hon : ∀ {p}, (∀ cancelled, s.step .remembering settings code cancelled =
      .silent (s.goto p)) → s.position < p → s.position < code.size →
      code.rank p = code.rank s.position → (code.inComment p = false ∨ code.size ≤ p) →
      ∃ s', (Machine.over settings code).Glides s s' ∧
        Aligned code.origin code.Ranked kept code code.stripped s' t := by
    intro p hs hlt hsize hp hpout
    obtain ⟨s', hglides, hs'⟩ := ih (code.size - p) (by omega)
      (h.goto ⟨hrank.trans hp.symm, hpout⟩) rfl
    exact ⟨s', .step hs hglides, hs'⟩
  rcases Nat.lt_or_ge s.position code.size with hsize | hend
  · have hc := hout.resolve_right (Nat.not_le.mpr hsize)
    obtain ⟨g, hg⟩ : ∃ g, code.glyph? s.position = some g := by
      rw [Source.glyph?, Array.getElem?_eq_getElem hsize]
      exact ⟨_, rfl⟩
    by_cases hb : g = .blank
    · subst hb
      have hskipped : code.isSignificant s.position = false := by simp [Source.isSignificant, hg]
      exact hon (fun cancelled => State.step_of_blank hg) (Nat.lt_succ_self _) hsize
        (Source.rank_succ_of_not hskipped) (Or.inl (Source.inComment_succ hc (by simp [hg])))
    by_cases hm : g = .comment
    · subst hm
      obtain ⟨hline, hlineout⟩ := Source.rank_lineEnd hc hg
      exact hon (fun cancelled => State.step_of_comment hg)
        (Nat.lt_succ_of_le (code.le_lineEnd s.position)) hsize hline
        (hlineout.imp_right fun hle => Nat.le_succ_of_le hle)
    have hs := Source.isSignificant_of_glyph? hc hg hb hm
    refine ⟨s, .refl s, h, Or.inl ?_⟩
    rw [hrank, Source.origin_rank hs]
    exact ⟨Source.rank_lt hs, rfl⟩
  · refine ⟨s, .refl s, h, Or.inr ⟨?_, hend⟩⟩
    exact Nat.le_of_eq (hrank.trans (Source.rank_of_size_le hend)).symm

/-- Blanks and comments mean nothing: without them a source makes the same calls and comes to the
same tape, the same count of steps and the same result, with the position of an error, if there is
one, moved back to where the character comes from. So it does if it never ends. -/
theorem evaluates_iff_stripped (b : Behaviour) (settings : Settings) (code : Source) :
    (∀ outcome calls, Evaluates b settings code outcome calls ↔
      ∃ o, Evaluates b settings code.stripped o calls ∧ outcome = o.relocate code.origin) ∧
    ∀ calls, Makes b settings code calls ↔ Makes b settings code.stripped calls := by
  have hanswers : (Machine.over settings code).Answers (.over settings code.stripped) b.console
      (Placed code.origin code.Ranked (fun _ => none) code code.stripped)
      (Halt.Alike code.origin code code.stripped) := by
    apply Machine.answers_of_alike b.quiet
    intro s t h
    obtain ⟨s', hglides, hs'⟩ := h.glides_to_origin
    exact ⟨s', t, hglides, .refl t, fun cancelled =>
      code.placement_stripped.coupled.step_alike hs' cancelled⟩
  exact hanswers.evaluates (Source.origin_of_size_le (Nat.le_refl _))
    (Placed.initial settings.capacity ⟨rfl, Or.inl rfl⟩)

end TapeInterpreter
