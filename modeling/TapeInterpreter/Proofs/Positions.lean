import TapeInterpreter.Proofs.CallDiscipline
import TapeInterpreter.Proofs.Guards
import TapeInterpreter.Proofs.Significant
import TapeInterpreter.Proofs.SyntaxVerdict

/-!
# Every position points at its cause

What an error says about the character at its position can be read off the text alone. A syntax
error is the defect that the scan from the left finds; an error of the console is at the command
that has asked for something, or behind the text.
-/
namespace TapeInterpreter
set_option autoImplicit false

/-- All characters that mean something, or nothing, outside comments. -/
def recognized : List Char :=
  ['>', '<', '+', '-', '.', ',', '[', ']', '#', ' ', '\t', '\r', '\n']

/-- The position of the error is that of its cause in the source. -/
def EvalError.PointsAtCause (code : Source) (maxDepth : Nat) : EvalError → Prop
  | .unexpectedCharacter char p => code[p]? = some char ∧ code.inComment p = false ∧ char ∉ recognized
  | .unmatched .closing p => code[p]? = some ']' ∧ code.context maxDepth p = .ok ⟨false, []⟩
  | .unmatched .opening p => code[p]? = some '[' ∧ code.inComment p = false ∧
      (∀ c, ¬ code.Matches maxDepth p c) ∧
      ∀ o, p < o → code[o]? = some '[' → code.inComment o = false → ∃ c, code.Matches maxDepth o c
  | .nestingTooDeep p _ => code[p]? = some '[' ∧ code.inComment p = false
  | .endOfInput p => code[p]? = some ','
  | .io p _ => code[p]? = some '.' ∨ code[p]? = some ',' ∨ p = code.size
  | .incompleteScan _ => False
  | .outOfRange _ | .stepLimitExceeded _ | .cancelled => True

theorem Glyph.not_mem_recognized {char : Char} (h : Glyph.ofChar char = .foreign) :
    char ∉ recognized := by
  have hall : recognized.all (Glyph.ofChar · != .foreign) = true := rfl
  intro hmem
  simpa [h] using List.all_eq_true.1 hall char hmem

namespace Source

variable {code : Source} {maxDepth i o p : Nat} {x : Context} {e : EvalError}

theorem char_of_glyph? {g : Glyph} {c : Char} (h : code.glyph? i = some g) (hg : g.char? = some c) :
    code[i]? = some c := by
  obtain ⟨char, hc, hchar⟩ := exists_of_glyph? h
  rw [hc, Glyph.eq_of_char? hchar hg]

/-- Where nothing is wrong up to some place, a bracket in front of it stands in a context. -/
theorem exists_context (h : code.context maxDepth i = .ok x) (hp : p ≤ i) :
    ∃ y, code.context maxDepth p = .ok y := by
  cases hy : code.context maxDepth p with
  | ok y => exact ⟨y, rfl⟩
  | error e => cases h.symm.trans (context_error_of_le hy hp)

/-- A bracket that is not open any more has been closed. -/
theorem exists_matches_of_not_mem {outer : List Nat}
    (hopen : code.context maxDepth (o + 1) = .ok ⟨false, o :: outer⟩) (hlt : o < i)
    (h : code.context maxDepth i = .ok x) (hmem : o ∉ x.opened) : ∃ c, code.Matches maxDepth o c := by
  induction i generalizing x with
  | zero => omega
  | succ i ih =>
    rcases Nat.lt_or_eq_of_le (Nat.le_of_lt_succ hlt) with hlt | rfl
    · obtain ⟨⟨comment, opened⟩, hx, hs⟩ := context_pred h
      by_cases ho : o ∈ opened
      · -- It was open in front of this character, which has closed it.
        rcases hs with hs | ⟨hs, -⟩ | ⟨q, hs, rfl, hg⟩
        · exact absurd (hs ▸ ho) hmem
        · exact absurd (hs ▸ List.mem_cons_of_mem _ ho) hmem
        · obtain rfl : opened = q :: x.opened := hs
          obtain rfl : o = q := (List.mem_cons.mp ho).resolve_right hmem
          exact ⟨i, hg, x.opened, hx⟩
      · exact ih hlt hx ho
    · cases hopen.symm.trans h
      exact absurd (List.mem_cons_self ..) hmem

/-- A defect of the text is where it is said to be. -/
theorem IsDefect.pointsAtCause (h : code.IsDefect maxDepth e) : e.PointsAtCause code maxDepth := by
  cases h with
  | foreign hc hg hx => exact ⟨hc, inComment_of_context hx, Glyph.not_mem_recognized hg⟩
  | unopened hg hx => exact ⟨char_of_glyph? hg rfl, hx⟩
  | tooDeep hg hx => exact ⟨char_of_glyph? hg rfl, inComment_of_context hx⟩
  | @unclosed p comment outer hx =>
    obtain ⟨-, hg, -, hp⟩ := context_opened [] hx
    have hend : code.context maxDepth code.size = .ok ⟨comment, [] ++ p :: outer⟩ := hx
    refine ⟨char_of_glyph? hg rfl, inComment_of_context hp,
      fun c => not_matches_of_end hend (Nat.le_refl _), fun o hpo hc hcomment => ?_⟩
    have hgo : code.glyph? o = some .opening := by rw [glyph?, hc]; rfl
    have hlt := lt_size_of_glyph? hgo
    obtain ⟨⟨inside, opened⟩, ho⟩ := exists_context hx (Nat.le_of_lt hlt)
    obtain rfl : inside = false := (inComment_of_context ho).symm.trans hcomment
    obtain ⟨y, hy⟩ := exists_context hx (Nat.succ_le_of_lt hlt)
    have hopen : code.context maxDepth (o + 1) = .ok ⟨false, o :: opened⟩ := by
      by_cases hd : opened.length < maxDepth
      · exact context_succ_opening ho hgo hd
      · rw [context_succ ho hc, Context.read, if_neg Bool.false_ne_true] at hy
        simp only [Glyph.ofChar, if_pos (Nat.le_of_not_lt hd)] at hy
        cases hy
    refine exists_matches_of_not_mem hopen hlt hx fun hmem => ?_
    rcases List.mem_cons.mp hmem with rfl | hmem
    · exact Nat.lt_irrefl o hpo
    · exact Nat.lt_asymm hpo (lt_of_opened hx hmem)

end Source

variable {b : Behaviour} {settings : Settings} {code : Source} {outcome : Outcome}
  {calls : List Call} {e : EvalError} {last : Option Call}

/-- An error of the console is at the command that has made the last call, or behind the text. -/
theorem Closes.pointsAtCause (h : Closes code last (.error e)) (he : e.ofConsole = true)
    (maxDepth : Nat) : e.PointsAtCause code maxDepth := by
  cases h with
  | unflushed => exact Or.inr (Or.inr rfl)
  | exhausted hp => exact hp
  | unread hp => exact Or.inr (Or.inl hp)
  | unwritten hp => exact Or.inl hp
  | stopped hother => cases hother.symm.trans he

theorem EvalError.PointsAtCause.le_size {maxDepth p : Nat} (h : e.PointsAtCause code maxDepth)
    (hp : e.position? = some p) : p ≤ code.size := by
  have hinside : ∀ {c q}, code[q]? = some c → q ≤ code.size := fun hc =>
    Nat.le_of_lt (Array.getElem?_eq_some_iff.mp hc).1
  cases e with
  | unexpectedCharacter char q => cases hp; exact hinside h.1
  | unmatched bracket q =>
    cases hp
    cases bracket with
    | opening => exact hinside h.1
    | closing => exact hinside h.1
  | nestingTooDeep q limit => cases hp; exact hinside h.1
  | endOfInput q => cases hp; exact hinside h
  | io q fault =>
    cases hp
    rcases h with h | h | h
    · exact hinside h
    · exact hinside h
    · exact Nat.le_of_eq h
  | incompleteScan q => exact h.elim
  | outOfRange access => cases hp
  | stepLimitExceeded limit => cases hp
  | cancelled => cases hp

theorem pointsAtCause_of_evaluates (h : Evaluates b settings code outcome calls)
    (he : outcome.result = .error e) : e.PointsAtCause code settings.maxDepth := by
  cases hsyn : e.isSyntax with
  | true => exact (Source.isDefect_of_defect? ((evaluates_verdict h).2 e he hsyn)).pointsAtCause
  | false =>
    obtain ⟨served, last, -, -, hcloses⟩ := evaluates_closes h
    rw [he] at hcloses
    have hguard := ofGuard_of_evaluates h he
    cases e with
    | endOfInput p => exact hcloses.pointsAtCause rfl settings.maxDepth
    | io p fault => exact hcloses.pointsAtCause rfl settings.maxDepth
    | incompleteScan p => cases hguard
    | outOfRange access => trivial
    | stepLimitExceeded limit => trivial
    | cancelled => trivial
    | unexpectedCharacter char p => cases hsyn
    | unmatched bracket p => cases hsyn
    | nestingTooDeep p limit => cases hsyn

/-- Every position that is reported points at its cause: a foreign character outside comments, a
closing bracket in front of which no loop is open, an opening bracket that has no closing one while
all brackets behind it have, an opening bracket that is too deep, a read at the end of the input, a
command that the console has failed, or the end of the source. -/
theorem positions_point_at_causes (b : Behaviour) (settings : Settings) (code : Source)
    (outcome : Outcome) (calls : List Call) (e : EvalError)
    (h : Evaluates b settings code outcome calls) (he : outcome.result = .error e) :
    e.PointsAtCause code settings.maxDepth ∧ ∀ p, e.position? = some p → p ≤ code.size :=
  have hcause := pointsAtCause_of_evaluates h he
  ⟨hcause, fun _ hp => hcause.le_size hp⟩

/-- Of the two brackets outside the comment the second one is closed, so the first is reported. -/
theorem unclosed_bracket_is_pointed_at :
    Evaluates .mute { capacity := 1 } (Source.ofString "#[\n[[]")
        ⟨.error (.unmatched .opening 3), Tape.blank 1, 0⟩ [] ∧
      (EvalError.unmatched .opening 3).PointsAtCause (Source.ofString "#[\n[[]") defaultMaxDepth ∧
      ∀ p, (EvalError.unmatched .opening 3).position? = some p →
        p ≤ (Source.ofString "#[\n[[]").size :=
  have h : Evaluates .mute { capacity := 1 } (Source.ofString "#[\n[[]")
      ⟨.error (.unmatched .opening 3), Tape.blank 1, 0⟩ [] := ⟨9, rfl⟩
  ⟨h, positions_point_at_causes .mute { capacity := 1 } _ _ _ _ h rfl⟩

end TapeInterpreter
