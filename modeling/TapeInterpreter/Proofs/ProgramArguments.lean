import TapeInterpreter.Arguments.Parse
import TapeInterpreter.Proofs.Significant

/-!
# Programs on the command line

Programs may begin with hyphens, and their comments may hold anything, the names of options too. But
behind its hyphens a program goes on with a command, a blank or a comment and never with a letter,
while every option but the two hyphens goes on with one. So a program is an expression, and all
that stands behind it is expressions as well.
-/
namespace TapeInterpreter
set_option autoImplicit false

/-- Outside comments there are only commands, brackets and blanks. Brackets need not match. -/
def Source.IsPlain (code : Source) : Prop :=
  ∀ i < code.size, code.inComment i = false → code.glyph? i ≠ some .foreign

instance (code : Source) : Decidable code.IsPlain :=
  inferInstanceAs (Decidable (∀ i < code.size, _ → _))

/-- What begins a plain text behind its hyphens is not foreign: no comment has begun before. -/
theorem Source.IsPlain.behind_hyphens {code : Source} (h : code.IsPlain) {n : Nat} {c : Char}
    {rest : List Char} (hcode : code.toList = List.replicate n '-' ++ c :: rest) :
    Glyph.ofChar c ≠ .foreign := by
  have hread : ∀ i, code[i]? = (List.replicate n '-' ++ c :: rest)[i]? := fun i => by
    rw [← hcode, Array.getElem?_toList]
  have hhyphen : ∀ i, i < n → code.glyph? i = some (.command .decrement) := fun i hi => by
    rw [glyph?, hread, List.getElem?_append_left (by rwa [List.length_replicate]),
      List.getElem?_replicate, if_pos hi]
    rfl
  have hopen : ∀ i, i ≤ n → code.inComment i = false := by
    intro i hi
    induction i with
    | zero => rfl
    | succ i ih =>
      refine inComment_succ (ih (Nat.le_of_lt hi)) ?_
      rw [hhyphen i hi]
      decide
  have hfirst : code.glyph? n = some (Glyph.ofChar c) := by
    rw [glyph?, hread, List.getElem?_append_right (Nat.le_of_eq List.length_replicate),
      List.length_replicate, Nat.sub_self]
    rfl
  intro hforeign
  rw [hforeign] at hfirst
  exact h n (lt_size_of_glyph? hfirst) (hopen n (Nat.le_refl n)) hfirst

namespace Arguments

/-- No text that begins so is the name of an option: these begin with a letter. -/
theorem name_ne {c : Char} (hc : Glyph.ofChar c ≠ .foreign) {name : List Char}
    (hname : name.head? = none ∨ name.head? = some c) :
    Key.ofName? name = none ∧ name ≠ helpName.toList := by
  have hne : ∀ (letter : Char) (more : List Char), Glyph.ofChar letter = .foreign →
      name ≠ letter :: more := by
    rintro letter more hletter rfl
    rcases hname with h | h
    · cases h
    · cases h
      exact hc hletter
  have hfile : name ≠ Key.file.name.toList := hne 'f' _ rfl
  have hsteps : name ≠ Key.maxSteps.name.toList := hne 'm' _ rfl
  have htime : name ≠ Key.timeoutMs.name.toList := hne 't' _ rfl
  have hhelp : name ≠ helpName.toList := hne 'h' _ rfl
  exact ⟨by rw [Key.ofName?, if_neg hfile, if_neg hsteps, if_neg htime], hhelp⟩

theorem Shape.ofLong_eq_text {c : Char} (hc : Glyph.ofChar c ≠ .foreign) (rest : List Char) :
    ofLong (c :: rest) = .text := by
  have hhead : ((c :: rest).takeWhile (· ≠ '=')).head? = none ∨
      ((c :: rest).takeWhile (· ≠ '=')).head? = some c := by
    rw [List.takeWhile_cons]
    split
    · exact Or.inr rfl
    · exact Or.inl rfl
  obtain ⟨hkey, hhelp⟩ := name_ne hc hhead
  rw [ofLong, hkey]
  exact if_neg hhelp

/-- By its spelling a text is no option if it does not go on with a letter behind its hyphens. -/
theorem Shape.ofChars_eq_text {chars : List Char} (hsep : chars ≠ ['-', '-'])
    (h : ∀ n c rest, chars = List.replicate n '-' ++ c :: rest → Glyph.ofChar c ≠ .foreign) :
    ofChars chars = .text := by
  unfold ofChars
  split
  · exact absurd rfl hsep
  · rename_i body hbody
    cases body with
    | nil => exact absurd rfl hsep
    | cons c rest => exact ofLong_eq_text (h 2 c rest rfl) rest
  · rename_i body hsep' hlong
    cases body with
    | nil => rfl
    | cons c rest =>
      have hcluster : ¬ (c = 'h' ∨ c = 'f') := by
        rintro (rfl | rfl) <;> exact h 1 _ rest rfl rfl
      rw [if_neg]
      rintro ⟨-, hall⟩
      simp only [List.all_cons, Bool.and_eq_true, Bool.or_eq_true, decide_eq_true_eq] at hall
      exact hcluster hall.1
  · rfl

/-- Programs are never taken for options. A text of commands, brackets, blanks and comments is the
first expression, and whatever stands behind it are the others, unchanged and in order. Two hyphens
alone are the one exception: they are dropped, and all behind them is expressions. -/
theorem programs_are_expressions {program : String} (h : (Source.ofString program).IsPlain)
    (rest : List String) :
    (program ≠ "--" → parse (program :: rest) = .ok
      { file := none, maxSteps := none, timeoutMs := none, expressions := program :: rest,
        help := false }) ∧
    parse ("--" :: rest) = .ok
      { file := none, maxSteps := none, timeoutMs := none, expressions := rest, help := false } := by
  refine ⟨fun hne => ?_, parse_separator rest⟩
  refine parse_text (Shape.ofChars_eq_text (fun hsep => hne ?_) fun n c more hchars => ?_) rest
  · exact String.toList_inj.mp hsep
  · exact h.behind_hyphens (by rwa [Source.ofString, List.toList_toArray])

/-- A program that begins as a long option does, with a comment that holds one, in front of what
would be options in any other place. -/
theorem hyphens_and_comment_are_an_expression :
    (Source.ofString "--#file=--help\n->].").IsPlain ∧ "--#file=--help\n->]." ≠ "--" ∧
      parse ["--#file=--help\n->].", "--", "-f", "--help=x"] = .ok
        { file := none, maxSteps := none, timeoutMs := none,
          expressions := ["--#file=--help\n->].", "--", "-f", "--help=x"], help := false } := by
  have hplain : (Source.ofString "--#file=--help\n->].").IsPlain := by decide
  exact ⟨hplain, by decide, (programs_are_expressions hplain _).1 (by decide)⟩

end Arguments

end TapeInterpreter
