import TapeInterpreter.Error
import TapeInterpreter.Source

/-!
# What stands to the left of a position

A context says whether a position lies in a comment and which brackets are open there. It is found
by one scan from the left and refers to no run. The verdict on a source is the first place at which
this scan cannot go on, or else the innermost bracket that is still open at the end.
-/
namespace TapeInterpreter
set_option autoImplicit false

/-- A comment and brackets, innermost first, that are open behind some characters. -/
structure Context where
  inComment : Bool
  opened : List Nat
  deriving DecidableEq, Repr

/-- The context behind `char`, which stands at `position`. -/
def Context.read (x : Context) (maxDepth position : Nat) (char : Char) : Except EvalError Context :=
  if x.inComment then .ok { x with inComment := char ≠ '\n' }
  else match Glyph.ofChar char with
    | .blank | .command _ => .ok x
    | .comment => .ok { x with inComment := true }
    | .opening =>
      if maxDepth ≤ x.opened.length then .error (.nestingTooDeep position maxDepth)
      else .ok { x with opened := position :: x.opened }
    | .closing =>
      match x.opened with
      | [] => .error (.unmatched .closing position)
      | _ :: outer => .ok { x with opened := outer }
    | .foreign => .error (.unexpectedCharacter char position)

namespace Source

/-- The context in front of `position`, or the first defect to the left of it. -/
def context (code : Source) (maxDepth : Nat) : Nat → Except EvalError Context
  | 0 => .ok ⟨false, []⟩
  | position + 1 =>
    match code.context maxDepth position, code[position]? with
    | .ok x, some char => x.read maxDepth position char
    | verdict, _ => verdict

/-- The first defect of a source whose loops may nest to `maxDepth`. -/
def defect? (code : Source) (maxDepth : Nat) : Option EvalError :=
  match code.context maxDepth code.size with
  | .error e => some e
  | .ok x => x.opened.head?.map (.unmatched .opening)

/-- What the character at `position` is to a scan that does not take it for part of a comment. -/
def glyph? (code : Source) (position : Nat) : Option Glyph :=
  code[position]?.map Glyph.ofChar

/-- The bracket at `closing` closes the loop opened at `opening`. -/
def Matches (code : Source) (maxDepth opening closing : Nat) : Prop :=
  code.glyph? closing = some .closing ∧
    ∃ outer, code.context maxDepth closing = .ok ⟨false, opening :: outer⟩

variable {code : Source} {maxDepth i j : Nat} {x y : Context}

theorem exists_of_glyph? {g : Glyph} (h : code.glyph? i = some g) :
    ∃ c, code[i]? = some c ∧ Glyph.ofChar c = g :=
  Option.map_eq_some_iff.mp h

theorem lt_size_of_glyph? {g : Glyph} (h : code.glyph? i = some g) : i < code.size := by
  obtain ⟨c, hc, -⟩ := exists_of_glyph? h
  exact (Array.getElem?_eq_some_iff.mp hc).1

theorem glyph?_eq_none_iff : code.glyph? i = none ↔ code.size ≤ i := by
  simp [glyph?]

theorem context_succ {c : Char} (hx : code.context maxDepth i = .ok x) (hc : code[i]? = some c) :
    code.context maxDepth (i + 1) = x.read maxDepth i c := by
  simp only [context, hx, hc]

theorem context_succ_of_error {e : EvalError} (h : code.context maxDepth i = .error e) :
    code.context maxDepth (i + 1) = .error e := by
  simp only [context, h]

/-- Behind the end nothing is read any more. -/
theorem context_succ_of_size_le (h : code.size ≤ i) :
    code.context maxDepth (i + 1) = code.context maxDepth i := by
  have hc : code[i]? = none := Array.getElem?_eq_none h
  rw [context, hc]
  cases code.context maxDepth i <;> rfl

theorem context_of_size_le (h : code.size ≤ i) :
    code.context maxDepth i = code.context maxDepth code.size := by
  induction h with
  | refl => rfl
  | step hi ih => rw [context_succ_of_size_le hi, ih]

/-- A defect stays the first one, however far the scan is looked at. -/
theorem context_error_of_le {e : EvalError} (h : code.context maxDepth i = .error e) (hij : i ≤ j) :
    code.context maxDepth j = .error e := by
  induction hij with
  | refl => exact h
  | step _ ih => exact context_succ_of_error ih

theorem defect?_of_context_error {e : EvalError} (h : code.context maxDepth i = .error e) :
    code.defect? maxDepth = some e := by
  have hs : code.context maxDepth code.size = .error e := by
    rcases Nat.le_total i code.size with hi | hi
    · exact context_error_of_le h hi
    · rw [← context_of_size_le hi, h]
  simp only [defect?, hs]

/-- At the end the innermost open bracket is the defect, if there is one. -/
theorem defect?_of_context_end (hi : code.size ≤ i) (h : code.context maxDepth i = .ok x) :
    code.defect? maxDepth = x.opened.head?.map (.unmatched .opening) := by
  rw [context_of_size_le hi] at h
  simp only [defect?, h]

/-- A context comes from the one before it by at most one bracket. -/
theorem context_pred (h : code.context maxDepth (i + 1) = .ok y) :
    ∃ x, code.context maxDepth i = .ok x ∧
      (y.opened = x.opened ∨
        (y.opened = i :: x.opened ∧ x.inComment = false ∧ code.glyph? i = some .opening ∧
          x.opened.length < maxDepth) ∨
        ∃ o, x.opened = o :: y.opened ∧ x.inComment = false ∧
          code.glyph? i = some .closing) := by
  cases hx : code.context maxDepth i with
  | error e => rw [context_succ_of_error hx] at h; cases h
  | ok x =>
    refine ⟨x, rfl, ?_⟩
    cases hc : code[i]? with
    | none =>
      rw [context_succ_of_size_le (Array.getElem?_eq_none_iff.mp hc), hx] at h
      cases h
      exact Or.inl rfl
    | some c =>
      rw [context_succ hx hc] at h
      obtain ⟨comment, opened⟩ := x
      cases comment with
      | true => cases h; exact Or.inl rfl
      | false =>
        have hglyph : code.glyph? i = some (Glyph.ofChar c) := by simp only [glyph?, hc, Option.map]
        simp only [Context.read, Bool.false_eq_true, if_false] at h
        generalize Glyph.ofChar c = g at h hglyph
        cases g with
        | blank => cases h; exact Or.inl rfl
        | command k => cases h; exact Or.inl rfl
        | comment => cases h; exact Or.inl rfl
        | foreign => cases h
        | opening =>
          by_cases hd : maxDepth ≤ opened.length
          · rw [if_pos hd] at h; cases h
          · rw [if_neg hd] at h
            cases h
            exact Or.inr (Or.inl ⟨rfl, rfl, hglyph, Nat.lt_of_not_le hd⟩)
        | closing =>
          cases opened with
          | nil => cases h
          | cons o outer => cases h; exact Or.inr (Or.inr ⟨o, rfl, rfl, hglyph⟩)

/-! ## Open brackets -/

/-- An open bracket is one of the source, and what was open in front of it still is. -/
theorem context_opened {comment : Bool} (inner : List Nat) {outer : List Nat} {o : Nat}
    (h : code.context maxDepth i = .ok ⟨comment, inner ++ o :: outer⟩) :
    o < i ∧ code.glyph? o = some .opening ∧ outer.length < maxDepth ∧
      code.context maxDepth o = .ok ⟨false, outer⟩ := by
  induction i generalizing comment inner with
  | zero =>
    have hn : inner ++ o :: outer = [] := congrArg Context.opened (Except.ok.inj h).symm
    simp at hn
  | succ i ih =>
    obtain ⟨⟨comment', opened⟩, hx, hs⟩ := context_pred h
    rcases hs with hs | ⟨hs, rfl, hg, hd⟩ | ⟨q, hs, -⟩
    · obtain rfl : inner ++ o :: outer = opened := hs
      obtain ⟨hlt, hrest⟩ := ih _ hx
      exact ⟨Nat.lt_succ_of_lt hlt, hrest⟩
    · cases inner with
      | nil =>
        obtain ⟨rfl, rfl⟩ := List.cons.inj hs
        exact ⟨Nat.lt_succ_self o, hg, hd, hx⟩
      | cons q inner =>
        obtain ⟨-, rfl⟩ := List.cons.inj hs
        obtain ⟨hlt, hrest⟩ := ih _ hx
        exact ⟨Nat.lt_succ_of_lt hlt, hrest⟩
    · obtain rfl : opened = q :: (inner ++ o :: outer) := hs
      obtain ⟨hlt, hrest⟩ := ih (q :: inner) hx
      exact ⟨Nat.lt_succ_of_lt hlt, hrest⟩

/-- The brackets that are open at a position, innermost first, stand further and further left. -/
theorem lt_of_opened {comment : Bool} {outer : List Nat} {o p : Nat}
    (h : code.context maxDepth i = .ok ⟨comment, p :: outer⟩) (ho : o ∈ outer) : o < p := by
  obtain ⟨-, -, -, hp⟩ := context_opened [] h
  obtain ⟨inner, outer', rfl⟩ := List.append_of_mem ho
  exact (context_opened inner hp).1

/-- No more brackets are open than may nest. -/
theorem length_opened_le {comment : Bool} {opened : List Nat}
    (h : code.context maxDepth i = .ok ⟨comment, opened⟩) : opened.length ≤ maxDepth := by
  cases opened with
  | nil => exact Nat.zero_le maxDepth
  | cons o outer =>
    obtain ⟨-, -, hd, -⟩ := context_opened [] h
    exact hd

/-- A bracket that is open at a position is open everywhere between the two. -/
theorem context_between {comment : Bool} (inner : List Nat) {outer : List Nat} {o : Nat}
    (h : code.context maxDepth i = .ok ⟨comment, inner ++ o :: outer⟩) (hoj : o < j) (hji : j ≤ i) :
    ∃ comment' inner', code.context maxDepth j = .ok ⟨comment', inner' ++ o :: outer⟩ := by
  induction i generalizing comment inner with
  | zero => omega
  | succ i ih =>
    rcases Nat.lt_or_eq_of_le hji with hji | rfl
    · obtain ⟨⟨comment', opened⟩, hx, hs⟩ := context_pred h
      rcases hs with hs | ⟨hs, -⟩ | ⟨q, hs, -⟩
      · obtain rfl : inner ++ o :: outer = opened := hs
        exact ih _ hx (Nat.le_of_lt_succ hji)
      · cases inner with
        | nil =>
          obtain ⟨rfl, -⟩ := List.cons.inj hs
          omega
        | cons q inner =>
          obtain ⟨-, rfl⟩ := List.cons.inj hs
          exact ih _ hx (Nat.le_of_lt_succ hji)
      · obtain rfl : opened = q :: (inner ++ o :: outer) := hs
        exact ih (q :: inner) hx (Nat.le_of_lt_succ hji)
    · exact ⟨comment, inner, h⟩

theorem context_succ_opening {outer : List Nat} (h : code.context maxDepth i = .ok ⟨false, outer⟩)
    (hg : code.glyph? i = some .opening) (hd : outer.length < maxDepth) :
    code.context maxDepth (i + 1) = .ok ⟨false, i :: outer⟩ := by
  obtain ⟨c, hc, hg⟩ := exists_of_glyph? hg
  rw [context_succ h hc, Context.read, if_neg Bool.false_ne_true, hg]
  exact if_neg (Nat.not_le.mpr hd)

theorem context_succ_closing {o : Nat} {outer : List Nat}
    (h : code.context maxDepth i = .ok ⟨false, o :: outer⟩) (hg : code.glyph? i = some .closing) :
    code.context maxDepth (i + 1) = .ok ⟨false, outer⟩ := by
  obtain ⟨c, hc, hg⟩ := exists_of_glyph? hg
  rw [context_succ h hc, Context.read, if_neg Bool.false_ne_true, hg]

theorem Matches.lt {o c : Nat} (h : code.Matches maxDepth o c) : o < c := by
  obtain ⟨-, outer, hc⟩ := h
  exact (context_opened [] hc).1

/-- Behind a loop the same brackets are open as in front of it. -/
theorem Matches.context_succ {o c : Nat} {comment : Bool} {outer : List Nat}
    (h : code.Matches maxDepth o c) (ho : code.context maxDepth o = .ok ⟨comment, outer⟩) :
    code.context maxDepth (c + 1) = .ok ⟨false, outer⟩ := by
  obtain ⟨hg, outer', hc⟩ := h
  obtain ⟨-, -, -, ho'⟩ := context_opened [] hc
  rw [ho] at ho'
  obtain ⟨rfl, rfl⟩ := Context.mk.inj (Except.ok.inj ho')
  exact context_succ_closing hc hg

/-- A bracket that is still open behind `closing` is not closed there. -/
theorem Matches.le_of_opened {o c : Nat} {comment : Bool} (inner : List Nat) {outer : List Nat}
    (h : code.Matches maxDepth o c)
    (hi : code.context maxDepth i = .ok ⟨comment, inner ++ o :: outer⟩) : i ≤ c := by
  refine Nat.not_lt.mp fun hlt => ?_
  obtain ⟨-, -, -, ho⟩ := context_opened inner hi
  have hbehind := h.context_succ ho
  obtain ⟨comment', inner', hc⟩ :=
    context_between inner hi (Nat.lt_succ_of_lt h.lt) hlt
  rw [hbehind] at hc
  have hlen := congrArg List.length (congrArg Context.opened (Except.ok.inj hc))
  simp at hlen
  omega

theorem Matches.unique {o c c' : Nat} (h : code.Matches maxDepth o c)
    (h' : code.Matches maxDepth o c') : c = c' := by
  obtain ⟨-, outer, hc⟩ := id h
  obtain ⟨-, outer', hc'⟩ := id h'
  exact Nat.le_antisymm (h'.le_of_opened [] hc) (h.le_of_opened [] hc')

/-- Where the scan from the left fails, no loop that is open there has a closing bracket. -/
theorem not_matches_of_error {o c : Nat} {comment : Bool} {inner outer : List Nat} {e : EvalError}
    (hi : code.context maxDepth i = .ok ⟨comment, inner ++ o :: outer⟩)
    (he : code.context maxDepth (i + 1) = .error e) : ¬ code.Matches maxDepth o c := by
  intro h
  obtain ⟨-, -, -, ho⟩ := context_opened inner hi
  have hle := h.le_of_opened inner hi
  have hbehind := h.context_succ ho
  rw [context_error_of_le he (Nat.succ_le_succ hle)] at hbehind
  cases hbehind

theorem not_matches_of_end {o c : Nat} {comment : Bool} {inner outer : List Nat}
    (hi : code.context maxDepth i = .ok ⟨comment, inner ++ o :: outer⟩) (hend : code.size ≤ i) :
    ¬ code.Matches maxDepth o c := by
  intro h
  have hle := h.le_of_opened inner hi
  have hlt := lt_size_of_glyph? h.1
  omega

/-! ## The defects -/

/-- What is wrong with a text, with the place at which the scan from the left finds it. -/
inductive IsDefect (code : Source) (maxDepth : Nat) : EvalError → Prop
  | foreign {p : Nat} {char : Char} {opened : List Nat} (hc : code[p]? = some char)
      (hg : Glyph.ofChar char = .foreign) (hx : code.context maxDepth p = .ok ⟨false, opened⟩) :
      IsDefect code maxDepth (.unexpectedCharacter char p)
  | unopened {p : Nat} (hg : code.glyph? p = some .closing)
      (hx : code.context maxDepth p = .ok ⟨false, []⟩) :
      IsDefect code maxDepth (.unmatched .closing p)
  | tooDeep {p : Nat} {opened : List Nat} (hg : code.glyph? p = some .opening)
      (hx : code.context maxDepth p = .ok ⟨false, opened⟩) (hd : opened.length = maxDepth) :
      IsDefect code maxDepth (.nestingTooDeep p maxDepth)
  | unclosed {p : Nat} {comment : Bool} {outer : List Nat}
      (hx : code.context maxDepth code.size = .ok ⟨comment, p :: outer⟩) :
      IsDefect code maxDepth (.unmatched .opening p)

/-- A character at which the scan from the left cannot go on. -/
theorem isDefect_of_read {c : Char} {e : EvalError} (hx : code.context maxDepth i = .ok x)
    (hc : code[i]? = some c) (h : x.read maxDepth i c = .error e) : code.IsDefect maxDepth e := by
  obtain ⟨comment, opened⟩ := x
  cases comment with
  | true => cases h
  | false =>
    have hglyph : code.glyph? i = some (Glyph.ofChar c) := by rw [glyph?, hc]; rfl
    simp only [Context.read, Bool.false_eq_true, if_false] at h
    generalize hg : Glyph.ofChar c = g at h hglyph
    cases g with
    | blank => cases h
    | comment => cases h
    | command k => cases h
    | foreign => cases h; exact .foreign hc hg hx
    | opening =>
      by_cases hd : maxDepth ≤ opened.length
      · simp only [if_pos hd] at h
        cases h
        exact .tooDeep hglyph hx (Nat.le_antisymm (length_opened_le hx) hd)
      · simp only [if_neg hd] at h
        cases h
    | closing =>
      cases opened with
      | nil => cases h; exact .unopened hglyph hx
      | cons o outer => cases h

theorem isDefect_of_context {e : EvalError} (h : code.context maxDepth i = .error e) :
    code.IsDefect maxDepth e := by
  induction i with
  | zero => cases h
  | succ i ih =>
    cases hx : code.context maxDepth i with
    | error e' =>
      rw [context_succ_of_error hx] at h
      exact ih (hx.trans h)
    | ok x =>
      cases hc : code[i]? with
      | none =>
        rw [context_succ_of_size_le (Array.getElem?_eq_none_iff.mp hc), hx] at h
        cases h
      | some c => exact isDefect_of_read hx hc ((context_succ hx hc).symm.trans h)

theorem isDefect_of_defect? {e : EvalError} (h : code.defect? maxDepth = some e) :
    code.IsDefect maxDepth e := by
  unfold defect? at h
  split at h
  · rename_i e' hx
    cases h
    exact isDefect_of_context hx
  · rename_i x hx
    obtain ⟨comment, opened⟩ := x
    cases opened with
    | nil => cases h
    | cons o outer => cases h; exact .unclosed hx

/-! ## Comments -/

theorem le_lineEndWithin (code : Source) (n i : Nat) : i ≤ code.lineEndWithin n i := by
  induction n generalizing i with
  | zero => exact Nat.le_refl i
  | succ n ih =>
    rw [lineEndWithin]
    split
    · exact Nat.le_refl i
    · exact Nat.le_of_succ_le (ih (i + 1))

theorem le_lineEnd (code : Source) (i : Nat) : i ≤ code.lineEnd i :=
  code.le_lineEndWithin (code.size - i) i

theorem lineEndWithin_le (code : Source) (n i : Nat) : code.lineEndWithin n i ≤ i + n := by
  induction n generalizing i with
  | zero => exact Nat.le_refl i
  | succ n ih =>
    rw [lineEndWithin]
    split
    · exact Nat.le_add_right i (n + 1)
    · exact Nat.le_trans (ih (i + 1)) (by omega)

theorem lineEnd_le (h : i ≤ code.size) : code.lineEnd i ≤ code.size :=
  Nat.le_trans (code.lineEndWithin_le _ i) (by omega)

theorem lineEndWithin_stops (code : Source) (n i : Nat) :
    code[code.lineEndWithin n i]? = some '\n' ∨ code.lineEndWithin n i = i + n := by
  induction n generalizing i with
  | zero => exact Or.inr rfl
  | succ n ih =>
    rw [lineEndWithin]
    split
    · rename_i hc
      exact Or.inl hc
    · rw [Nat.add_comm n, ← Nat.add_assoc]
      exact ih (i + 1)

/-- Where a line ends there is its line feed, or nothing any more. -/
theorem lineEnd_stops (code : Source) (i : Nat) :
    code[code.lineEnd i]? = some '\n' ∨ code.size ≤ code.lineEnd i := by
  rcases code.lineEndWithin_stops (code.size - i) i with hc | he
  · exact Or.inl hc
  · exact Or.inr (by rw [lineEnd, he]; omega)

/-- The sign that opens a comment does not end its line. -/
theorem exists_lineEnd_eq (hg : code.glyph? i = some .comment) :
    ∃ n, i + 1 + n = code.size ∧ code.lineEnd i = code.lineEndWithin n (i + 1) := by
  have hlt := lt_size_of_glyph? hg
  obtain ⟨n, hn⟩ : ∃ n, code.size - i = n + 1 := ⟨code.size - i - 1, by omega⟩
  have hne : code[i]? ≠ some '\n' := by
    intro hc
    rw [glyph?, hc] at hg
    cases hg
  refine ⟨n, by omega, ?_⟩
  rw [lineEnd, hn, lineEndWithin, if_neg hne]

theorem context_lineEndWithin {opened : List Nat} (n : Nat)
    (h : code.context maxDepth i = .ok ⟨true, opened⟩) (hn : i + n ≤ code.size) :
    code.context maxDepth (code.lineEndWithin n i) = .ok ⟨true, opened⟩ := by
  induction n generalizing i with
  | zero => exact h
  | succ n ih =>
    rw [lineEndWithin]
    split
    · exact h
    · rename_i hc
      have hlt : i < code.size := by omega
      refine ih ?_ (by omega)
      rw [context_succ h (Array.getElem?_eq_getElem hlt)]
      have hne : code[i] ≠ '\n' := fun he => hc (by rw [Array.getElem?_eq_getElem hlt, he])
      simp [Context.read, hne]

/-- Behind the line of a comment the same brackets are open as in front of it. The position lies
in the comment only if the source ends with it. -/
theorem context_lineEnd {opened : List Nat} (h : code.context maxDepth i = .ok ⟨false, opened⟩)
    (hg : code.glyph? i = some .comment) :
    ∃ comment, (comment = true → code.size ≤ code.lineEnd i) ∧
      code.context maxDepth (code.lineEnd i + 1) = .ok ⟨comment, opened⟩ := by
  obtain ⟨n, hn, hline⟩ := exists_lineEnd_eq hg
  obtain ⟨c, hc, hgc⟩ := exists_of_glyph? hg
  have hnext : code.context maxDepth (i + 1) = .ok ⟨true, opened⟩ := by
    rw [context_succ h hc, Context.read, if_neg Bool.false_ne_true, hgc]
  have hx := context_lineEndWithin n hnext (Nat.le_of_eq hn)
  rw [← hline] at hx
  rcases code.lineEnd_stops i with hend | hend
  · refine ⟨false, fun hf => absurd hf Bool.false_ne_true, ?_⟩
    rw [Source.context_succ hx hend]
    rfl
  · refine ⟨true, fun _ => hend, ?_⟩
    rw [context_succ_of_size_le hend, hx]

/-! ## Places in front of characters -/

/-- These brackets are open at `i`, and no comment, unless the text is over there. -/
def OpenAt (code : Source) (maxDepth i : Nat) (opened : List Nat) : Prop :=
  ∃ comment, (comment = true → code.size < i) ∧ code.context maxDepth i = .ok ⟨comment, opened⟩

theorem OpenAt.context {opened : List Nat} {g : Glyph} (h : code.OpenAt maxDepth i opened)
    (hg : code.glyph? i = some g) : code.context maxDepth i = .ok ⟨false, opened⟩ := by
  obtain ⟨comment, hend, hx⟩ := h
  have hlt := lt_size_of_glyph? hg
  cases comment with
  | false => exact hx
  | true => exact absurd (hend rfl) (by omega)

theorem openAt_of_context {opened : List Nat} (h : code.context maxDepth i = .ok ⟨false, opened⟩) :
    code.OpenAt maxDepth i opened :=
  ⟨false, fun hf => absurd hf Bool.false_ne_true, h⟩

theorem OpenAt.next {opened : List Nat} {g : Glyph} (h : code.OpenAt maxDepth i opened)
    (hg : code.glyph? i = some g) (hb : g = .blank ∨ ∃ c, g = .command c) :
    code.OpenAt maxDepth (i + 1) opened := by
  obtain ⟨c, hc, hgc⟩ := exists_of_glyph? hg
  refine openAt_of_context ?_
  rw [context_succ (h.context hg) hc, Context.read, if_neg Bool.false_ne_true, hgc]
  rcases hb with rfl | ⟨c, rfl⟩ <;> rfl

theorem OpenAt.lineEnd {opened : List Nat} (h : code.OpenAt maxDepth i opened)
    (hg : code.glyph? i = some .comment) : code.OpenAt maxDepth (code.lineEnd i + 1) opened := by
  obtain ⟨comment, hend, hx⟩ := context_lineEnd (h.context hg) hg
  exact ⟨comment, fun hc => Nat.lt_succ_of_le (hend hc), hx⟩

end Source

end TapeInterpreter
