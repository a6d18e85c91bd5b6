import Mathlib.Data.List.Basic
import TapeInterpreter.Proofs.Context

/-!
# The characters that mean something

Blanks and comments are stripped from a source by leaving all other characters as they are. Each of
these has a place in the stripped source, which is the number of those to the left of it, and an
origin in the source it comes from.
-/
namespace TapeInterpreter
set_option autoImplicit false

namespace Source

/-- A scan that gets to `position` is inside a comment there. -/
def inComment (code : Source) : Nat → Bool
  | 0 => false
  | position + 1 =>
    if code.inComment position then code[position]? ≠ some '\n'
    else code.glyph? position = some .comment

/-- The character at `position` is outside comments, opens none and is no blank. -/
def isSignificant (code : Source) (position : Nat) : Bool :=
  !code.inComment position &&
    match code.glyph? position with
    | none | some .blank | some .comment => false
    | some _ => true

/-- The positions of all characters that are neither blank nor in a comment. -/
def significant (code : Source) : List Nat :=
  (List.range code.size).filter code.isSignificant

/-- The source without its blanks and comments. -/
def stripped (code : Source) : Source :=
  (code.significant.filterMap fun position => code[position]?).toArray

/-- Where a character of the stripped source comes from. Its end comes from the end. -/
def origin (code : Source) (position : Nat) : Nat :=
  code.significant[position]?.getD code.size

/-- How many characters to the left of `position` are not stripped. -/
def rank (code : Source) (position : Nat) : Nat :=
  ((List.range position).filter code.isSignificant).length

/-- Comments and blanks go, whatever the comments hold. -/
example : (Source.ofString "+ # [a]\n -").stripped = Source.ofString "+-" := by decide

variable {code : Source} {p j : Nat}

/-- The scan from the left takes for comments what they are. -/
theorem inComment_of_context {maxDepth i : Nat} {x : Context}
    (h : code.context maxDepth i = .ok x) : code.inComment i = x.inComment := by
  induction i generalizing x with
  | zero => cases h; rfl
  | succ i ih =>
    cases hx : code.context maxDepth i with
    | error e => rw [context_succ_of_error hx] at h; cases h
    | ok y =>
      have hy := ih hx
      cases hc : code[i]? with
      | none =>
        rw [context_succ_of_size_le (Array.getElem?_eq_none_iff.mp hc), hx] at h
        cases h
        rw [inComment, hy, glyph?, hc]
        cases x.inComment <;> rfl
      | some c =>
        rw [context_succ hx hc] at h
        rw [inComment, hy, glyph?, hc]
        obtain ⟨comment, opened⟩ := y
        cases comment with
        | true => cases h; simp
        | false =>
          obtain ⟨g, hg⟩ : ∃ g, Glyph.ofChar c = g := ⟨_, rfl⟩
          simp only [Context.read, Bool.false_eq_true, if_false, Option.map, hg] at h ⊢
          cases g with
          | blank => cases h; rfl
          | command k => cases h; rfl
          | comment => cases h; rfl
          | foreign => cases h
          | opening =>
            by_cases hd : maxDepth ≤ opened.length
            · simp only [if_pos hd] at h; cases h
            · simp only [if_neg hd] at h; cases h; rfl
          | closing =>
            cases opened with
            | nil => cases h
            | cons o outer => cases h; rfl

theorem inComment_of_isSignificant (h : code.isSignificant p = true) :
    code.inComment p = false := by
  simp only [isSignificant, Bool.and_eq_true, Bool.not_eq_true'] at h
  exact h.1

theorem lt_size_of_isSignificant (h : code.isSignificant p = true) : p < code.size := by
  refine Nat.not_le.mp fun hle => ?_
  rw [isSignificant, glyph?_eq_none_iff.mpr hle] at h
  simp at h

theorem glyph?_of_isSignificant (h : code.isSignificant p = true) :
    code.glyph? p ≠ some .blank ∧ code.glyph? p ≠ some .comment := by
  constructor <;>
  · intro hg
    rw [isSignificant, hg] at h
    simp at h

theorem isSignificant_of_glyph? {g : Glyph} (hc : code.inComment p = false)
    (hg : code.glyph? p = some g) (hb : g ≠ .blank) (hn : g ≠ .comment) :
    code.isSignificant p = true := by
  rw [isSignificant, hc, hg]
  cases g <;> simp_all

/-- Only the sign that opens a comment is followed by one. -/
theorem inComment_succ (hc : code.inComment p = false) (hg : code.glyph? p ≠ some .comment) :
    code.inComment (p + 1) = false := by
  simp [inComment, hc, hg]

theorem inComment_succ_of_isSignificant (h : code.isSignificant p = true) :
    code.inComment (p + 1) = false :=
  inComment_succ (inComment_of_isSignificant h) (glyph?_of_isSignificant h).2

/-! ## Ranks -/

theorem rank_succ : code.rank (p + 1) = code.rank p + if code.isSignificant p then 1 else 0 := by
  rw [rank, List.range_succ, List.filter_append, List.length_append, rank]
  cases h : code.isSignificant p <;> simp [h]

theorem rank_succ_of_isSignificant (h : code.isSignificant p = true) :
    code.rank (p + 1) = code.rank p + 1 := by
  rw [rank_succ, if_pos h]

theorem rank_succ_of_not (h : code.isSignificant p = false) : code.rank (p + 1) = code.rank p := by
  rw [rank_succ, h]; rfl

theorem stripped_eq : code.stripped = (code.significant.map (code.getD · ' ')).toArray := by
  rw [stripped, List.filterMap_eq_map_iff_forall_eq_some.mpr]
  intro position hmem
  have hlt := List.mem_range.mp (List.mem_filter.mp hmem).1
  simp [hlt]

theorem size_stripped : code.stripped.size = code.rank code.size := by
  simp [stripped_eq, rank, significant]

theorem rank_of_size_le (h : code.size ≤ p) : code.rank p = code.stripped.size := by
  rw [size_stripped]
  induction h with
  | refl => rfl
  | step hle ih =>
    rw [rank_succ_of_not, ih]
    exact Bool.eq_false_iff.mpr fun hs => absurd (lt_size_of_isSignificant hs) (Nat.not_lt.mpr hle)

theorem significant_rank (h : code.isSignificant p = true) :
    code.significant[code.rank p]? = some p := by
  obtain ⟨n, hn⟩ := Nat.exists_eq_add_of_lt (lt_size_of_isSignificant h)
  rw [significant, hn, Nat.add_assoc, List.range_add, List.filter_append, rank,
    List.getElem?_append_right (Nat.le_refl _), Nat.sub_self, List.range_succ_eq_map, List.map_cons,
    List.filter_cons_of_pos (by simpa using h)]
  rfl

/-- A character that is not stripped is the origin of what stands at its rank. -/
theorem origin_rank (h : code.isSignificant p = true) : code.origin (code.rank p) = p := by
  rw [origin, significant_rank h]; rfl

theorem origin_of_size_le (h : code.stripped.size ≤ j) : code.origin j = code.size := by
  have hlen : code.significant.length ≤ j := by simpa [stripped_eq] using h
  rw [origin, List.getElem?_eq_none hlen]; rfl

theorem significant_origin (h : j < code.stripped.size) :
    code.significant[j]? = some (code.origin j) := by
  have hlen : j < code.significant.length := by simpa [stripped_eq] using h
  rw [origin, List.getElem?_eq_getElem hlen]; rfl

theorem isSignificant_origin (h : j < code.stripped.size) :
    code.isSignificant (code.origin j) = true :=
  (List.mem_filter.mp (List.mem_of_getElem? (significant_origin h))).2

theorem rank_origin (h : j < code.stripped.size) : code.rank (code.origin j) = j := by
  have hnodup : code.significant.Nodup := List.nodup_range.filter _
  have hsame := (significant_rank (isSignificant_origin h)).trans (significant_origin h).symm
  have hlen : j < code.significant.length := by simpa [stripped_eq] using h
  exact ((List.getElem?_inj hlen hnodup).mp hsame.symm).symm

/-- Stripping leaves characters as they are. -/
theorem getElem?_stripped (h : j < code.stripped.size) :
    code.stripped[j]? = code[code.origin j]? := by
  have hlt := lt_size_of_isSignificant (isSignificant_origin h)
  simp only [stripped_eq, List.getElem?_toArray, List.getElem?_map, significant_origin h]
  simp [hlt]

theorem rank_lt (h : code.isSignificant p = true) : code.rank p < code.stripped.size := by
  refine Nat.not_le.mp fun hle => ?_
  have hp : p = code.size := by rw [← origin_rank h, origin_of_size_le hle]
  exact Nat.ne_of_lt (lt_size_of_isSignificant h) hp

theorem origin_inj {i : Nat} (hi : i < code.stripped.size) (hj : j < code.stripped.size)
    (h : code.origin i = code.origin j) : i = j := by
  rw [← rank_origin hi, h, rank_origin hj]

/-! ## Comments -/

theorem rank_succ_of_inComment (h : code.inComment p = true) : code.rank (p + 1) = code.rank p := by
  refine rank_succ_of_not (Bool.eq_false_iff.mpr fun hs => ?_)
  rw [inComment_of_isSignificant hs] at h
  cases h

/-- Up to the end of its line everything is part of a comment. -/
theorem rank_lineEndWithin (n : Nat) (h : code.inComment p = true) (hn : p + n = code.size) :
    code.rank (code.lineEndWithin n p + 1) = code.rank p ∧
      (code.inComment (code.lineEndWithin n p + 1) = false ∨
        code.size ≤ code.lineEndWithin n p) := by
  induction n generalizing p with
  | zero => exact ⟨rank_succ_of_inComment h, Or.inr (Nat.le_of_eq hn.symm)⟩
  | succ n ih =>
    rw [lineEndWithin]
    split
    · rename_i hc
      exact ⟨rank_succ_of_inComment h, Or.inl (by simp [inComment, h, hc])⟩
    · rename_i hc
      rw [← rank_succ_of_inComment h]
      exact ih (by simp [inComment, h, hc]) (by omega)

/-- Behind the line of a comment the scan has passed nothing that is not stripped. -/
theorem rank_lineEnd (hc : code.inComment p = false) (hg : code.glyph? p = some .comment) :
    code.rank (code.lineEnd p + 1) = code.rank p ∧
      (code.inComment (code.lineEnd p + 1) = false ∨ code.size ≤ code.lineEnd p) := by
  obtain ⟨n, hn, hline⟩ := exists_lineEnd_eq hg
  have hsucc : code.rank (p + 1) = code.rank p := by
    refine rank_succ_of_not (Bool.eq_false_iff.mpr fun hs => ?_)
    exact (glyph?_of_isSignificant hs).2 hg
  rw [hline, ← hsucc]
  exact rank_lineEndWithin n (by simp [inComment, hc, hg]) hn

end Source

end TapeInterpreter
