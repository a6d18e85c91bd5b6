import TapeInterpreter.Diagnostic
import TapeInterpreter.Proofs.Positions

/-!
# The caret stands below its character

The window is cut off at both ends of the source, and the caret moves with its left end. So the two
lines agree on every place of a source, its end included, and evaluations report no other places.
-/
namespace TapeInterpreter
set_option autoImplicit false

namespace Diagnostic

/-- What the window and the caret line promise about the place `p`, which may be the end of the
source. The column of the caret is counted from zero. -/
structure Marks (code : Source) (p : Nat) (lines : String × String) : Prop where
  window : lines.1.toList = ((code.toList.take (min code.size (p + 33))).drop (p - 32)).map
    fun c => if Text.isBlank c then ' ' else c
  caret : lines.2.toList = List.replicate (min p 32) ' ' ++ ['^']
  narrow : lines.1.length ≤ 65
  flat : ∀ c ∈ lines.1.toList, Text.isBlank c = true → c = ' '
  unbroken : '\n' ∉ lines.1.toList ∧ '\r' ∉ lines.1.toList ∧ '\t' ∉ lines.1.toList
  below : ∀ c, code[p]? = some c →
    lines.1.toList[min p 32]? = some (if Text.isBlank c then ' ' else c)
  behind : p = code.size → lines.1.length = min p 32

variable {code : Source} {p : Nat}

theorem window_eq (code : Source) (p : Nat) :
    window code p =
      ((code.toList.take (min code.size (p + radius + 1))).drop (p - radius)).map flatten := by
  have hclip : code.toList.take (p + radius + 1) =
      code.toList.take (min code.size (p + radius + 1)) := by
    rw [List.take_eq_take_iff, Array.length_toList]
    omega
  rw [window, Array.toList_extract, List.extract_eq_take_drop, ← List.drop_take, hclip]

theorem length_window (code : Source) (p : Nat) :
    (window code p).length = min code.size (p + radius + 1) - (p - radius) := by
  rw [window_eq, List.length_map, List.length_drop, List.length_take, Array.length_toList]
  omega

theorem caret_eq (p : Nat) : caret p = List.replicate (min p radius) ' ' ++ ['^'] := by
  rw [caret, show p - (p - radius) = min p radius by omega]

/-- The left end of the window is as far in front of the place as the caret is indented. -/
theorem window_below_caret {c : Char} (hc : code[p]? = some c) :
    (window code p)[min p radius]? = some (flatten c) := by
  have hp : p < code.size := (Array.getElem?_eq_some_iff.mp hc).1
  have hplace : p - radius + min p radius = p := by omega
  rw [window_eq, List.getElem?_map, List.getElem?_drop, hplace, List.getElem?_take,
    if_pos (show p < min code.size (p + radius + 1) by omega), Array.getElem?_toList, hc]
  rfl

/-- A blank other than the space is not in a window. -/
theorem not_mem_window {c : Char} (hb : Text.isBlank c = true) (hc : c ≠ ' ') :
    c ∉ window code p := fun hmem => hc (eq_space_of_isBlank hmem hb)

end Diagnostic

open Diagnostic in
/-- The caret marks the character it is about, at every place of a source and at its end. The window
is the run of characters from 32 in front of the place to 32 behind it, or less at the ends of the
source, with each blank shown as one space; the caret is in the column of the character, or just
behind the last character of the source. No evaluation reports a place behind the end. -/
theorem caret_marks_its_character (code : Source) :
    (∀ p, p ≤ code.size → Marks code p (context code p)) ∧
    ∀ b settings outcome calls e p, Evaluates b settings code outcome calls →
      outcome.result = .error e → e.position? = some p → p ≤ code.size := by
  refine ⟨fun p hp => ?_, fun b settings outcome calls e p hevaluates he hposition =>
    (pointsAtCause_of_evaluates hevaluates he).le_size hposition⟩
  have hwindow : (context code p).1.toList = window code p := String.toList_ofList
  have hlength : (context code p).1.length = (window code p).length := String.length_ofList
  constructor
  · rw [hwindow]
    exact window_eq code p
  · exact String.toList_ofList.trans (caret_eq p)
  · rw [hlength]
    exact window_length_le code p
  · intro c hc hb
    rw [hwindow] at hc
    exact eq_space_of_isBlank hc hb
  · rw [hwindow]
    exact ⟨not_mem_window rfl (by decide), not_mem_window rfl (by decide),
      not_mem_window rfl (by decide)⟩
  · intro c hc
    rw [hwindow]
    exact window_below_caret hc
  · intro hend
    rw [hlength, length_window, hend, radius]
    omega

/-- A line break between two characters of two bytes each, with the caret at the end. -/
theorem caret_marks_the_end :
    3 ≤ (Source.ofString "é\né").size ∧
      Diagnostic.Marks (Source.ofString "é\né") 3 ("é é", "   ^") :=
  have h : 3 ≤ (Source.ofString "é\né").size := by decide
  ⟨h, (caret_marks_its_character (Source.ofString "é\né")).1 3 h⟩

end TapeInterpreter
