import TapeInterpreter.Source
import TapeInterpreter.Text.Blank

/-!
Two lines that show a place in a source: the characters around it, and a caret below the place.
-/
namespace TapeInterpreter.Diagnostic
set_option autoImplicit false

/-- How many characters are shown on either side of the place. -/
def radius : Nat := 32

/-- A blank is shown as one space: a line break or a tab would misplace the caret. -/
def flatten (c : Char) : Char := if Text.isBlank c then ' ' else c

/-- The characters around `position`. -/
def window (code : Source) (position : Nat) : List Char :=
  (code.extract (position - radius) (position + radius + 1)).toList.map flatten

/-- A caret below the place that the window is about. -/
def caret (position : Nat) : List Char :=
  List.replicate (position - (position - radius)) ' ' ++ ['^']

theorem window_length_le (code : Source) (position : Nat) :
    (window code position).length ≤ 2 * radius + 1 := by
  simp only [window, List.length_map, Array.length_toList, Array.size_extract]
  omega

/-- No blank but the space is left in a window. -/
theorem eq_space_of_isBlank {code : Source} {position : Nat} {c : Char}
    (hc : c ∈ window code position) (hb : Text.isBlank c = true) : c = ' ' := by
  obtain ⟨d, -, rfl⟩ := List.mem_map.mp hc
  unfold flatten at hb ⊢
  split
  · rfl
  · rename_i hd
    rw [if_neg hd] at hb
    exact absurd hb hd

/-- The window and the caret line. -/
def context (code : Source) (position : Nat) : String × String :=
  (String.ofList (window code position), String.ofList (caret position))

end TapeInterpreter.Diagnostic
