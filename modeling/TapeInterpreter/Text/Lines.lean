/-!
Lines end at line feeds. A carriage return before a line feed stays in its line.
-/
namespace TapeInterpreter.Text
set_option autoImplicit false

/-- Put `c` in front of the text whose lines are given. -/
def consLine (c : Char) (lines : List (List Char)) : List (List Char) :=
  if c = '\n' then [] :: lines
  else match lines with
    | [] => [[c]]
    | line :: more => (c :: line) :: more

/-- The lines of `text`, without their line feeds. Behind a final line feed there is no line. -/
def lines (text : List Char) : List (List Char) :=
  text.foldr consLine []

/-- The text of `lines`. Each is ended by a line feed, or by a carriage return and a line feed; the
last one may also be ended by the text itself. -/
inductive Ended : List (List Char) → List Char → Prop
  | none : Ended [] []
  | last {line : List Char} : '\n' ∉ line → line ≠ [] → Ended [line] line
  | feed {line text : List Char} {more : List (List Char)} :
    '\n' ∉ line → Ended more text → Ended (line :: more) (line ++ '\n' :: text)
  | returnFeed {line text : List Char} {more : List (List Char)} :
    '\n' ∉ line → Ended more text → Ended (line :: more) (line ++ '\r' :: '\n' :: text)

/-- Between `front` and `back` there is room for one line. The line feed behind it is in `back`, and
so may a carriage return be in front of that. -/
structure Encloses (front back : List Char) : Prop where
  begins : front = [] ∨ front.getLast? = some '\n'
  ends : back = [] ∨ (∃ rest, back = '\n' :: rest) ∨ ∃ rest, back = '\r' :: '\n' :: rest

variable {line front text : List Char}

theorem lines_cons_of_ne {c : Char} (h : c ≠ '\n') (text : List Char) :
    lines (c :: text) = match lines text with
      | [] => [[c]]
      | line :: more => (c :: line) :: more :=
  if_neg h

theorem lines_ne_nil (h : text ≠ []) : lines text ≠ [] := by
  cases text with
  | nil => exact absurd rfl h
  | cons c text =>
    by_cases hc : c = '\n'
    · subst hc
      exact List.cons_ne_nil _ _
    · rw [lines_cons_of_ne hc]
      split <;> exact List.cons_ne_nil _ _

theorem lines_line (h : '\n' ∉ line) (text : List Char) :
    lines (line ++ '\n' :: text) = line :: lines text := by
  induction line with
  | nil => rfl
  | cons c line ih =>
    rw [List.mem_cons, not_or] at h
    rw [List.cons_append, lines_cons_of_ne (Ne.symm h.1), ih h.2]

theorem lines_last (h : '\n' ∉ line) (hne : line ≠ []) : lines line = [line] := by
  induction line with
  | nil => exact absurd rfl hne
  | cons c line ih =>
    rw [List.mem_cons, not_or] at h
    rw [lines_cons_of_ne (Ne.symm h.1)]
    cases line with
    | nil => rfl
    | cons d line => rw [ih h.2 (List.cons_ne_nil d line)]

theorem lines_append_feed (front text : List Char) :
    lines (front ++ '\n' :: text) = lines (front ++ ['\n']) ++ lines text := by
  induction front with
  | nil => rfl
  | cons c front ih =>
    by_cases hc : c = '\n'
    · subst hc
      exact congrArg ([] :: ·) ih
    · rw [List.cons_append, List.cons_append, lines_cons_of_ne hc, lines_cons_of_ne hc, ih]
      cases hlines : lines (front ++ ['\n']) with
      | nil => exact absurd hlines (lines_ne_nil (by simp))
      | cons line more => rfl

/-- Behind a line feed the lines begin anew. -/
theorem lines_append (h : front = [] ∨ front.getLast? = some '\n') (text : List Char) :
    lines (front ++ text) = lines front ++ lines text := by
  rcases h with rfl | h
  · rfl
  · obtain ⟨front, rfl⟩ := List.getLast?_eq_some_iff.mp h
    rw [List.append_assoc, List.singleton_append]
    exact lines_append_feed front text

/-- A reader of lines that does not care for carriage returns does not care how lines end. -/
theorem map_lines_of_ended {α : Type} {read : List Char → α}
    (hread : ∀ line, read (line ++ ['\r']) = read line) {written : List (List Char)}
    (h : Ended written text) : (lines text).map read = written.map read := by
  induction h with
  | none => rfl
  | last hline hne => rw [lines_last hline hne]
  | feed hline _ ih => rw [lines_line hline, List.map_cons, ih, List.map_cons]
  | @returnFeed line text more hline _ ih =>
    have hwhole : '\n' ∉ line ++ ['\r'] := by
      rw [List.mem_append, not_or]
      exact ⟨hline, by decide⟩
    have hlines := lines_line hwhole text
    rw [List.append_assoc, List.singleton_append] at hlines
    rw [hlines, List.map_cons, hread, ih, List.map_cons]

/-- Lines may each be ended by a line feed. -/
theorem ended_feeds {written : List (List Char)} (h : ∀ line ∈ written, '\n' ∉ line) :
    Ended written (written.flatMap (· ++ ['\n'])) := by
  induction written with
  | nil => exact .none
  | cons line more ih =>
    rw [List.flatMap_cons, List.append_assoc]
    exact .feed (h line (List.mem_cons_self ..)) (ih fun other hother =>
      h other (List.mem_cons_of_mem line hother))

end TapeInterpreter.Text
