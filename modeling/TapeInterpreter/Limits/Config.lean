import TapeInterpreter.Limits.Basic
import TapeInterpreter.Text.Blank
import TapeInterpreter.Text.Lines
import TapeInterpreter.Text.Numeral

/-!
Limits in a configuration text. Lines are headers in brackets, `key = value` entries, comments, or
of no interest. Only entries below a header named `limits` count, and of several entries with one
key the last one decides, even if its value is no number.
-/
namespace TapeInterpreter.Limits
set_option autoImplicit false

/-- What a line of a configuration text is, its blanks at both ends trimmed. -/
inductive ConfigLine where
  | other
  | header (name : List Char)
  | entry (key value : List Char)
  deriving DecidableEq, Repr

/-- The value part of an entry: up to a comment, trimmed, without the quotes at its ends. -/
def ConfigLine.value (text : List Char) : List Char :=
  Text.strip (· = '"') (Text.trim (text.takeWhile (· ≠ '#')))

def ConfigLine.ofTrimmed (line : List Char) : ConfigLine :=
  match line with
  | [] => .other
  | '#' :: _ => .other
  | first :: rest =>
    if first = '[' ∧ rest.getLast? = some ']' then .header (Text.trim rest.dropLast)
    else match line.dropWhile (· ≠ '=') with
      | [] => .other
      | _ :: value => .entry (Text.trim (line.takeWhile (· ≠ '='))) (ConfigLine.value value)

/-- Between the bracket that begins a line and the one that ends it. -/
theorem brackets_iff {line : List Char} :
    line.head? = some '[' ∧ line.getLast? = some ']' ↔
      ∃ inside, line = '[' :: (inside ++ [']']) := by
  constructor
  · rintro ⟨hfirst, hlast⟩
    obtain ⟨rest, rfl⟩ := List.head?_eq_some_iff.mp hfirst
    cases rest with
    | nil => cases hlast
    | cons c rest =>
      rw [List.getLast?_cons_cons] at hlast
      obtain ⟨inside, hinside⟩ := List.getLast?_eq_some_iff.mp hlast
      exact ⟨inside, by rw [hinside]⟩
  · rintro ⟨inside, rfl⟩
    exact ⟨rfl, by rw [← List.cons_append, List.getLast?_concat]⟩

/-- A line is told by its first and its last character. -/
theorem ConfigLine.ofTrimmed_eq (line : List Char) :
    ofTrimmed line =
      if line = [] ∨ line.head? = some '#' then .other
      else if line.head? = some '[' ∧ line.getLast? = some ']' then
        .header (Text.trim line.tail.dropLast)
      else match line.dropWhile (· ≠ '=') with
        | [] => .other
        | _ :: value => .entry (Text.trim (line.takeWhile (· ≠ '='))) (ConfigLine.value value) := by
  cases line with
  | nil => rfl
  | cons first rest =>
    by_cases hcomment : first = '#'
    · subst hcomment
      rfl
    · have hplain : ¬(first :: rest = [] ∨ (first :: rest).head? = some '#') := by
        rintro (h | h)
        · cases h
        · exact hcomment (Option.some.inj h)
      have hends : (first = '[' ∧ rest.getLast? = some ']') ↔
          ((first :: rest).head? = some '[' ∧ (first :: rest).getLast? = some ']') := by
        rw [List.head?_cons, Option.some.injEq]
        refine and_congr_right fun hfirst => ?_
        -- The bracket that opens is not the one that closes.
        cases rest with
        | nil => subst hfirst; decide
        | cons c rest => rw [List.getLast?_cons_cons]
      rw [if_neg hplain, ofTrimmed]
      · simp only [hends]
        rfl
      · exact hcomment

def ConfigLine.ofLine (line : List Char) : ConfigLine := ofTrimmed (Text.trim line)

/-- What has been read so far: whether the section is the right one, and the last value of each
key in it. -/
structure ConfigDraft where
  inLimits : Bool
  maxSteps : Option (List Char)
  timeoutMs : Option (List Char)
  deriving DecidableEq, Repr

def ConfigDraft.empty : ConfigDraft := ⟨false, none, none⟩

def ConfigDraft.add (d : ConfigDraft) : ConfigLine → ConfigDraft
  | .other => d
  | .header name => { d with inLimits := name = "limits".toList }
  | .entry key value =>
    if !d.inLimits then d
    else if key = "max_steps".toList then { d with maxSteps := some value }
    else if key = "timeout_ms".toList then { d with timeoutMs := some value }
    else d

/-- The number of a value. Underscores between or around the digits do not count. -/
def readValue? (value : List Char) : Option Nat :=
  Text.readNumeral? (value.filter (· ≠ '_'))

def ConfigDraft.limits (d : ConfigDraft) : Limits where
  maxSteps := d.maxSteps.bind readValue?
  timeoutMs := d.timeoutMs.bind readValue?

/-- The limits that a configuration text sets. -/
def ofConfig (text : List Char) : Limits :=
  (((Text.lines text).map ConfigLine.ofLine).foldl ConfigDraft.add .empty).limits

end TapeInterpreter.Limits
