/-!
Source text, one character at a time. Eight characters are commands, two of them the brackets of a
loop; blanks mean nothing; a comment runs from `#` to the end of its line; all else is foreign.
-/
namespace TapeInterpreter
set_option autoImplicit false

/-- The characters of a program, addressed by position. -/
abbrev Source := Array Char

def Source.ofString (text : String) : Source := text.toList.toArray

/-- The commands that stand for themselves. -/
inductive Command where
  | right
  | left
  | increment
  | decrement
  | write
  | read
  deriving DecidableEq, Repr

/-- What a character outside comments is to a scan. -/
inductive Glyph where
  | blank
  | comment
  | opening
  | closing
  | command (c : Command)
  | foreign
  deriving DecidableEq, Repr

def Glyph.ofChar : Char → Glyph
  | ' ' | '\t' | '\r' | '\n' => .blank
  | '#' => .comment
  | '[' => .opening
  | ']' => .closing
  | '>' => .command .right
  | '<' => .command .left
  | '+' => .command .increment
  | '-' => .command .decrement
  | '.' => .command .write
  | ',' => .command .read
  | _ => .foreign

/-- The character that stands for this, where there is just one. -/
def Glyph.char? : Glyph → Option Char
  | .comment => some '#'
  | .opening => some '['
  | .closing => some ']'
  | .command .right => some '>'
  | .command .left => some '<'
  | .command .increment => some '+'
  | .command .decrement => some '-'
  | .command .write => some '.'
  | .command .read => some ','
  | .blank | .foreign => none

theorem Glyph.eq_of_char? {g : Glyph} {char c : Char} (h : Glyph.ofChar char = g)
    (hg : g.char? = some c) : char = c := by
  subst h
  unfold ofChar at hg
  split at hg <;> cases hg <;> rfl

/-- The first line feed among the `n` characters from `position` on, else the position behind
them. -/
def Source.lineEndWithin (code : Source) : Nat → Nat → Nat
  | 0, position => position
  | n + 1, position =>
    if code[position]? = some '\n' then position else code.lineEndWithin n (position + 1)

/-- Where the line that holds `position` ends: at its line feed or at the end of the source. -/
def Source.lineEnd (code : Source) (position : Nat) : Nat :=
  code.lineEndWithin (code.size - position) position

end TapeInterpreter
