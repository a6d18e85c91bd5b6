/-!
Blank characters are those with the Unicode property White_Space. Text is a list of characters here;
strings are turned into lists where they enter.
-/
namespace TapeInterpreter.Text
set_option autoImplicit false

/-- Unicode property White_Space. -/
def isBlank (c : Char) : Bool :=
  let n := c.toNat
  (0x09 ≤ n && n ≤ 0x0D) || n == 0x20 || n == 0x85 || n == 0xA0 || n == 0x1680 ||
    (0x2000 ≤ n && n ≤ 0x200A) || n == 0x2028 || n == 0x2029 || n == 0x202F || n == 0x205F ||
    n == 0x3000

/-- Drop from both ends the characters that `p` holds of. -/
def strip (p : Char → Bool) (text : List Char) : List Char :=
  ((text.dropWhile p).reverse.dropWhile p).reverse

/-- Drop the blanks at both ends. -/
def trim (text : List Char) : List Char := strip isBlank text

end TapeInterpreter.Text
