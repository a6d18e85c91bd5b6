/-!
Text by its bytes in UTF-8. The ends of a slice are numbers of bytes: they must be in order, within
the text, and not inside of a character.
-/
namespace TapeInterpreter.Text
set_option autoImplicit false

/-- Bytes are read as a text exactly if they are that text in UTF-8. -/
theorem fromUTF8?_eq_some_iff {bytes : ByteArray} {text : String} :
    String.fromUTF8? bytes = some text ↔ bytes = text.toUTF8 := by
  constructor
  · intro h
    rw [String.fromUTF8?] at h
    split at h
    · cases h
      rfl
    · cases h
  · rintro rfl
    exact dif_pos text.isValidUTF8

/-- How many bytes `text` takes up. -/
def byteLength : List Char → Nat
  | [] => 0
  | c :: text => c.utf8Size + byteLength text

/-- What is behind the first `n` bytes. -/
def dropBytes? : List Char → Nat → Option (List Char)
  | [], n => if n = 0 then some [] else none
  | c :: text, n =>
    if n = 0 then some (c :: text)
    else if c.utf8Size ≤ n then dropBytes? text (n - c.utf8Size)
    else none

/-- The first `n` bytes. -/
def takeBytes? : List Char → Nat → Option (List Char)
  | [], n => if n = 0 then some [] else none
  | c :: text, n =>
    if n = 0 then some []
    else if c.utf8Size ≤ n then (takeBytes? text (n - c.utf8Size)).map (c :: ·)
    else none

/-- The bytes from `start` to in front of `stop`. -/
def slice? (text : List Char) (start stop : Nat) : Option (List Char) :=
  if start ≤ stop then (takeBytes? text stop).bind (dropBytes? · start) else none

@[simp] theorem byteLength_cons (c : Char) (text : List Char) :
    byteLength (c :: text) = c.utf8Size + byteLength text := rfl

theorem byteLength_append (l r : List Char) :
    byteLength (l ++ r) = byteLength l + byteLength r := by
  induction l with
  | nil => exact (Nat.zero_add _).symm
  | cons c l ih => rw [List.cons_append, byteLength_cons, ih, byteLength_cons, Nat.add_assoc]

theorem dropBytes?_append (l r : List Char) : dropBytes? (l ++ r) (byteLength l) = some r := by
  induction l with
  | nil => cases r <;> rfl
  | cons c l ih =>
    have hpos := c.utf8Size_pos
    rw [List.cons_append, dropBytes?, byteLength_cons, if_neg (by omega), if_pos (by omega),
      Nat.add_sub_cancel_left, ih]

theorem takeBytes?_append (l r : List Char) : takeBytes? (l ++ r) (byteLength l) = some l := by
  induction l with
  | nil => cases r <;> rfl
  | cons c l ih =>
    have hpos := c.utf8Size_pos
    rw [List.cons_append, takeBytes?, byteLength_cons, if_neg (by omega), if_pos (by omega),
      Nat.add_sub_cancel_left, ih, Option.map_some]

/-- A slice between two places that are not inside of a character is there. -/
theorem slice?_between (l m r : List Char) :
    slice? (l ++ m ++ r) (byteLength l) (byteLength (l ++ m)) = some m := by
  rw [slice?, if_pos (by rw [byteLength_append]; omega), takeBytes?_append]
  exact dropBytes?_append l m

end TapeInterpreter.Text
