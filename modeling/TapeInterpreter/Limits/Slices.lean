import TapeInterpreter.Limits.Config
import TapeInterpreter.Text.Bytes

/-!
The reader of configuration texts once more, as it cuts the name out of a header: by numbers of
bytes. A slice that is not there leaves no limits at all. What does not cut is as in `ofConfig`.
-/
namespace TapeInterpreter.Limits
set_option autoImplicit false

/-- What is between the first and the last byte. -/
def inner? (line : List Char) : Option (List Char) :=
  if Text.byteLength line = 0 then none else Text.slice? line 1 (Text.byteLength line - 1)

def ConfigLine.ofTrimmed? (line : List Char) : Option ConfigLine :=
  if line = [] ∨ line.head? = some '#' then some .other
  else if line.head? = some '[' ∧ line.getLast? = some ']' then do
    return .header (Text.trim (← inner? line))
  else match line.dropWhile (· ≠ '=') with
    | [] => some .other
    | _ :: value =>
      some (.entry (Text.trim (line.takeWhile (· ≠ '='))) (ConfigLine.value value))

/-- The limits that a configuration text sets, if each slice is there. -/
def ofConfig? (text : List Char) : Option Limits := do
  let lines ← (Text.lines text).mapM fun line => ConfigLine.ofTrimmed? (Text.trim line)
  return (lines.foldl ConfigDraft.add .empty).limits

/-- Both brackets take one byte. -/
theorem inner?_brackets (inside : List Char) : inner? ('[' :: (inside ++ [']'])) = some inside := by
  have hlength : Text.byteLength ('[' :: (inside ++ [']'])) - 1 =
      Text.byteLength (['['] ++ inside) := by
    simp only [Text.byteLength_cons, Text.byteLength_append, List.singleton_append]
    exact Nat.add_sub_cancel _ 1
  have hpos : Text.byteLength ('[' :: (inside ++ [']'])) ≠ 0 := by
    rw [Text.byteLength_cons]
    exact Nat.ne_of_gt (Nat.lt_of_lt_of_le (Char.utf8Size_pos '[') (Nat.le_add_right ..))
  rw [inner?, if_neg hpos, hlength]
  exact Text.slice?_between ['['] inside [']']

theorem ConfigLine.ofTrimmed?_eq (line : List Char) : ofTrimmed? line = some (ofTrimmed line) := by
  rw [ofTrimmed?, ofTrimmed_eq]
  split
  · rfl
  · split
    · rename_i hends
      obtain ⟨inside, rfl⟩ := brackets_iff.mp hends
      rw [inner?_brackets, List.tail_cons, List.dropLast_concat]
      rfl
    · cases line.dropWhile (· ≠ '=') <;> rfl

/-- Each slice is there. -/
theorem ofConfig?_eq (text : List Char) : ofConfig? text = some (ofConfig text) := by
  have hlines : (Text.lines text).mapM (fun line => ConfigLine.ofTrimmed? (Text.trim line)) =
      some ((Text.lines text).map ConfigLine.ofLine) := by
    simp only [ConfigLine.ofTrimmed?_eq]
    exact List.mapM_pure
  rw [ofConfig?, hlines]
  rfl

end TapeInterpreter.Limits
