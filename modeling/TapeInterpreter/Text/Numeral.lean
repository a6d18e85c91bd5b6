/-!
Decimal numerals below 2 ^ 64.
-/
namespace TapeInterpreter.Text
set_option autoImplicit false

/-- The value of a row of digits. -/
def digitsValue (digits : List Char) : Nat :=
  digits.foldl (fun value c => value * 10 + (c.toNat - '0'.toNat)) 0

/-- The number that `digits` denote if there are digits, nothing else, and it is below 2 ^ 64. -/
def readDigits? (digits : List Char) : Option Nat :=
  if digits.isEmpty || !digits.all Char.isDigit then none
  else
    let value := digitsValue digits
    if value < UInt64.size then some value else none

/-- The number that `text` denotes. One plus sign may stand before the digits. -/
def readNumeral? : List Char → Option Nat
  | '+' :: digits => readDigits? digits
  | digits => readDigits? digits

/-- `text` is a decimal numeral for `n`, which is below 2 ^ 64. -/
def Denotes (text : List Char) (n : Nat) : Prop :=
  ∃ sign digits, text = sign ++ digits ∧ (sign = [] ∨ sign = ['+']) ∧ digits ≠ [] ∧
    (∀ c ∈ digits, c.isDigit = true) ∧ Nat.ofDigitChars 10 digits 0 = n ∧ n < UInt64.size

theorem digitsValue_eq (digits : List Char) :
    digitsValue digits = Nat.ofDigitChars 10 digits 0 := by
  rw [Nat.ofDigitChars_eq_foldl, digitsValue]
  simp only [Nat.mul_comm]

theorem readDigits?_eq_some_iff {digits : List Char} {n : Nat} :
    readDigits? digits = some n ↔ digits ≠ [] ∧ (∀ c ∈ digits, c.isDigit = true) ∧
      Nat.ofDigitChars 10 digits 0 = n ∧ n < UInt64.size := by
  rw [readDigits?, digitsValue_eq]
  by_cases hdigits : digits ≠ [] ∧ ∀ c ∈ digits, c.isDigit = true
  · obtain ⟨hne, hall⟩ := hdigits
    have hempty : digits.isEmpty = false := by rwa [List.isEmpty_eq_false_iff]
    rw [hempty, List.all_eq_true.mpr hall, if_neg (by decide), Option.ite_none_right_eq_some,
      Option.some.injEq]
    constructor
    · rintro ⟨hlt, rfl⟩
      exact ⟨hne, hall, rfl, hlt⟩
    · rintro ⟨-, -, rfl, hlt⟩
      exact ⟨hlt, rfl⟩
  · rw [if_pos]
    · constructor
      · intro h
        cases h
      · rintro ⟨hne, hall, -⟩
        exact absurd ⟨hne, hall⟩ hdigits
    · rw [Bool.or_eq_true, Bool.not_eq_true', List.isEmpty_iff]
      refine Decidable.or_iff_not_imp_left.mpr fun hne => ?_
      rw [← Bool.not_eq_true, List.all_eq_true]
      exact fun hall => hdigits ⟨hne, hall⟩

/-- Exactly the numerals are read. -/
theorem readNumeral?_eq_some_iff {text : List Char} {n : Nat} :
    readNumeral? text = some n ↔ Denotes text n := by
  unfold readNumeral? Denotes
  split
  · rename_i digits
    rw [readDigits?_eq_some_iff]
    constructor
    · rintro ⟨hne, hall, hvalue⟩
      exact ⟨['+'], digits, rfl, Or.inr rfl, hne, hall, hvalue⟩
    · rintro ⟨sign, digits', htext, rfl | rfl, hne, hall, hvalue⟩
      · have hplus : ('+' : Char).isDigit = true :=
          hall '+' (by rw [← List.nil_append digits', ← htext]; exact List.mem_cons_self ..)
        cases hplus
      · cases htext
        exact ⟨hne, hall, hvalue⟩
  · rename_i hplus
    rw [readDigits?_eq_some_iff]
    constructor
    · rintro ⟨hne, hall, hvalue⟩
      exact ⟨[], text, rfl, Or.inl rfl, hne, hall, hvalue⟩
    · rintro ⟨sign, digits, htext, rfl | rfl, hne, hall, hvalue⟩
      · cases htext
        exact ⟨hne, hall, hvalue⟩
      · exact absurd htext (hplus digits)

theorem denotes_toDigits {n : Nat} (h : n < UInt64.size) : Denotes (Nat.toDigits 10 n) n :=
  ⟨[], _, rfl, Or.inl rfl, Nat.toDigits_ne_nil,
    fun _ hc => Nat.isDigit_of_mem_toDigits (by decide) (by decide) hc,
    Nat.ofDigitChars_toDigits (by decide) (by decide), h⟩

end TapeInterpreter.Text
