import Mathlib.Data.List.Induction
import TapeInterpreter.Limits.Slices
import TapeInterpreter.Proofs.ConfigLines

/-!
# One entry decides a limit

Where a line stands is said by numbers: it is in the section of the nearest header in front of it.
Of the entries in the section of limits that have the key of a limit, the last one decides it, even
if its value is no number. Reading is a fold over the lines, so the argument adds one line at the
end.
-/
namespace TapeInterpreter.Limits
set_option autoImplicit false

/-- Line `i` is in the section `name`: the nearest header in front of it has that name. -/
def Within (name : List Char) (lines : List (List Char)) (i : Nat) : Prop :=
  ∃ j, j < i ∧ (∃ line, lines[j]? = some line ∧ Opens name line) ∧
    ∀ k line, j < k → k < i → lines[k]? = some line → ¬ IsHeader line

/-- Line `i` sets `key` to `value`, in the section of limits. -/
def EntryAt (lines : List (List Char)) (key : List Char) (i : Nat) (value : List Char) : Prop :=
  (∃ line, lines[i]? = some line ∧ Sets key value line) ∧ Within sectionName lines i

/-- The value of the last entry for `key` in the section of limits, if there is an entry. -/
inductive LastEntry (lines : List (List Char)) (key : List Char) : Option (List Char) → Prop
  | none : (∀ i value, ¬ EntryAt lines key i value) → LastEntry lines key none
  | some {i : Nat} {value : List Char} :
    EntryAt lines key i value → (∀ j other, i < j → ¬ EntryAt lines key j other) →
      LastEntry lines key (some value)

variable {lines : List (List Char)} {line key value name : List Char} {i : Nat}

theorem within_append (hi : i ≤ lines.length) (more : List (List Char)) :
    Within name (lines ++ more) i ↔ Within name lines i := by
  have hsame : ∀ k, k < i → (lines ++ more)[k]? = lines[k]? := fun k hk =>
    List.getElem?_append_left (Nat.lt_of_lt_of_le hk hi)
  unfold Within
  constructor
  · rintro ⟨j, hj, hopens, hnone⟩
    rw [hsame j hj] at hopens
    exact ⟨j, hj, hopens, fun k line hjk hk hline => hnone k line hjk hk (by rwa [hsame k hk])⟩
  · rintro ⟨j, hj, hopens, hnone⟩
    rw [← hsame j hj] at hopens
    refine ⟨j, hj, hopens, fun k line hjk hk hline => hnone k line hjk hk ?_⟩
    rwa [hsame k hk] at hline

/-- Behind a header a section begins. Behind any other line it goes on. -/
theorem within_concat :
    Within name (lines ++ [line]) (lines.length + 1) ↔
      Opens name line ∨ ¬ IsHeader line ∧ Within name lines lines.length := by
  have hlast : (lines ++ [line])[lines.length]? = some line := List.getElem?_concat_length
  rw [← within_append (Nat.le_refl lines.length) [line]]
  constructor
  · rintro ⟨j, hj, ⟨header, hheader, hopens⟩, hnone⟩
    rcases Nat.eq_or_lt_of_le (Nat.le_of_lt_succ hj) with rfl | hlt
    · rw [hlast] at hheader
      cases hheader
      exact Or.inl hopens
    · exact Or.inr ⟨hnone _ line hlt (Nat.lt_succ_self _) hlast,
        j, hlt, ⟨header, hheader, hopens⟩,
        fun k other hjk hk => hnone k other hjk (Nat.lt_succ_of_lt hk)⟩
  · rintro (hopens | ⟨hline, j, hj, hopens, hnone⟩)
    · exact ⟨lines.length, Nat.lt_succ_self _, ⟨line, hlast, hopens⟩,
        fun k other hjk hk => absurd hjk (Nat.not_lt_of_le (Nat.le_of_lt_succ hk))⟩
    · refine ⟨j, Nat.lt_succ_of_lt hj, hopens, fun k other hjk hk hother => ?_⟩
      rcases Nat.eq_or_lt_of_le (Nat.le_of_lt_succ hk) with rfl | hlt
      · rw [hlast] at hother
        cases hother
        exact hline
      · exact hnone k other hjk hlt hother

theorem EntryAt.lt (h : EntryAt lines key i value) : i < lines.length := by
  obtain ⟨⟨line, hline, -⟩, -⟩ := h
  exact (List.getElem?_eq_some_iff.mp hline).1

theorem entryAt_concat :
    EntryAt (lines ++ [line]) key i value ↔ EntryAt lines key i value ∨
      i = lines.length ∧ Sets key value line ∧ Within sectionName lines lines.length := by
  have hlast : (lines ++ [line])[lines.length]? = some line := List.getElem?_concat_length
  constructor
  · intro h
    have hi := h.lt
    obtain ⟨⟨entry, hentry, hsets⟩, hwithin⟩ := h
    rw [List.length_append, List.length_singleton] at hi
    rw [within_append (Nat.le_of_lt_succ hi)] at hwithin
    rcases Nat.eq_or_lt_of_le (Nat.le_of_lt_succ hi) with rfl | hlt
    · rw [hlast] at hentry
      cases hentry
      exact Or.inr ⟨rfl, hsets, hwithin⟩
    · rw [List.getElem?_append_left hlt] at hentry
      exact Or.inl ⟨⟨entry, hentry, hsets⟩, hwithin⟩
  · rintro (h | ⟨rfl, hsets, hwithin⟩)
    · have hi := h.lt
      obtain ⟨⟨entry, hentry, hsets⟩, hwithin⟩ := h
      exact ⟨⟨entry, by rwa [List.getElem?_append_left hi], hsets⟩,
        (within_append (Nat.le_of_lt hi) [line]).mpr hwithin⟩
    · exact ⟨⟨line, hlast, hsets⟩, (within_append (Nat.le_refl _) [line]).mpr hwithin⟩

/-- Lines count behind the lines that end in the section of limits. -/
theorem inLimits_draft_iff (lines : List (List Char)) :
    (draft lines).inLimits = true ↔ Within sectionName lines lines.length := by
  induction lines using List.reverseRecOn with
  | nil =>
    constructor
    · intro h
      cases h
    · rintro ⟨j, hj, -⟩
      exact absurd hj (Nat.not_lt_zero j)
  | append_singleton lines line ih =>
    rw [draft_concat, List.length_append, List.length_singleton, within_concat, ← ih]
    exact ConfigDraft.inLimits_add_iff _ line

/-- The draft has for each key the value of its last entry. -/
theorem lastEntry_draft (lines : List (List Char)) (limit : Limit) :
    LastEntry lines limit.key ((draft lines).get limit) := by
  induction lines using List.reverseRecOn with
  | nil =>
    have hget : (draft []).get limit = none := by cases limit <;> rfl
    rw [hget]
    exact .none fun i value h => absurd h.lt (Nat.not_lt_zero i)
  | append_singleton lines line ih =>
    rw [draft_concat]
    by_cases hnew : ∃ value, Sets limit.key value line ∧ (draft lines).inLimits = true
    · -- Behind the new line there is no other entry, so it decides.
      obtain ⟨value, hsets, hin⟩ := hnew
      rw [ofLine_eq_entry_iff.mpr hsets, ConfigDraft.get_add_entry hin]
      refine .some (entryAt_concat.mpr (Or.inr ⟨rfl, hsets, (inLimits_draft_iff lines).mp hin⟩))
        fun j other hj hentry => ?_
      have hlt := hentry.lt
      rw [List.length_append, List.length_singleton] at hlt
      omega
    · have hold : ∀ i value, EntryAt (lines ++ [line]) limit.key i value ↔
          EntryAt lines limit.key i value := fun i value =>
        entryAt_concat.trans (or_iff_left fun ⟨_, hsets, hwithin⟩ =>
          hnew ⟨value, hsets, (inLimits_draft_iff lines).mpr hwithin⟩)
      rw [ConfigDraft.get_add fun hin value hline =>
        hnew ⟨value, ofLine_eq_entry_iff.mp hline, hin⟩]
      generalize (draft lines).get limit = value? at ih ⊢
      cases ih with
      | none hnone => exact .none fun i value h => hnone i value ((hold i value).mp h)
      | some hentry hlast =>
        exact .some ((hold _ _).mpr hentry) fun j other hj h => hlast j other hj ((hold _ _).mp h)

/-- Each limit is decided by one line. Reading a configuration text cuts no character and no name
that is not there, so it always comes to limits. Such a limit is the number that the value of the
last entry for its key in the section of limits denotes, without its underscores, and is absent if
there is no such entry or its value is no number. An entry for another key, or in front of the first
header, or in another section may as well be left out. -/
theorem last_entry_decides (text : List Char) :
    ofConfig? text = some (ofConfig text) ∧
    (∀ limit, ∃ value?, LastEntry (Text.lines text) (Limit.key limit) value? ∧
      ∀ n, (ofConfig text).get limit = some n ↔
        ∃ value, value? = some value ∧ Text.Denotes (value.filter (· ≠ '_')) n) ∧
    ∀ front line back key value, Text.Encloses front back → '\n' ∉ line →
      text = front ++ line ++ back → Sets key value line →
      ((∀ limit, key ≠ Limit.key limit) ∨
        ¬ Within sectionName (Text.lines front) (Text.lines front).length) →
      ofConfig text = ofConfig (front ++ back) := by
  refine ⟨ofConfig?_eq text, fun limit => ?_, fun front line back key value hencloses hline htext
    hsets hidle => ?_⟩
  · refine ⟨(draft (Text.lines text)).get limit, lastEntry_draft _ limit, fun n => ?_⟩
    rw [ofConfig_eq, get_limits, Option.bind_eq_some_iff]
    simp only [readValue?_eq_some_iff]
  · obtain ⟨rest, hrest⟩ := exists_draft_enclosed hencloses
    have hsame : (draft (Text.lines front)).add (ConfigLine.ofLine line) =
        draft (Text.lines front) := by
      rw [ofLine_eq_entry_iff.mpr hsets]
      refine ConfigDraft.add_eq_self (fun name h => nomatch h) fun hin limit other h => ?_
      cases h
      rcases hidle with hkey | hwithin
      · exact hkey limit rfl
      · exact hwithin ((inLimits_draft_iff _).mp hin)
    have hempty := hrest [] (List.not_mem_nil)
    rw [List.append_nil] at hempty
    rw [htext, ofConfig_eq, ofConfig_eq, hrest line hline, hsame, hempty]
    rfl

/-- An earlier number does not help a later value that is none. -/
example : ofConfig "[limits]\nmax_steps = 5\nmax_steps = soon\n".toList = ⟨none, none⟩ := by decide

end TapeInterpreter.Limits
