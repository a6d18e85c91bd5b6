import TapeInterpreter.Proofs.ConfigLines

/-!
# Comments behind a line

A comment is dropped if it is behind a value, and nobody misses it behind a comment, a blank or a
key. But a header is told by its last character, and there a comment is in the way.
-/
namespace TapeInterpreter.Limits
set_option autoImplicit false

/-- The line with a comment behind it. -/
def commented (line comment : List Char) : List Char := line ++ ' ' :: '#' :: comment

variable {line comment name : List Char}

theorem commented_eq (line comment : List Char) :
    commented line comment = line ++ [' ', '#'] ++ comment := by
  rw [List.append_assoc]
  rfl

/-- The first character of the line stays the first one, unless there is none. -/
theorem head?_trim_commented (line comment : List Char) :
    (Text.trim (commented line comment)).head? = (Text.trim line).head?.or (some '#') := by
  have hcomment : (Text.trim (' ' :: '#' :: comment)).head? = some '#' := by
    rw [Text.trim, Text.head?_strip]
    rfl
  rw [commented, Text.trim, Text.head?_strip_append, ← Text.trim, ← Text.trim, hcomment]

theorem head?_trim_commented_of_head {c : Char} (h : (Text.trim line).head? = some c)
    (comment : List Char) : (Text.trim (commented line comment)).head? = some c := by
  rw [head?_trim_commented, h, Option.some_or]

/-- The last character is the one of the comment, of which at least the sign stays. -/
theorem getLast?_trim_commented (line comment : List Char) :
    (Text.trim (commented line comment)).getLast? =
      (Text.trim comment).getLast?.or (some '#') := by
  have hsign : (Text.trim (line ++ [' ', '#'])).getLast? = some '#' := by
    rw [Text.trim, Text.getLast?_strip_append]
    rfl
  rw [commented_eq, Text.trim, Text.getLast?_strip_append, ← Text.trim, ← Text.trim, hsign]

theorem isHeader_commented_iff : IsHeader (commented line comment) ↔
    (Text.trim line).head? = some '[' ∧ (Text.trim comment).getLast? = some ']' := by
  rw [isHeader_iff, head?_trim_commented, getLast?_trim_commented]
  refine and_congr ?_ ?_
  · cases (Text.trim line).head? with
    | none => decide
    | some c => rfl
  · cases (Text.trim comment).getLast? with
    | none => decide
    | some c => rfl

/-- With the sign in its name, a section is no longer the one that is read. -/
theorem not_opens_commented (line comment : List Char) :
    ¬ Opens sectionName (commented line comment) := by
  rintro ⟨inside, hinside, hname⟩
  have hmem : '#' ∈ Text.trim (commented line comment) :=
    (Text.mem_strip rfl).mpr (List.mem_append_right line (by simp))
  have hsign : '#' ∈ inside := by
    rw [hinside] at hmem
    simpa using hmem
  have hmem' : '#' ∈ Text.trim inside := (Text.mem_strip rfl).mpr hsign
  rw [hname] at hmem'
  exact absurd hmem' (by decide)

/-- A character in front of the equals sign that is in no key keeps the line from being an entry
that counts. -/
theorem add_eq_self_of_mem {mark : Char} (hblank : Text.isBlank mark = false)
    (hkey : ∀ limit, mark ∉ Limit.key limit) (hheader : ¬ IsHeader line)
    (hmark : ∀ front back, Text.trim line = front ++ '=' :: back → mark ∈ front)
    (d : ConfigDraft) : d.add (ConfigLine.ofLine line) = d := by
  refine ConfigDraft.add_eq_self (fun name h => hheader ⟨name, ofLine_eq_header_iff.mp h⟩)
    fun _ limit value h => ?_
  obtain ⟨front, back, hline, -, hfront, -⟩ := (ofLine_eq_entry_iff.mp h).parts
  have hmem : mark ∈ Text.trim front := (Text.mem_strip hblank).mpr (hmark front back hline)
  exact hkey limit (hfront ▸ hmem)

/-- A line that begins with a bracket is a header, or it says nothing. -/
theorem add_bracket (hfirst : (Text.trim line).head? = some '[') (hheader : ¬ IsHeader line)
    (d : ConfigDraft) : d.add (ConfigLine.ofLine line) = d := by
  have hkey : ∀ limit, '[' ∉ Limit.key limit := fun limit => by cases limit <;> decide
  refine add_eq_self_of_mem rfl hkey hheader (fun front back hline => ?_) d
  rw [hline] at hfirst
  cases front with
  | nil => cases hfirst
  | cons c front =>
    cases hfirst
    exact List.mem_cons_self ..

/-- In a line without an equals sign, one in the comment comes behind the sign of the comment. -/
theorem add_commented_of_not_mem (hfirst : (Text.trim line).head? ≠ some '[') (h : '=' ∉ line)
    (d : ConfigDraft) : d.add (ConfigLine.ofLine (commented line comment)) = d := by
  have hkey : ∀ limit, '#' ∉ Limit.key limit := fun limit => by cases limit <;> decide
  have hheader : ¬ IsHeader (commented line comment) := fun hheader =>
    hfirst (isHeader_commented_iff.mp hheader).1
  refine add_eq_self_of_mem rfl hkey hheader (fun front back htrim => ?_) d
  obtain ⟨l, r, hwhole, hl, -⟩ := Text.exists_strip Text.isBlank (commented line comment)
  rw [← Text.trim, htrim, commented_eq] at hwhole
  have hcut : line ++ [' ', '#'] ++ comment = l ++ front ++ '=' :: (back ++ r) := by
    rw [hwhole]
    simp
  have hnot : '=' ∉ line ++ [' ', '#'] := by
    rw [List.mem_append, not_or]
    exact ⟨h, by decide⟩
  obtain ⟨more, hmore⟩ := Text.exists_append_of_not_mem hnot hcut
  have hfront : '#' ∈ l ++ front := by
    rw [hmore]
    exact List.mem_append_left more (List.mem_append_right line (by decide))
  -- The sign is no blank, so it was not trimmed off.
  exact (List.mem_append.mp hfront).resolve_left fun hmem => absurd (hl '#' hmem) (by decide)

/-- A comment is lost behind a line that does not begin with a bracket. -/
theorem add_commented (hfirst : (Text.trim line).head? ≠ some '[') (comment : List Char)
    (d : ConfigDraft) :
    d.add (ConfigLine.ofLine (commented line comment)) = d.add (ConfigLine.ofLine line) := by
  by_cases hmem : '=' ∈ line
  · by_cases hcomment : (Text.trim line).head? = some '#'
    · rw [ofLine_of_comment hcomment,
        ofLine_of_comment (head?_trim_commented_of_head hcomment comment)]
    · obtain ⟨front, back, rfl, hfront⟩ := List.eq_append_cons_of_mem hmem
      have hplain := mt (head?_trim_assign_iff (by decide) front back).mpr hcomment
      have hopen := mt (head?_trim_assign_iff (by decide) front back).mpr hfirst
      have hvalue : ConfigLine.value (back ++ ' ' :: '#' :: comment) = ConfigLine.value back := by
        rw [← List.singleton_append, ← List.append_assoc]
        refine value_append (List.all_eq_true.mp (by decide)) (fun c hc => ?_) back
        cases hc
        rfl
      rw [commented, List.append_assoc, List.cons_append,
        ofLine_assign hfront hplain hopen, ofLine_assign hfront hplain hopen, hvalue]
  · have hheader : ¬ IsHeader line := fun hheader => hfirst (isHeader_iff.mp hheader).1
    rw [add_commented_of_not_mem hfirst hmem,
      ofLine_of_not_mem hheader fun h => hmem ((Text.mem_strip rfl).mp h)]
    rfl

/-- If the line begins with a bracket, it does not open the section that is read, and the comment
leaves it as it is, a header or none: it ends in a bracket exactly if the line is a header. -/
def Harmless (line comment : List Char) : Prop :=
  (Text.trim line).head? = some '[' →
    ¬ Opens sectionName line ∧ (IsHeader line ↔ (Text.trim comment).getLast? = some ']')

theorem add_commented_of_harmless (h : Harmless line comment) (d : ConfigDraft) :
    d.add (ConfigLine.ofLine (commented line comment)) = d.add (ConfigLine.ofLine line) := by
  by_cases hfirst : (Text.trim line).head? = some '['
  · obtain ⟨hopens, hsame⟩ := h hfirst
    have hlast : IsHeader (commented line comment) ↔ IsHeader line :=
      isHeader_commented_iff.trans ((and_iff_right hfirst).trans hsame.symm)
    by_cases hheader : IsHeader line
    · rw [ConfigDraft.add_of_closes hheader hopens,
        ConfigDraft.add_of_closes (hlast.mpr hheader) (not_opens_commented line comment)]
    · rw [add_bracket hfirst hheader,
        add_bracket (head?_trim_commented_of_head hfirst comment) (mt hlast.mp hheader)]
  · exact add_commented hfirst comment d

/-- An entry with which it is seen whether lines count. -/
def probe : List Char := "max_steps=1".toList

theorem ofLine_probe : ConfigLine.ofLine probe = .entry Limit.maxSteps.key ['1'] := by decide

theorem maxSteps_probe {front : List Char} (hfront : front = [] ∨ front.getLast? = some '\n')
    (hnone : (draft (Text.lines front)).get .maxSteps = none) (hline : '\n' ∉ line)
    (hfirst : (Text.trim line).head? = some '[') :
    (ofConfig (front ++ line ++ '\n' :: probe)).get .maxSteps = some 1 ↔
      Opens sectionName line ∨ ¬ IsHeader line ∧ (draft (Text.lines front)).inLimits = true := by
  have hlines : Text.lines probe = [probe] := Text.lines_last (by decide) (by decide)
  have hkept : ((draft (Text.lines front)).add (ConfigLine.ofLine line)).get .maxSteps = none := by
    by_cases hheader : IsHeader line
    · obtain ⟨name, hname⟩ := hheader
      rw [ofLine_eq_header_iff.mpr hname]
      exact hnone
    · rwa [add_bracket hfirst hheader]
  rw [← ConfigDraft.inLimits_add_iff, ofConfig_eq, draft_line_feed hfront hline, hlines,
    List.map_singleton, List.foldl_cons, List.foldl_nil, ofLine_probe, get_limits]
  generalize (draft (Text.lines front)).add (ConfigLine.ofLine line) = d at hkept ⊢
  cases hin : d.inLimits with
  | true =>
    rw [ConfigDraft.get_add_entry hin]
    exact iff_of_true (by decide) rfl
  | false =>
    rw [ConfigDraft.get_add (fun h => absurd h (by rw [hin]; decide)), hkept]
    exact iff_of_false (fun h => nomatch h) (by decide)

/-- A comment behind a line leaves the limits as they are, wherever the line stands, exactly if it
is harmless there. So it is behind every line that does not begin with a bracket: an entry, a
comment, a blank line. -/
theorem comment_changes_nothing_iff (hline : '\n' ∉ line) (hcomment : '\n' ∉ comment) :
    (∀ front back, Text.Encloses front back →
      ofConfig (front ++ commented line comment ++ back) = ofConfig (front ++ line ++ back)) ↔
    Harmless line comment := by
  have hcommented : '\n' ∉ commented line comment := by
    rw [commented_eq, List.mem_append, List.mem_append, not_or, not_or]
    exact ⟨⟨hline, by decide⟩, hcomment⟩
  constructor
  · intro h hfirst
    have hfirst' := head?_trim_commented_of_head hfirst comment
    have hsame : ∀ front, front = [] ∨ front.getLast? = some '\n' →
        (draft (Text.lines front)).get .maxSteps = none →
        ((Opens sectionName line ∨ ¬ IsHeader line ∧ (draft (Text.lines front)).inLimits = true) ↔
          ¬ IsHeader (commented line comment) ∧
            (draft (Text.lines front)).inLimits = true) := fun front hfront hnone => by
      rw [← maxSteps_probe hfront hnone hline hfirst,
        ← h front ('\n' :: probe) ⟨hfront, Or.inr (Or.inl ⟨probe, rfl⟩)⟩,
        maxSteps_probe hfront hnone hcommented hfirst',
        or_iff_right (not_opens_commented line comment)]
    -- Outside of the section it is seen whether the line opens it, and inside, with that excluded,
    -- whether it closes it.
    have houtside := hsame [] (Or.inl rfl) rfl
    have hinside := hsame "[limits]\n".toList (Or.inr (by decide)) (by decide)
    have hopens : ¬ Opens sectionName line := fun hopens =>
      absurd (houtside.mp (Or.inl hopens)).2 (by decide)
    have hin : (draft (Text.lines "[limits]\n".toList)).inLimits = true := by decide
    rw [or_iff_right hopens, and_iff_left hin, and_iff_left hin, Decidable.not_iff_not,
      isHeader_commented_iff, and_iff_right hfirst] at hinside
    exact ⟨hopens, hinside⟩
  · intro h front back hencloses
    obtain ⟨rest, hrest⟩ := exists_draft_enclosed hencloses
    rw [ofConfig_eq, ofConfig_eq, hrest _ hcommented, hrest _ hline, add_commented_of_harmless h]

/-- Behind a key, a comment may hold whatever it likes. Behind the header of another section it must
end in a bracket. -/
theorem comment_changes_nothing_behind_steps :
    ('\n' ∉ "max_steps = 5".toList ∧ '\n' ∉ "= \"7\" # [limits]".toList ∧
      ∀ front back, Text.Encloses front back →
        ofConfig (front ++ commented "max_steps = 5".toList "= \"7\" # [limits]".toList ++ back) =
          ofConfig (front ++ "max_steps = 5".toList ++ back)) ∧
    ('\n' ∉ "[colors]".toList ∧ '\n' ∉ "see [1]".toList ∧
      ∀ front back, Text.Encloses front back →
        ofConfig (front ++ commented "[colors]".toList "see [1]".toList ++ back) =
          ofConfig (front ++ "[colors]".toList ++ back)) :=
  ⟨⟨by decide, by decide,
    (comment_changes_nothing_iff (by decide) (by decide)).mpr fun h => absurd h (by decide)⟩,
    ⟨by decide, by decide,
      (comment_changes_nothing_iff (by decide) (by decide)).mpr fun _ => ⟨by decide, by decide⟩⟩⟩

/-- A header of the section that is read, with a comment, does not open the section, and a header of
another one does not close it. -/
theorem comment_not_harmless :
    ¬ (∀ front line comment back, Text.Encloses front back → '\n' ∉ line → '\n' ∉ comment →
      ofConfig (front ++ commented line comment ++ back) = ofConfig (front ++ line ++ back)) ∧
    ofConfig "[limits] # x\nmax_steps = 5\n".toList = ⟨none, none⟩ ∧
    ofConfig "[limits]\n[colors] # x\nmax_steps = 5\n".toList = ⟨some 5, none⟩ := by
  refine ⟨fun h => ?_, by decide, by decide⟩
  have hsame := h [] "[limits]".toList "x".toList "\nmax_steps = 5\n".toList
    ⟨Or.inl rfl, Or.inr (Or.inl ⟨_, rfl⟩)⟩ (by decide) (by decide)
  exact absurd hsame (by decide)

end TapeInterpreter.Limits
