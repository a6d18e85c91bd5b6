import TapeInterpreter.Proofs.ConfigLines

/-!
# Written limits are read back

The texts that say the same about the limits differ in blanks, quotes, underscores, comments, line
ends, the order of the keys, lines of no interest and the sections around. A line of such a text is
described as it is written, and what it does when it is read is proved once for each kind of line.
-/
namespace TapeInterpreter.Limits
set_option autoImplicit false

/-- Spaces, tabs and whatever else is trimmed. -/
def AllBlank (text : List Char) : Prop := ∀ c ∈ text, Text.isBlank c = true

instance (text : List Char) : Decidable (AllBlank text) :=
  decidable_of_iff _ List.all_eq_true

/-- `text` is how `n` may be written as a value: in quotes or not, and with underscores. -/
def Written (n : Nat) (text : List Char) : Prop :=
  ∃ quote body, text = quote ++ body ++ quote ∧ (quote = [] ∨ quote = ['"']) ∧
    Text.Denotes (body.filter (· ≠ '_')) n

/-- The line sets a limit to `n`. There may be a comment behind the number. -/
inductive Assigns (limit : Limit) (n : Nat) : List Char → Prop
  | intro {indent behindKey inFront number behind remark : List Char} :
    AllBlank indent → AllBlank behindKey → AllBlank inFront → Written n number → AllBlank behind →
      (remark = [] ∨ ∃ comment, remark = '#' :: comment) →
      Assigns limit n (indent ++ limit.key ++ behindKey ++
        '=' :: (inFront ++ number ++ behind ++ remark))

/-- The header of the section that is read. -/
inductive Heading : List Char → Prop
  | intro {indent left right behind : List Char} :
    AllBlank indent → AllBlank left → AllBlank right → AllBlank behind →
      Heading (indent ++ '[' :: (left ++ sectionName ++ right ++ [']']) ++ behind)

/-- A line that may stand anywhere. -/
inductive Idle (line : List Char) : Prop
  | blank : AllBlank line → Idle line
  | comment : (Text.trim line).head? = some '#' → Idle line
  | foreign : (Text.trim line).head? ≠ some '[' →
    (∀ front back, Text.trim line = front ++ '=' :: back → '=' ∉ front →
      ∀ limit, Text.trim front ≠ Limit.key limit) → Idle line

/-- What may stand behind a section: nothing, or another section, and then lines of every kind but a
header of the section that is read. -/
inductive Closed : List (List Char) → Prop
  | none : Closed []
  | header {line : List Char} {more : List (List Char)} :
    IsHeader line → (∀ other ∈ line :: more, ¬ Opens sectionName other) → Closed (line :: more)

def put (limits : Limits) (limit : Limit) (n : Nat) : Limits :=
  match limit with
  | .maxSteps => { limits with maxSteps := some n }
  | .timeoutMs => { limits with timeoutMs := some n }

theorem get_put (limits : Limits) (limit other : Limit) (n : Nat) :
    (limits.put limit n).get other = if other = limit then some n else limits.get other := by
  cases limit <;> cases other <;> rfl

/-- The lines of a section that sets each of these limits once, and no other. -/
inductive SectionBody : Limits → List (List Char) → Prop
  | nil : SectionBody ⟨none, none⟩ []
  | idle {limits : Limits} {line : List Char} {more : List (List Char)} :
    Idle line → SectionBody limits more → SectionBody limits (line :: more)
  | entry {limits : Limits} {limit : Limit} {n : Nat} {line : List Char}
    {more : List (List Char)} : limits.get limit = none → Assigns limit n line →
      SectionBody limits more → SectionBody (limits.put limit n) (line :: more)

/-- `text` says these limits, in a section of their own. In front of its header there may be lines
of every kind but such a header. -/
def Renders (limits : Limits) (text : List Char) : Prop :=
  ∃ before header body after, Text.Ended (before ++ header :: (body ++ after)) text ∧
    (∀ line ∈ before, ¬ Opens sectionName line) ∧ Heading header ∧ SectionBody limits body ∧
    Closed after

variable {line number text : List Char} {limit : Limit} {limits : Limits} {n : Nat}
  {d : ConfigDraft} {lines : List (List Char)}

/-- Behind the quotes there are underscores, digits and a sign only. -/
theorem mem_of_denotes {body : List Char} (h : Text.Denotes (body.filter (· ≠ '_')) n) {c : Char}
    (hc : c ∈ body) : c = '_' ∨ c = '+' ∨ c.isDigit = true := by
  obtain ⟨sign, digits, hbody, hsign, -, hdigits, -⟩ := h
  by_cases hunder : c = '_'
  · exact Or.inl hunder
  · have hmem : c ∈ sign ++ digits := by
      rw [← hbody, List.mem_filter]
      exact ⟨hc, decide_eq_true hunder⟩
    rcases List.mem_append.mp hmem with hc | hc
    · rcases hsign with rfl | rfl
      · cases hc
      · exact Or.inr (Or.inl (List.mem_singleton.mp hc))
    · exact Or.inr (Or.inr (hdigits c hc))

theorem Written.mem (h : Written n number) {c : Char} (hc : c ∈ number) :
    c = '"' ∨ c = '_' ∨ c = '+' ∨ c.isDigit = true := by
  obtain ⟨quote, body, rfl, hquote, hbody⟩ := h
  have hends : c ∈ quote → c = '"' := fun hc => by
    rcases hquote with rfl | rfl
    · cases hc
    · exact List.mem_singleton.mp hc
  rw [List.mem_append, List.mem_append] at hc
  rcases hc with (hc | hc) | hc
  · exact Or.inl (hends hc)
  · exact Or.inr (mem_of_denotes hbody hc)
  · exact Or.inl (hends hc)

theorem Written.isBlank_eq_false (h : Written n number) {c : Char} (hc : c ∈ number) :
    Text.isBlank c = false := by
  rcases h.mem hc with rfl | rfl | rfl | hdigit
  · rfl
  · rfl
  · rfl
  · exact Text.isBlank_of_isDigit hdigit

theorem Written.sharp_not_mem (h : Written n number) : '#' ∉ number := fun hc => by
  rcases h.mem hc with h | h | h | h <;> cases h

theorem Written.readValue?_eq (h : Written n number) :
    readValue? (Text.strip (· = '"') number) = some n := by
  obtain ⟨quote, body, rfl, hquote, hbody⟩ := h
  have hquotes : ∀ c ∈ quote, decide (c = '"') = true := by
    rcases hquote with rfl | rfl <;> exact List.all_eq_true.mp (by decide)
  have hbare : Text.Bare (fun c => decide (c = '"')) body := Text.bare_of_all fun c hc => by
    rcases mem_of_denotes hbody hc with rfl | rfl | hdigit
    · rfl
    · rfl
    · exact decide_eq_false (fun heq => by subst heq; cases hdigit)
  rw [Text.strip_between hquotes hbare hquotes, readValue?_eq_some_iff]
  exact hbody

/-- Of what is behind the equals sign, the number is left, its quotes still around it. -/
theorem Written.value_eq {inFront behind remark : List Char} (h : Written n number)
    (hfront : AllBlank inFront) (hbehind : AllBlank behind)
    (hremark : ∀ c, remark.head? = some c → c = '#') :
    ConfigLine.value (inFront ++ number ++ behind ++ remark) = Text.strip (· = '"') number := by
  have hsharp : '#' ∉ inFront ++ number := by
    rw [List.mem_append, not_or]
    exact ⟨fun hc => absurd (hfront _ hc) (by decide), h.sharp_not_mem⟩
  have hbare : Text.Bare Text.isBlank number :=
    Text.bare_of_all fun c hc => h.isBlank_eq_false hc
  rw [value_append hbehind hremark, ConfigLine.value, Text.takeWhile_ne_of_not_mem hsharp,
    Text.trim, Text.strip_append_left hfront, Text.strip_of_bare hbare]

/-- A key can be told from a comment, from a header and from its value, and has no blanks at its
ends. -/
theorem Limit.key_plain (limit : Limit) :
    limit.key.head? ≠ some '#' ∧ limit.key.head? ≠ some '[' ∧ '=' ∉ limit.key ∧
      Text.Bare Text.isBlank limit.key := by
  cases limit <;> exact ⟨by decide, by decide, by decide, Text.bare_of_any (by decide)⟩

/-- An entry is read as it is written. -/
theorem Assigns.exists_ofLine (h : Assigns limit n line) :
    ∃ value, ConfigLine.ofLine line = .entry limit.key value ∧ readValue? value = some n := by
  obtain @⟨indent, behindKey, inFront, number, behind, remark, hindent, hkey, hfront, hnumber,
    hbehind, hremark⟩ := h
  obtain ⟨hcomment, hheader, hnot, hbare⟩ := limit.key_plain
  have hname : Text.trim (indent ++ limit.key ++ behindKey) = limit.key :=
    Text.strip_between hindent hbare hkey
  have hequals : '=' ∉ indent ++ limit.key ++ behindKey := by
    rw [List.mem_append, List.mem_append, not_or, not_or]
    exact ⟨⟨fun hc => absurd (hindent _ hc) (by decide), hnot⟩,
      fun hc => absurd (hkey _ hc) (by decide)⟩
  have hfirst : ∀ c, remark.head? = some c → c = '#' := fun c hc => by
    rcases hremark with rfl | ⟨comment, rfl⟩ <;> cases hc
    rfl
  refine ⟨Text.strip (· = '"') number, ?_, hnumber.readValue?_eq⟩
  rw [ofLine_assign hequals (by rwa [hname]) (by rwa [hname]), hname,
    hnumber.value_eq hfront hbehind hfirst]

theorem Heading.opens (h : Heading line) : Opens sectionName line := by
  obtain @⟨indent, left, right, behind, hindent, hleft, hright, hbehind⟩ := h
  have hbare : Text.Bare Text.isBlank ('[' :: (left ++ sectionName ++ right ++ [']'])) := by
    refine ⟨fun c hc => ?_, fun c hc => ?_⟩
    · cases hc
      rfl
    · rw [← List.cons_append, List.getLast?_concat] at hc
      cases hc
      rfl
  have hname : Text.Bare Text.isBlank sectionName := Text.bare_of_any (by decide)
  exact ⟨left ++ sectionName ++ right, Text.strip_between hindent hbare hbehind,
    Text.strip_between hleft hname hright⟩

/-- The key is what is in front of the first equals sign. -/
theorem idle_of_key (hfirst : (Text.trim line).head? ≠ some '[')
    (h : ∀ limit, Text.trim ((Text.trim line).takeWhile (· ≠ '=')) ≠ Limit.key limit) :
    Idle line := by
  refine .foreign hfirst fun front back hline hfront limit => ?_
  have hkey := h limit
  rwa [hline, Text.takeWhile_ne_append hfront] at hkey

theorem Idle.add_eq_self (h : Idle line) (d : ConfigDraft) :
    d.add (ConfigLine.ofLine line) = d := by
  cases h with
  | blank hblank =>
    have htrim : Text.trim line = [] := by
      rw [← List.append_nil line, Text.trim, Text.strip_append_left hblank]
      rfl
    rw [ConfigLine.ofLine, htrim]
    rfl
  | comment hfirst =>
    rw [ofLine_of_comment hfirst]
    rfl
  | foreign hfirst hkey =>
    refine ConfigDraft.add_eq_self (fun name hline => ?_) fun _ limit value hline => ?_
    · exact hfirst (isHeader_iff.mp ⟨name, ofLine_eq_header_iff.mp hline⟩).1
    · obtain ⟨front, back, htrim, hfront, hname, -⟩ := (ofLine_eq_entry_iff.mp hline).parts
      exact hkey front back htrim hfront limit hname

/-- In front of its header and behind the next one, nothing is read. -/
theorem add_outside (hd : d.inLimits = false) (h : ¬ Opens sectionName line) :
    d.add (ConfigLine.ofLine line) = d := by
  refine ConfigDraft.ext_get ?_ fun limit => ConfigDraft.get_add fun hin => ?_
  · rw [hd, ← Bool.not_eq_true, ConfigDraft.inLimits_add_iff, hd]
    exact fun hopens => hopens.elim h fun hin => nomatch hin.2
  · rw [hd] at hin
    cases hin

theorem foldl_add_outside (hd : d.inLimits = false) (h : ∀ line ∈ lines, ¬ Opens sectionName line) :
    (lines.map ConfigLine.ofLine).foldl ConfigDraft.add d = d := by
  induction lines with
  | nil => rfl
  | cons line more ih =>
    rw [List.map_cons, List.foldl_cons, add_outside hd (h line (List.mem_cons_self ..))]
    exact ih fun other hother => h other (List.mem_cons_of_mem line hother)

/-- Another section changes no limit. -/
theorem Closed.limits_eq (h : Closed lines) (d : ConfigDraft) :
    ((lines.map ConfigLine.ofLine).foldl ConfigDraft.add d).limits = d.limits := by
  cases h with
  | none => rfl
  | header hheader hopens =>
    rw [List.map_cons, List.foldl_cons,
      ConfigDraft.add_of_closes hheader (hopens _ (List.mem_cons_self ..)),
      foldl_add_outside rfl fun other hother => hopens other (List.mem_cons_of_mem _ hother)]
    rfl

/-- The step of the induction over a section: an entry replaces its own limit. -/
theorem get_add_assigns (h : Assigns limit n line) (hd : d.inLimits = true) (other : Limit) :
    (d.add (ConfigLine.ofLine line)).limits.get other =
      if other = limit then some n else d.limits.get other := by
  obtain ⟨value, hline, hvalue⟩ := h.exists_ofLine
  rw [hline, get_limits]
  split
  · rename_i heq
    rw [heq, ConfigDraft.get_add_entry hd]
    exact hvalue
  · rename_i hne
    rw [ConfigDraft.get_add fun _ other' hentry => ?_, get_limits]
    exact hne (Limit.eq_of_key_eq (ConfigLine.entry.inj hentry).1.symm)

/-- A section is read as it is written, on top of what was known. -/
theorem SectionBody.get_limits (h : SectionBody limits lines) (hd : d.inLimits = true)
    (limit : Limit) :
    ((lines.map ConfigLine.ofLine).foldl ConfigDraft.add d).limits.get limit =
      (limits.get limit).or (d.limits.get limit) := by
  induction h generalizing d with
  | nil => cases limit <;> rfl
  | idle hidle _ ih =>
    rw [List.map_cons, List.foldl_cons, hidle.add_eq_self]
    exact ih hd
  | @entry limits changed n line more hnone hassigns _ ih =>
    obtain ⟨value, hline, -⟩ := hassigns.exists_ofLine
    have hin : (d.add (ConfigLine.ofLine line)).inLimits = true := by
      rw [ConfigDraft.inLimits_add fun name hname => ?_]
      · exact hd
      · rw [hline] at hname
        cases hname
    rw [List.map_cons, List.foldl_cons, ih hin, get_add_assigns hassigns hd, get_put]
    split
    · rename_i heq
      rw [heq, hnone]
      rfl
    · rfl

theorem ext_get {a b : Limits} (h : ∀ limit, a.get limit = b.get limit) : a = b := by
  cases a
  cases b
  cases h .maxSteps
  cases h .timeoutMs
  rfl

theorem Renders.ofConfig_eq (h : Renders limits text) : ofConfig text = limits := by
  obtain ⟨before, header, body, after, hended, hbefore, hheader, hbody, hafter⟩ := h
  have hlines : (Text.lines text).map ConfigLine.ofLine =
      (before ++ header :: (body ++ after)).map ConfigLine.ofLine :=
    Text.map_lines_of_ended (ofLine_append_blanks isBlank_of_mem_return) hended
  have hempty : (before.map ConfigLine.ofLine).foldl ConfigDraft.add .empty = .empty :=
    foldl_add_outside rfl hbefore
  have hopen : (ConfigDraft.empty.add (ConfigLine.ofLine header)).inLimits = true :=
    (ConfigDraft.inLimits_add_iff _ _).mpr (Or.inl hheader.opens)
  rw [ofConfig, hlines, List.map_append, List.foldl_append, hempty, List.map_cons, List.foldl_cons,
    List.map_append, List.foldl_append, hafter.limits_eq]
  refine ext_get fun limit => ?_
  rw [hbody.get_limits hopen, ofLine_eq_header_iff.mpr hheader.opens]
  cases limit <;> exact Option.or_none

/-- The shortest line that sets a limit. -/
def entryLine (limit : Limit) (n : Nat) : List Char := limit.key ++ '=' :: Nat.toDigits 10 n

def entryLines (limits : Limits) : List (List Char) :=
  (limits.maxSteps.map (entryLine .maxSteps)).toList ++
    (limits.timeoutMs.map (entryLine .timeoutMs)).toList

/-- The shortest text that says these limits. -/
def rendering (limits : Limits) : List Char :=
  (('[' :: (sectionName ++ [']'])) :: entryLines limits).flatMap (· ++ ['\n'])

theorem assigns_entryLine (limit : Limit) (hn : n < UInt64.size) :
    Assigns limit n (entryLine limit n) := by
  have hdigits := Text.denotes_toDigits hn
  have hkept : (Nat.toDigits 10 n).filter (· ≠ '_') = Nat.toDigits 10 n := by
    refine List.filter_eq_self.mpr fun c hc => decide_eq_true fun heq => ?_
    have hdigit := Nat.isDigit_of_mem_toDigits (by decide) (by decide) hc
    rw [heq] at hdigit
    cases hdigit
  have hnil : AllBlank [] := fun c hc => nomatch hc
  have hwritten : Written n (Nat.toDigits 10 n) :=
    ⟨[], Nat.toDigits 10 n, by simp, Or.inl rfl, by rwa [hkept]⟩
  have hassigns : Assigns limit n _ := .intro hnil hnil hnil hwritten hnil (Or.inl rfl)
  simpa [entryLine] using hassigns

theorem line_feed_not_mem_entryLine (limit : Limit) (n : Nat) : '\n' ∉ entryLine limit n := by
  have hkey : '\n' ∉ limit.key := by cases limit <;> decide
  have hdigits : '\n' ∉ Nat.toDigits 10 n := fun hc =>
    absurd (Nat.isDigit_of_mem_toDigits (by decide) (by decide) hc) (by decide)
  rw [entryLine, List.mem_append, List.mem_cons, not_or, not_or]
  exact ⟨hkey, by decide, hdigits⟩

theorem sectionBody_entryLines (h : ∀ limit n, limits.get limit = some n → n < UInt64.size) :
    SectionBody limits (entryLines limits) := by
  obtain ⟨steps, time⟩ := limits
  have htime : SectionBody ⟨none, time⟩ (time.map (entryLine .timeoutMs)).toList := by
    cases time with
    | none => exact .nil
    | some n =>
      have hentry : SectionBody (put ⟨none, none⟩ .timeoutMs n) [entryLine .timeoutMs n] :=
        .entry rfl (assigns_entryLine .timeoutMs (h .timeoutMs n rfl)) .nil
      exact hentry
  cases steps with
  | none => exact htime
  | some n =>
    have hentry : SectionBody (put ⟨none, time⟩ .maxSteps n) (entryLine .maxSteps n :: _) :=
      .entry rfl (assigns_entryLine .maxSteps (h .maxSteps n rfl)) htime
    exact hentry

theorem renders_rendering (h : ∀ limit n, limits.get limit = some n → n < UInt64.size) :
    Renders limits (rendering limits) := by
  have hnil : AllBlank [] := fun c hc => nomatch hc
  have hheading : Heading ('[' :: (sectionName ++ [']'])) := by
    have hplain : Heading _ := .intro hnil hnil hnil hnil
    simpa using hplain
  refine ⟨[], _, _, [], ?_, List.forall_mem_nil _, hheading, sectionBody_entryLines h, .none⟩
  rw [List.append_nil, List.nil_append]
  refine Text.ended_feeds fun line hline => ?_
  rcases List.mem_cons.mp hline with rfl | hline
  · decide
  · rw [entryLines, List.mem_append, Option.mem_toList, Option.mem_toList,
      Option.map_eq_some_iff, Option.map_eq_some_iff] at hline
    rcases hline with ⟨n, -, rfl⟩ | ⟨n, -, rfl⟩
    · exact line_feed_not_mem_entryLine .maxSteps n
    · exact line_feed_not_mem_entryLine .timeoutMs n

/-- Whatever limits there are, they can be written, and however they are written, reading the text
comes to exactly these limits. -/
theorem written_limits_are_read_back (steps time : Option UInt64) :
    (∃ text, Renders ⟨steps.map UInt64.toNat, time.map UInt64.toNat⟩ text) ∧
    ∀ text, Renders ⟨steps.map UInt64.toNat, time.map UInt64.toNat⟩ text →
      ofConfig text = ⟨steps.map UInt64.toNat, time.map UInt64.toNat⟩ := by
  refine ⟨⟨_, renders_rendering fun limit n h => ?_⟩, fun text h => h.ofConfig_eq⟩
  cases limit with
  | maxSteps =>
    obtain ⟨w, -, rfl⟩ := Option.map_eq_some_iff.mp h
    exact w.toNat_lt
  | timeoutMs =>
    obtain ⟨w, -, rfl⟩ := Option.map_eq_some_iff.mp h
    exact w.toNat_lt

/-- A section among others, with lines of no interest and both kinds of line ends. -/
theorem limits_among_sections_are_read_back :
    ofConfig ("[colors]\nmax_steps = 7\r\n \t[ limits ] \ntimeout_ms = \"250\"# [a=\r\n\n" ++
      "color = red\n max_steps\t=+1_000_ # b\n[other]\ntimeout_ms = 3").toList =
        ⟨some 1000, some 250⟩ := by
  refine (written_limits_are_read_back (some 1000) (some 250)).2 _ ?_
  have hblank : AllBlank [' '] := by decide
  have hnil : AllBlank [] := by decide
  have hheading : Heading " \t[ limits ] ".toList :=
    .intro (show AllBlank [' ', '\t'] by decide) hblank hblank hblank
  have htime : Assigns .timeoutMs 250 "timeout_ms = \"250\"# [a=".toList :=
    .intro hnil hblank hblank
      ⟨['"'], ['2', '5', '0'], rfl, Or.inr rfl, Text.readNumeral?_eq_some_iff.mp (by decide)⟩
      hnil (Or.inr ⟨" [a=".toList, rfl⟩)
  have hsteps : Assigns .maxSteps 1000 " max_steps\t=+1_000_ # b".toList :=
    .intro hblank (show AllBlank ['\t'] by decide) hnil
      ⟨[], "+1_000_".toList, rfl, Or.inl rfl, Text.readNumeral?_eq_some_iff.mp (by decide)⟩
      hblank (Or.inr ⟨" b".toList, rfl⟩)
  have hforeign : Idle "color = red".toList :=
    idle_of_key (by decide) fun limit => by cases limit <;> decide
  have hbody : SectionBody (put (put ⟨none, none⟩ .maxSteps 1000) .timeoutMs 250)
      ["timeout_ms = \"250\"# [a=".toList, [], "color = red".toList,
        " max_steps\t=+1_000_ # b".toList] :=
    .entry rfl htime (.idle (.blank hnil) (.idle hforeign (.entry rfl hsteps .nil)))
  have hafter : Closed ["[other]".toList, "timeout_ms = 3".toList] :=
    .header (by decide) (by decide)
  have hended : Text.Ended (["[colors]".toList, "max_steps = 7".toList] ++
      " \t[ limits ] ".toList :: (["timeout_ms = \"250\"# [a=".toList, [],
        "color = red".toList, " max_steps\t=+1_000_ # b".toList] ++
        ["[other]".toList, "timeout_ms = 3".toList])) _ :=
    .feed (by decide) (.returnFeed (by decide) (.feed (by decide) (.returnFeed (by decide)
      (.feed (by decide) (.feed (by decide) (.feed (by decide) (.feed (by decide)
        (.last (by decide) (by decide)))))))))
  refine ⟨_, _, _, _, Eq.mp (congrArg (Text.Ended _) ?_) hended, by decide, hheading, hbody, hafter⟩
  decide +kernel

end TapeInterpreter.Limits
