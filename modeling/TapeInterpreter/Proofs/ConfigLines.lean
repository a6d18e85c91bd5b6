import TapeInterpreter.Limits.Config
import TapeInterpreter.Text.Strip

/-!
# What a line says about the limits

A line opens a section, or it sets a key, or it says nothing. What it does to the limits read so far
follows from this alone: a header decides whether the lines behind it count, and an entry that
counts replaces the value of its own key.
-/
namespace TapeInterpreter.Limits
set_option autoImplicit false

/-- The section that is read. -/
def sectionName : List Char := "limits".toList

/-- The limits there are. -/
inductive Limit where
  | maxSteps
  | timeoutMs
  deriving DecidableEq, Repr

/-- The key that a limit has in a configuration text. -/
def Limit.key : Limit → List Char
  | .maxSteps => "max_steps".toList
  | .timeoutMs => "timeout_ms".toList

def get (limits : Limits) : Limit → Option Nat
  | .maxSteps => limits.maxSteps
  | .timeoutMs => limits.timeoutMs

def ConfigDraft.get (d : ConfigDraft) : Limit → Option (List Char)
  | .maxSteps => d.maxSteps
  | .timeoutMs => d.timeoutMs

/-- The line is the header of the section `name`. -/
def Opens (name line : List Char) : Prop :=
  ∃ inside, Text.trim line = '[' :: (inside ++ [']']) ∧ Text.trim inside = name

def IsHeader (line : List Char) : Prop := ∃ name, Opens name line

/-- The line sets `key` to `value`: it is no comment and no header, and what is in front of its
first equals sign is the key. The value ends in front of the next `#`. -/
structure Sets (key value line : List Char) : Prop where
  notComment : (Text.trim line).head? ≠ some '#'
  notHeader : ¬ IsHeader line
  parts : ∃ front back, Text.trim line = front ++ '=' :: back ∧ '=' ∉ front ∧
    Text.trim front = key ∧
    Text.strip (· = '"') (Text.trim (back.takeWhile (· ≠ '#'))) = value

variable {line front back key value name : List Char} {d e : ConfigDraft} {limit : Limit}

theorem isHeader_iff :
    IsHeader line ↔ (Text.trim line).head? = some '[' ∧ (Text.trim line).getLast? = some ']' := by
  rw [brackets_iff]
  constructor
  · rintro ⟨name, inside, hinside, -⟩
    exact ⟨inside, hinside⟩
  · rintro ⟨inside, hinside⟩
    exact ⟨_, inside, hinside, rfl⟩

theorem ofLine_eq_header_iff : ConfigLine.ofLine line = .header name ↔ Opens name line := by
  rw [ConfigLine.ofLine, ConfigLine.ofTrimmed_eq, Opens]
  constructor
  · intro h
    split at h
    · cases h
    · split at h
      · rename_i hends
        obtain ⟨inside, hinside⟩ := brackets_iff.mp hends
        rw [hinside, List.tail_cons, List.dropLast_concat] at h
        exact ⟨inside, hinside, ConfigLine.header.inj h⟩
      · split at h <;> cases h
  · rintro ⟨inside, hinside, rfl⟩
    rw [if_neg, if_pos (brackets_iff.mpr ⟨inside, hinside⟩), hinside, List.tail_cons,
      List.dropLast_concat]
    rw [hinside]
    simp

instance : Decidable (IsHeader line) := decidable_of_iff _ isHeader_iff.symm

instance : Decidable (Opens name line) := decidable_of_iff _ ofLine_eq_header_iff

theorem ofLine_of_comment (h : (Text.trim line).head? = some '#') :
    ConfigLine.ofLine line = .other := by
  rw [ConfigLine.ofLine, ConfigLine.ofTrimmed_eq, if_pos (Or.inr h)]

/-- Only what stands in front of a first equals sign can be a key. -/
theorem ofLine_of_not_mem (hheader : ¬ IsHeader line) (h : '=' ∉ Text.trim line) :
    ConfigLine.ofLine line = .other := by
  rw [ConfigLine.ofLine, ConfigLine.ofTrimmed_eq]
  split
  · rfl
  · rw [if_neg (mt isHeader_iff.mpr hheader), Text.dropWhile_ne_of_not_mem h]

theorem ofLine_of_assignment (hcomment : (Text.trim line).head? ≠ some '#')
    (hheader : ¬ IsHeader line) (hline : Text.trim line = front ++ '=' :: back)
    (hfront : '=' ∉ front) :
    ConfigLine.ofLine line = .entry (Text.trim front) (ConfigLine.value back) := by
  have hne : Text.trim line ≠ [] := by
    rw [hline]
    simp
  rw [ConfigLine.ofLine, ConfigLine.ofTrimmed_eq, if_neg (not_or.mpr ⟨hne, hcomment⟩),
    if_neg (mt isHeader_iff.mpr hheader), hline, Text.dropWhile_ne_append hfront,
    Text.takeWhile_ne_append hfront]

theorem ofLine_eq_entry_iff : ConfigLine.ofLine line = .entry key value ↔ Sets key value line := by
  constructor
  · intro h
    have hheader : ¬ IsHeader line := fun ⟨name, hname⟩ => by
      rw [ofLine_eq_header_iff.mpr hname] at h
      cases h
    have hcomment : (Text.trim line).head? ≠ some '#' := fun hc => by
      rw [ofLine_of_comment hc] at h
      cases h
    by_cases hmem : '=' ∈ Text.trim line
    · obtain ⟨front, back, hline, hfront⟩ := List.eq_append_cons_of_mem hmem
      rw [ofLine_of_assignment hcomment hheader hline hfront] at h
      cases h
      exact ⟨hcomment, hheader, front, back, hline, hfront, rfl, rfl⟩
    · rw [ofLine_of_not_mem hheader hmem] at h
      cases h
  · rintro ⟨hcomment, hheader, front, back, hline, hfront, rfl, rfl⟩
    exact ofLine_of_assignment hcomment hheader hline hfront

/-- Neither blanks nor a comment behind a value are a part of it. -/
theorem value_append {blanks rest : List Char} (hblanks : ∀ c ∈ blanks, Text.isBlank c = true)
    (hrest : ∀ c, rest.head? = some c → c = '#') (back : List Char) :
    ConfigLine.value (back ++ blanks ++ rest) = ConfigLine.value back := by
  have htrim : Text.trim ((back ++ blanks ++ rest).takeWhile (· ≠ '#')) =
      Text.trim (back.takeWhile (· ≠ '#')) := by
    by_cases hmem : '#' ∈ back
    · obtain ⟨u, v, rfl, hu⟩ := List.eq_append_cons_of_mem hmem
      rw [List.append_assoc, List.append_assoc, List.cons_append, Text.takeWhile_ne_append hu,
        Text.takeWhile_ne_append hu]
    · have hall : '#' ∉ back ++ blanks := by
        rw [List.mem_append, not_or]
        exact ⟨hmem, fun h => absurd (hblanks '#' h) (by decide)⟩
      have hcut : (back ++ blanks ++ rest).takeWhile (· ≠ '#') = back ++ blanks := by
        cases rest with
        | nil => rw [List.append_nil, Text.takeWhile_ne_of_not_mem hall]
        | cons c rest =>
          obtain rfl := hrest c rfl
          exact Text.takeWhile_ne_append hall
      rw [hcut, Text.takeWhile_ne_of_not_mem hmem]
      exact Text.strip_append_right hblanks
  rw [ConfigLine.value, htrim, ConfigLine.value]

/-- A line begins as what is in front of an equals sign does. -/
theorem head?_trim_assign_iff {c : Char} (hc : c ≠ '=') (front back : List Char) :
    (Text.trim (front ++ '=' :: back)).head? = some c ↔ (Text.trim front).head? = some c := by
  have hequals : (Text.trim ('=' :: back)).head? = some '=' := by
    rw [Text.trim, Text.head?_strip]
    rfl
  rw [Text.trim, Text.head?_strip_append, ← Text.trim, ← Text.trim, hequals]
  cases (Text.trim front).head? with
  | none => exact iff_of_false (fun h => hc (Option.some.inj h).symm) (fun h => nomatch h)
  | some d => rfl

/-- A line with an equals sign, neither end of it trimmed. -/
theorem ofLine_assign (hfront : '=' ∉ front) (hcomment : (Text.trim front).head? ≠ some '#')
    (hopen : (Text.trim front).head? ≠ some '[') (back : List Char) :
    ConfigLine.ofLine (front ++ '=' :: back) =
      .entry (Text.trim front) (ConfigLine.value back) := by
  let indent := front.takeWhile Text.isBlank
  let key := front.dropWhile Text.isBlank
  have hsplit : indent ++ key = front := List.takeWhile_append_dropWhile
  have hindent : ∀ c ∈ indent, Text.isBlank c = true := List.all_eq_true.mp List.all_takeWhile
  have hfirst : ∀ d, (key ++ ['=']).head? = some d → Text.isBlank d = false := by
    intro d hd
    rw [List.head?_append, Option.or_eq_some_iff] at hd
    rcases hd with hd | ⟨-, hd⟩
    · exact Text.head?_dropWhile hd
    · cases hd
      rfl
  -- What is trimmed behind the equals sign would be trimmed off the value as well.
  obtain ⟨back', r, rfl, hr, hstrip⟩ :=
    Text.exists_strip_append_cons (b := back) (show Text.isBlank '=' = false from rfl) hfirst
  have hline : Text.trim (front ++ '=' :: (back' ++ r)) = key ++ '=' :: back' := by
    rw [← hsplit, List.append_assoc, Text.trim, Text.strip_append_left hindent, hstrip]
  have hkey : Text.trim front = Text.trim key := by
    rw [← hsplit, Text.trim, Text.strip_append_left hindent, Text.trim]
  have hnot : '=' ∉ key := fun h => hfront (hsplit ▸ List.mem_append_right indent h)
  have hheader : ¬ IsHeader (front ++ '=' :: (back' ++ r)) := fun h =>
    hopen ((head?_trim_assign_iff (by decide) front _).mp (isHeader_iff.mp h).1)
  have hnone : ∀ c, ([] : List Char).head? = some c → c = '#' := fun c hc => nomatch hc
  have hvalue := value_append hr hnone back'
  rw [List.append_nil] at hvalue
  rw [ofLine_of_assignment (mt (head?_trim_assign_iff (by decide) front _).mp hcomment) hheader
    hline hnot, hkey, hvalue]

/-- A header decides whether the lines behind it count. No other line does. -/
theorem ConfigDraft.inLimits_add_header (d : ConfigDraft) (name : List Char) :
    (d.add (.header name)).inLimits = decide (name = sectionName) := rfl

theorem ConfigDraft.inLimits_add {kind : ConfigLine} (h : ∀ name, kind ≠ .header name) :
    (d.add kind).inLimits = d.inLimits := by
  cases kind with
  | other => rfl
  | header name => exact absurd rfl (h name)
  | entry key value =>
    rw [add]
    split
    · rfl
    · split
      · rfl
      · split
        · rfl
        · rfl

theorem Limit.key_ne : Limit.timeoutMs.key ≠ Limit.maxSteps.key := by decide

theorem Limit.eq_of_key_eq {limit other : Limit} (h : limit.key = other.key) : limit = other := by
  cases limit <;> cases other
  · rfl
  · exact absurd h.symm key_ne
  · exact absurd h key_ne
  · rfl

theorem ConfigDraft.add_entry (hd : d.inLimits = true) (key value : List Char) :
    d.add (.entry key value) =
      if key = Limit.maxSteps.key then { d with maxSteps := some value }
      else if key = Limit.timeoutMs.key then { d with timeoutMs := some value }
      else d := by
  rw [add, hd]
  rfl

theorem ConfigDraft.add_of_closes (hheader : IsHeader line) (hopens : ¬ Opens sectionName line)
    (d : ConfigDraft) : d.add (ConfigLine.ofLine line) = { d with inLimits := false } := by
  obtain ⟨name, hname⟩ := hheader
  have hne : name ≠ sectionName := fun heq => hopens (heq ▸ hname)
  rw [ofLine_eq_header_iff.mpr hname, add]
  congr 1
  exact decide_eq_false hne

/-- Lines count behind the header of the section, and behind another line that is no header if they
have counted in front of it. -/
theorem ConfigDraft.inLimits_add_iff (d : ConfigDraft) (line : List Char) :
    (d.add (ConfigLine.ofLine line)).inLimits = true ↔
      Opens sectionName line ∨ ¬ IsHeader line ∧ d.inLimits = true := by
  by_cases hheader : IsHeader line
  · obtain ⟨name, hname⟩ := hheader
    have hline := ofLine_eq_header_iff.mpr hname
    rw [hline, inLimits_add_header, decide_eq_true_eq, ← ofLine_eq_header_iff, hline,
      ConfigLine.header.injEq]
    exact ⟨Or.inl, fun h => h.resolve_right fun hn => hn.1 ⟨name, hname⟩⟩
  · rw [inLimits_add fun name hline => hheader ⟨name, ofLine_eq_header_iff.mp hline⟩]
    exact ⟨fun h => Or.inr ⟨hheader, h⟩,
      fun h => (h.resolve_left fun hopens => hheader ⟨_, hopens⟩).2⟩

/-- An entry that counts replaces the value of its key. -/
theorem ConfigDraft.get_add_entry (hd : d.inLimits = true) (limit : Limit) (value : List Char) :
    (d.add (.entry limit.key value)).get limit = some value := by
  rw [add_entry hd]
  cases limit with
  | maxSteps => rw [if_pos rfl, get]
  | timeoutMs => rw [if_neg Limit.key_ne, if_pos rfl, get]

/-- Nothing else touches the value of a key. -/
theorem ConfigDraft.get_add {kind : ConfigLine}
    (h : d.inLimits = true → ∀ value, kind ≠ .entry limit.key value) :
    (d.add kind).get limit = d.get limit := by
  cases kind with
  | other => rfl
  | header name => cases limit <;> rfl
  | entry key value =>
    cases hd : d.inLimits with
    | false => rw [add, hd, Bool.not_false, if_pos rfl]
    | true =>
      have hkey : key ≠ limit.key := fun hkey => h hd value (by rw [hkey])
      rw [add_entry hd]
      cases limit with
      | maxSteps =>
        rw [if_neg hkey]
        split <;> rfl
      | timeoutMs =>
        rw [if_neg hkey]
        split <;> rfl

theorem ConfigDraft.ext_get (hlimits : d.inLimits = e.inLimits)
    (h : ∀ limit, d.get limit = e.get limit) : d = e := by
  cases d
  cases e
  cases hlimits
  cases h .maxSteps
  cases h .timeoutMs
  rfl

/-- A line that is no header, and no entry that counts for a limit, changes nothing. -/
theorem ConfigDraft.add_eq_self {kind : ConfigLine} (hheader : ∀ name, kind ≠ .header name)
    (hentry : d.inLimits = true → ∀ limit value, kind ≠ .entry (Limit.key limit) value) :
    d.add kind = d :=
  ext_get (inLimits_add hheader) fun limit => get_add fun hd => hentry hd limit

theorem get_limits (d : ConfigDraft) (limit : Limit) :
    d.limits.get limit = (d.get limit).bind readValue? := by
  cases limit <;> rfl

/-- What has been read behind these lines. -/
def draft (lines : List (List Char)) : ConfigDraft :=
  (lines.map ConfigLine.ofLine).foldl ConfigDraft.add .empty

theorem ofConfig_eq (text : List Char) : ofConfig text = (draft (Text.lines text)).limits := rfl

theorem draft_append (lines more : List (List Char)) :
    draft (lines ++ more) = (more.map ConfigLine.ofLine).foldl ConfigDraft.add (draft lines) := by
  rw [draft, List.map_append, List.foldl_append, draft]

theorem draft_concat (lines : List (List Char)) (line : List Char) :
    draft (lines ++ [line]) = (draft lines).add (ConfigLine.ofLine line) :=
  draft_append lines [line]

theorem ofLine_append_blanks {blanks : List Char} (h : ∀ c ∈ blanks, Text.isBlank c = true)
    (line : List Char) : ConfigLine.ofLine (line ++ blanks) = ConfigLine.ofLine line := by
  rw [ConfigLine.ofLine, Text.trim, Text.strip_append_right h, ConfigLine.ofLine, Text.trim]

/-- A line has its effect behind the lines in front of it. -/
theorem draft_line_feed (hfront : front = [] ∨ front.getLast? = some '\n') (hline : '\n' ∉ line)
    (rest : List Char) : draft (Text.lines (front ++ line ++ '\n' :: rest)) =
      ((Text.lines rest).map ConfigLine.ofLine).foldl ConfigDraft.add
        ((draft (Text.lines front)).add (ConfigLine.ofLine line)) := by
  rw [List.append_assoc, Text.lines_append hfront, Text.lines_line hline, draft_append,
    List.map_cons, List.foldl_cons]

theorem isBlank_of_mem_return : ∀ c ∈ ['\r'], Text.isBlank c = true :=
  List.all_eq_true.mp (by decide)

/-- A line between two texts acts once, and behind the lines in front of it. -/
theorem exists_draft_enclosed (h : Text.Encloses front back) :
    ∃ rest : List (List Char), ∀ line, '\n' ∉ line → draft (Text.lines (front ++ line ++ back)) =
      (rest.map ConfigLine.ofLine).foldl ConfigDraft.add
        ((draft (Text.lines front)).add (ConfigLine.ofLine line)) := by
  obtain ⟨hbegins, hends⟩ := h
  rcases hends with rfl | ⟨rest, rfl⟩ | ⟨rest, rfl⟩
  · refine ⟨[], fun line hline => ?_⟩
    rw [List.append_nil, Text.lines_append hbegins]
    by_cases hnil : line = []
    · subst hnil
      rw [show Text.lines [] = [] from rfl, List.append_nil]
      rfl
    · rw [Text.lines_last hline hnil, draft_concat]
      rfl
  · exact ⟨Text.lines rest, fun line hline => draft_line_feed hbegins hline rest⟩
  · refine ⟨Text.lines rest, fun line hline => ?_⟩
    have hwhole : '\n' ∉ line ++ ['\r'] := by
      rw [List.mem_append, not_or]
      exact ⟨hline, by decide⟩
    have hfeed := draft_line_feed hbegins hwhole rest
    rw [ofLine_append_blanks isBlank_of_mem_return] at hfeed
    rw [← hfeed, ← List.singleton_append, ← List.append_assoc, ← List.append_assoc]

theorem readValue?_eq_some_iff {n : Nat} :
    readValue? value = some n ↔ Text.Denotes (value.filter (· ≠ '_')) n :=
  Text.readNumeral?_eq_some_iff

end TapeInterpreter.Limits
