import TapeInterpreter.Host.Basic
import TapeInterpreter.Proofs.ConfigLines

/-!
# Three places that set a limit

A limit is asked of a flag, then of an environment variable, then of the configuration file, and the
first of them that has a number decides it. What they say about the other limit does not matter. For
flags and variables this is plain. The file is one text for both limits, and there it rests on what
a line does to the limits read so far: an entry for another key is passed over.
-/
namespace TapeInterpreter.Limits
set_option autoImplicit false

/-- The environment variable that a limit has. -/
def Limit.variable : Limit → String
  | .maxSteps => maxStepsVariable
  | .timeoutMs => timeoutVariable

/-- The variable of the limit holds a numeral for `n`, with blanks around it or not. -/
def VariableSays (host : Host Id) (limit : Limit) (n : Nat) : Prop :=
  ∃ text, host.environment limit.variable = some text ∧ Text.Denotes (Text.trim text.toList) n

/-- The configuration file has a path on the host, and the bytes that are there are `content` in
UTF-8. -/
def FileHolds (host : Host Id) (content : String) : Prop :=
  ∃ path, configPath? (host.environment "XDG_CONFIG_HOME") (host.environment "HOME") = some path ∧
    host.load path = .ok content.toUTF8

/-- The configuration file holds `content`, or `content` is empty and there is no file that holds a
text. -/
def FileSays (host : Host Id) (content : String) : Prop :=
  FileHolds host content ∨ (∀ other, ¬ FileHolds host other) ∧ content = ""

/-- The same lines, but lines that set `key`, in any section, may have been put in, changed or taken
out. -/
inductive SameBut (key : List Char) : List (List Char) → List (List Char) → Prop
  | nil : SameBut key [] []
  | same (line : List Char) {lines others : List (List Char)} :
    SameBut key lines others → SameBut key (line :: lines) (line :: others)
  | left {line value : List Char} {lines others : List (List Char)} :
    Sets key value line → SameBut key lines others → SameBut key (line :: lines) others
  | right {line value : List Char} {lines others : List (List Char)} :
    Sets key value line → SameBut key lines others → SameBut key lines (line :: others)

/-- Texts whose lines are the same but for lines that set `key`, however each line is ended. -/
def TextsAgreeBut (key text other : List Char) : Prop :=
  ∃ lines others, Text.Ended lines text ∧ Text.Ended others other ∧ SameBut key lines others

/-- Drafts that stand alike for a limit: the next lines count in both or in neither, and the limit
has the same value so far. -/
structure ConfigDraft.AgreeOn (limit : Limit) (d e : ConfigDraft) : Prop where
  inLimits : d.inLimits = e.inLimits
  get : d.get limit = e.get limit

variable {limit : Limit} {d e : ConfigDraft} {key value line text other : List Char}
  {lines others : List (List Char)}

theorem ConfigDraft.AgreeOn.add (h : d.AgreeOn limit e) (kind : ConfigLine) :
    (d.add kind).AgreeOn limit (e.add kind) := by
  cases kind with
  | other => exact h
  | header name =>
    have hkept : ∀ x : ConfigDraft, (x.add (.header name)).get limit = x.get limit := fun _ =>
      get_add fun _ _ hkind => nomatch hkind
    exact ⟨rfl, by rw [hkept, hkept, h.get]⟩
  | entry key value =>
    have hsection : ∀ x : ConfigDraft, (x.add (.entry key value)).inLimits = x.inLimits := fun _ =>
      inLimits_add fun _ hkind => nomatch hkind
    refine ⟨by rw [hsection, hsection, h.inLimits], ?_⟩
    by_cases hcounts : d.inLimits = true ∧ key = limit.key
    · obtain ⟨hd, rfl⟩ := hcounts
      rw [get_add_entry hd, get_add_entry (h.inLimits ▸ hd)]
    · have hkept : ∀ x : ConfigDraft, x.inLimits = d.inLimits →
          (x.add (.entry key value)).get limit = x.get limit := fun x hx =>
        get_add fun hin _ hkind => hcounts ⟨hx ▸ hin, (ConfigLine.entry.inj hkind).1⟩
      rw [hkept d rfl, hkept e h.inLimits.symm, h.get]

/-- A line for another key is passed over. -/
theorem ConfigDraft.agreeOn_add (hkey : key ≠ limit.key) (h : Sets key value line)
    (d : ConfigDraft) : (d.add (ConfigLine.ofLine line)).AgreeOn limit d := by
  rw [ofLine_eq_entry_iff.mpr h]
  constructor
  · exact inLimits_add fun _ hkind => nomatch hkind
  · exact get_add fun _ _ hkind => hkey (ConfigLine.entry.inj hkind).1

theorem SameBut.agreeOn (h : SameBut key lines others) (hkey : key ≠ limit.key)
    (hd : d.AgreeOn limit e) :
    ((lines.map ConfigLine.ofLine).foldl ConfigDraft.add d).AgreeOn limit
      ((others.map ConfigLine.ofLine).foldl ConfigDraft.add e) := by
  induction h generalizing d e with
  | nil => exact hd
  | same line _ ih => exact ih (hd.add (ConfigLine.ofLine line))
  | left hline _ ih =>
    have hpassed := ConfigDraft.agreeOn_add hkey hline d
    exact ih ⟨hpassed.inLimits.trans hd.inLimits, hpassed.get.trans hd.get⟩
  | right hline _ ih =>
    have hpassed := ConfigDraft.agreeOn_add hkey hline e
    exact ih ⟨hd.inLimits.trans hpassed.inLimits.symm, hd.get.trans hpassed.get.symm⟩

/-- The drafts of the two texts stand alike all along, so the limit comes out the same. -/
theorem TextsAgreeBut.get_ofConfig (h : TextsAgreeBut key text other) (hkey : key ≠ limit.key) :
    (ofConfig text).get limit = (ofConfig other).get limit := by
  obtain ⟨lines, others, htext, hother, hsame⟩ := h
  have hread : ∀ {written : List (List Char)} {text : List Char}, Text.Ended written text →
      (Text.lines text).map ConfigLine.ofLine = written.map ConfigLine.ofLine :=
    Text.map_lines_of_ended (ofLine_append_blanks isBlank_of_mem_return)
  have hstart : ConfigDraft.empty.AgreeOn limit .empty := ⟨rfl, rfl⟩
  rw [ofConfig, ofConfig, hread htext, hread hother, get_limits, get_limits,
    (hsame.agreeOn hkey hstart).get]

/-- The configuration file is looked up and read. There is a text exactly if the file holds it. -/
theorem configText?_eq_some_iff {host : Host Id} {content : String} :
    (configText? host).run = some content ↔ FileHolds host content := by
  have hread : (configText? host).run =
      (configPath? (host.environment "XDG_CONFIG_HOME") (host.environment "HOME")).bind
        fun path => (Host.textOf (host.load path)).toOption := by
    cases hpath : configPath? (host.environment "XDG_CONFIG_HOME") (host.environment "HOME") <;>
      simp only [configText?, bind, hpath] <;> rfl
  simp only [hread, Option.bind_eq_some_iff, Host.toOption_eq_some_iff, Host.textOf_eq_ok_iff,
    FileHolds]

/-- Each host's file says one thing. -/
theorem fileSays_iff {host : Host Id} {content : String} :
    FileSays host content ↔ (configText? host).run.getD "" = content := by
  simp only [FileSays, ← configText?_eq_some_iff]
  cases (configText? host).run with
  | none =>
    rw [Option.getD_none]
    constructor
    · rintro (h | ⟨-, rfl⟩)
      · cases h
      · rfl
    · rintro rfl
      exact Or.inr ⟨nofun, rfl⟩
  | some text =>
    rw [Option.getD_some, Option.some.injEq]
    constructor
    · rintro (h | ⟨habsent, -⟩)
      · exact h
      · exact absurd rfl (habsent text)
    · exact Or.inl

/-- No file says what an empty one does. -/
theorem ofConfigFile_eq (content : Option String) :
    ofConfigFile content = ofConfig (content.getD "").toList := by
  cases content <;> rfl

theorem get_resolveOn (host : Host Id) (flags : Limits) (limit : Limit) :
    (resolveOn host flags).run.get limit =
      (flags.get limit).or (((host.environment limit.variable).bind readVariable?).or
        ((ofConfig ((configText? host).run.getD "").toList).get limit)) := by
  rw [← ofConfigFile_eq]
  cases limit <;> rfl

theorem VariableSays.read_eq {host : Host Id} {n : Nat} (h : VariableSays host limit n) :
    (host.environment limit.variable).bind readVariable? = some n := by
  obtain ⟨text, htext, hn⟩ := h
  rw [htext]
  exact Text.readNumeral?_eq_some_iff.mpr hn

theorem read_eq_none {host : Host Id} (h : ∀ n, ¬ VariableSays host limit n) :
    (host.environment limit.variable).bind readVariable? = none := by
  refine Option.eq_none_iff_forall_ne_some.mpr fun n hn => ?_
  obtain ⟨text, htext, hread⟩ := Option.bind_eq_some_iff.mp hn
  exact h n ⟨text, htext, Text.readNumeral?_eq_some_iff.mp hread⟩

/-- A limit is its flag if there is one, else the number of its variable if that holds one, else
what the configuration file says, of which there may be none: a variable that is no number, or too
large a number, does not hide the file. And no limit depends on what is said about the other one.
Whatever the hosts and the flags, they resolve a limit alike if its flag and its variable are the
same and what the files say, where no file counts as an empty one, differs in lines for another key
only. -/
theorem limits_resolve_apart_by_precedence (host : Host Id) (flags : Limits) (limit : Limit) :
    (∀ n, flags.get limit = some n → (resolveOn host flags).run.get limit = some n) ∧
    (flags.get limit = none →
      (∀ n, VariableSays host limit n → (resolveOn host flags).run.get limit = some n) ∧
      ((∀ n, ¬ VariableSays host limit n) →
        (∀ content, FileHolds host content →
          (resolveOn host flags).run.get limit = (ofConfig content.toList).get limit) ∧
        ((∀ content, ¬ FileHolds host content) → (resolveOn host flags).run.get limit = none))) ∧
    ∀ (host' : Host Id) (flags' : Limits) (key : List Char) (content content' : String),
      key ≠ limit.key → flags.get limit = flags'.get limit →
      host.environment limit.variable = host'.environment limit.variable →
      FileSays host content → FileSays host' content' →
      TextsAgreeBut key content.toList content'.toList →
      (resolveOn host flags).run.get limit = (resolveOn host' flags').run.get limit := by
  refine ⟨fun n hflag => ?_, fun hflag => ⟨fun n hn => ?_, fun hnone => ?_⟩,
    fun host' flags' key content content' hkey hflag hvariable hfile hfile' htexts => ?_⟩
  · rw [get_resolveOn, hflag, Option.some_or]
  · rw [get_resolveOn, hflag, hn.read_eq, Option.none_or, Option.some_or]
  · have hsaid : ∀ {content}, FileSays host content →
        (resolveOn host flags).run.get limit = (ofConfig content.toList).get limit := by
      intro content hfile
      rw [get_resolveOn, hflag, read_eq_none hnone, Option.none_or, Option.none_or,
        fileSays_iff.mp hfile]
    refine ⟨fun content hheld => hsaid (.inl hheld), fun habsent => ?_⟩
    rw [hsaid (.inr ⟨habsent, rfl⟩)]
    cases limit <;> rfl
  · rw [get_resolveOn, get_resolveOn, hflag, hvariable, fileSays_iff.mp hfile,
      fileSays_iff.mp hfile', htexts.get_ofConfig hkey]

/-- A number that is too large leaves the word to the file. -/
example : resolve unbounded (some "18446744073709551616") (some " +7 ")
    (some "[limits]\nmax_steps = 5\ntimeout_ms = 6\n") = ⟨some 5, some 7⟩ := by decide

end TapeInterpreter.Limits
