import Mathlib.Data.List.Induction
import Mathlib.Data.List.Nodup
import TapeInterpreter.Arguments.Parse
import TapeInterpreter.Proofs.ConfigRendering

/-!
# Written arguments are read back

What a command line says can be written in many ways: its options in any order, a number attached to
its option or as an argument of its own, help by its long or its short name. Behind two hyphens
stand the expressions. Each option, read in front of what begins with an option or with the two
hyphens, puts its value in place, or is refused if there is one.
-/
namespace TapeInterpreter.Arguments
set_option autoImplicit false

open Limits (Limit)

/-- The option for a limit. -/
def Key.ofLimit : Limit → Key
  | .maxSteps => .maxSteps
  | .timeoutMs => .timeoutMs

/-- An option that is given, with its value. -/
inductive Given where
  | file (path : String)
  | number (limit : Limit) (n : Nat)
  | help

/-- Which option it is. Help takes no value and has no key. -/
def Given.key : Given → Option Key
  | .file _ => some .file
  | .number limit _ => some (.ofLimit limit)
  | .help => none

/-- The long name of the option, as it is written. -/
def Given.name (g : Given) : String :=
  match g.key with
  | some key => key.flag
  | none => "--" ++ helpName

/-- A number is read if it is below 2 ^ 64. -/
def Given.Fits : Given → Prop
  | .number _ n => n < UInt64.size
  | _ => True

/-- The arguments by which an option may be given. A path that is an argument of its own must not be
taken for an option. -/
inductive Spelled : Given → List String → Prop
  | file (path : String) : Spelled (.file path) [Key.file.flag ++ "=" ++ path]
  | fileApart {path : String} : Shape.of path = .text → Spelled (.file path) ["--file", path]
  | fileShort {path : String} : Shape.of path = .text → Spelled (.file path) ["-f", path]
  | attached (limit : Limit) (n : Nat) :
    Spelled (.number limit n) [(Key.ofLimit limit).flag ++ "=" ++ toString n]
  | apart (limit : Limit) (n : Nat) : Spelled (.number limit n) [(Key.ofLimit limit).flag, toString n]
  | long : Spelled .help ["--help"]
  | short : Spelled .help ["-h"]

/-- The arguments by which options may be given one behind the other. -/
inductive SpelledAll : List Given → List String → Prop
  | nil : SpelledAll [] []
  | cons {g : Given} {options : List Given} {words more : List String} :
    Spelled g words → SpelledAll options more → SpelledAll (g :: options) (words ++ more)

/-- The limits that are given. -/
def limits (a : Arguments) : Limits := ⟨a.maxSteps, a.timeoutMs⟩

def withLimits (a : Arguments) (limits : Limits) : Arguments :=
  { a with maxSteps := limits.maxSteps, timeoutMs := limits.timeoutMs }

/-- The option is present with this value. -/
def Says (a : Arguments) : Given → Prop
  | .file path => a.file = some path
  | .number limit n => a.limits.get limit = some n
  | .help => a.help = true

/-- The options that are present, each of them once, in any order. -/
structure Lists (a : Arguments) (options : List Given) : Prop where
  once : options.Nodup
  mem_iff : ∀ g, g ∈ options ↔ a.Says g

/-- The option is present, with this value or another one. -/
def has (a : Arguments) : Given → Bool
  | .file _ => a.file.isSome
  | .number limit _ => (a.limits.get limit).isSome
  | .help => a.help

def put (a : Arguments) : Given → Arguments
  | .file path => { a with file := some path }
  | .number limit n => a.withLimits (a.limits.put limit n)
  | .help => { a with help := true }

/-- Take in an option. It may be given once. -/
def take (a : Arguments) (g : Given) : Except ArgumentError Arguments :=
  if a.has g then .error (.repeated g.name) else .ok (a.put g)

/-- Arguments that begin with an option or with two hyphens. -/
def Ready (arguments : List String) : Prop :=
  ∃ first rest, arguments = first :: rest ∧
    (Shape.of first = .separator ∨ ∃ help key, Shape.of first = .options help key)

variable {a b : Arguments} {g : Given} {options : List Given} {words rest : List String}
  {limit : Limit} {key : Key} {n : Nat} {argument value : String}

/-! ## The spelling of an option -/

theorem Key.ofName?_name (key : Key) : ofName? key.name.toList = some key := by
  cases key <;> decide

theorem Key.toList_flag (key : Key) : key.flag.toList = '-' :: '-' :: key.name.toList := by
  rw [flag, String.toList_append]
  rfl

theorem Shape.ofChars_long {body : List Char} (h : body ≠ []) :
    ofChars ('-' :: '-' :: body) = ofLong body := by
  cases body with
  | nil => exact absurd rfl h
  | cons c body => rfl

theorem Shape.of_flag (key : Key) : Shape.of key.flag = .options 0 (some (key, none)) := by
  cases key <;> decide

/-- A value may be any text: it begins behind the first equals sign, and there is none in a name. -/
theorem Shape.of_attached (key : Key) (value : String) :
    Shape.of (key.flag ++ "=" ++ value) = .options 0 (some (key, some value)) := by
  have hname : '=' ∉ key.name.toList := by cases key <;> decide
  have hchars : (key.flag ++ "=" ++ value).toList =
      '-' :: '-' :: (key.name.toList ++ '=' :: value.toList) := by
    rw [String.toList_append, String.toList_append, Key.toList_flag, List.append_assoc]
    rfl
  rw [of, hchars, ofChars_long (List.append_ne_nil_of_right_ne_nil _ (List.cons_ne_nil _ _)),
    ofLong, Text.takeWhile_ne_append hname, Text.dropWhile_ne_append hname]
  simp only [Key.ofName?_name, String.ofList_toList]

theorem Shape.ofChars_of_ne {chars : List Char} (h : ∀ body, chars ≠ '-' :: body) :
    ofChars chars = .text := by
  unfold ofChars
  split
  case h_4 => rfl
  all_goals exact absurd rfl (h _)

theorem toList_toString (n : Nat) : (toString n).toList = Nat.toDigits 10 n :=
  String.toList_ofList

/-- A number as an argument of its own is no option. -/
theorem Shape.of_toString (n : Nat) : Shape.of (toString n) = .text := by
  refine ofChars_of_ne fun body h => ?_
  rw [toList_toString] at h
  have hdigit : ('-' : Char).isDigit = true :=
    Nat.isDigit_of_mem_toDigits (by decide) (by decide) (h ▸ List.mem_cons_self ..)
  cases hdigit

/-! ## Putting values in place -/

theorem number_eq (key : Key) (h : n < UInt64.size) : number key (toString n) = .ok n := by
  rw [number, toList_toString, Text.readNumeral?_eq_some_iff.mpr (Text.denotes_toDigits h)]

theorem assign_number (a : Arguments) (limit : Limit) (h : n < UInt64.size) :
    a.assign (.ofLimit limit) (toString n) = a.take (.number limit n) := by
  cases limit <;>
  · rw [Key.ofLimit, assign, number_eq _ h]
    rfl

/-- The same option, with whatever values. -/
inductive Given.Alike : Given → Given → Prop
  | file (path other : String) : Alike (.file path) (.file other)
  | number (limit : Limit) (n m : Nat) : Alike (.number limit n) (.number limit m)
  | help : Alike .help .help

theorem Given.alike_of_key {g g' : Given} (h : g.key = g'.key) : g.Alike g' := by
  cases g with
  | file path =>
    cases g' with
    | file other => exact .file path other
    | number limit n => cases limit <;> cases h
    | help => cases h
  | number limit n =>
    cases g' with
    | file path => cases limit <;> cases h
    | number limit' m =>
      have hlimit : limit = limit' := by cases limit <;> cases limit' <;> cases h <;> rfl
      subst hlimit
      exact .number limit n m
    | help => cases h
  | help =>
    cases g' with
    | file path => cases h
    | number limit n => cases h
    | help => exact .help

/-- No option is present with two values. -/
theorem says_unique {g g' : Given} (h : a.Says g) (h' : a.Says g') (hkey : g.key = g'.key) :
    g = g' := by
  cases Given.alike_of_key hkey with
  | file path other => cases h.symm.trans h'; rfl
  | number limit n m => cases h.symm.trans h'; rfl
  | help => rfl

theorem has_eq_true_iff : a.has g = true ↔ ∃ g', a.Says g' ∧ g'.key = g.key := by
  constructor
  · intro h
    cases g with
    | file path =>
      obtain ⟨other, hother⟩ := Option.isSome_iff_exists.mp h
      exact ⟨.file other, hother, rfl⟩
    | number limit n =>
      obtain ⟨m, hm⟩ := Option.isSome_iff_exists.mp h
      exact ⟨.number limit m, hm, rfl⟩
    | help => exact ⟨.help, h, rfl⟩
  · rintro ⟨g', hsays, hkey⟩
    cases Given.alike_of_key hkey with
    | file other path => exact Option.isSome_iff_exists.mpr ⟨other, hsays⟩
    | number limit m n => exact Option.isSome_iff_exists.mpr ⟨m, hsays⟩
    | help => exact hsays

/-- At the start no option is present. -/
theorem absent_start (g : Given) : has {} g = false := by
  cases g with
  | file path => rfl
  | number limit n => cases limit <;> rfl
  | help => rfl

theorem get_limits_put (a : Arguments) (limit other : Limit) (n : Nat) :
    (a.put (.number limit n)).limits.get other =
      if other = limit then some n else a.limits.get other :=
  Limits.get_put a.limits limit other n

/-- An option that was absent is put beside those that are present. -/
theorem says_put (h : a.has g = false) (g' : Given) :
    (a.put g).Says g' ↔ a.Says g' ∨ g' = g := by
  have habsent : ∀ g', a.Says g' → g'.key ≠ g.key := fun g' hsays hkey => by
    rw [has_eq_true_iff.mpr ⟨g', hsays, hkey⟩] at h
    cases h
  by_cases hkey : g'.key = g.key
  · have hnew : (a.put g).Says g' ↔ g' = g := by
      cases Given.alike_of_key hkey with
      | file other path => simp [Says, put, eq_comm]
      | number limit m n => simp [Says, get_limits_put, eq_comm]
      | help => simp [Says, put]
    rw [hnew, or_iff_right fun hsays => habsent g' hsays hkey]
  · have hkept : (a.put g).Says g' ↔ a.Says g' := by
      cases g with
      | file path =>
        cases g' with
        | file other => exact absurd rfl hkey
        | number limit n => exact Iff.rfl
        | help => exact Iff.rfl
      | number limit n =>
        cases g' with
        | file path => exact Iff.rfl
        | number other m =>
          have hne : other ≠ limit := fun heq => hkey (congrArg (some <| Key.ofLimit ·) heq)
          rw [Says, get_limits_put, if_neg hne]
          rfl
        | help => exact Iff.rfl
      | help =>
        cases g' with
        | file path => exact Iff.rfl
        | number limit n => exact Iff.rfl
        | help => exact absurd rfl hkey
    rw [hkept, or_iff_left fun heq : g' = g => hkey (congrArg Given.key heq)]

/-- Arguments are told by their options and their expressions. -/
theorem eq_of_options (h : ∀ g, a.Says g ↔ b.Says g)
    (hexpressions : a.expressions = b.expressions) : a = b := by
  have hfile : a.file = b.file := Option.ext fun path => h (.file path)
  have hlimits : a.limits = b.limits :=
    Limits.ext_get fun limit => Option.ext fun n => h (.number limit n)
  have hhelp : a.help = b.help := Bool.eq_iff_iff.mpr (h .help)
  cases a
  cases b
  cases hlimits
  cases hfile
  cases hhelp
  cases hexpressions
  rfl

theorem has_put {x : Given} (h : a.has g = false) (hkey : x.key ≠ g.key) :
    (a.put g).has x = a.has x := by
  rw [Bool.eq_iff_iff, has_eq_true_iff, has_eq_true_iff]
  refine exists_congr fun g' => and_congr_left fun hx => ?_
  rw [says_put h, or_iff_left fun heq : g' = g => hkey (hx.symm.trans (congrArg Given.key heq))]

/-- What is absent and not the same option stays absent. -/
theorem absent_put (h : a.has g = false) (hkey : g.key ∉ options.map Given.key)
    (habsent : ∀ x ∈ options, a.has x = false) : ∀ x ∈ options, (a.put g).has x = false :=
  fun x hx => by
    rw [has_put h fun heq => hkey (heq ▸ List.mem_map_of_mem hx)]
    exact habsent x hx

/-- Options that are absent, and each of them another one, are put in place one behind the other. -/
theorem says_putAll (habsent : ∀ g ∈ options, a.has g = false)
    (honce : (options.map Given.key).Nodup) (g' : Given) :
    (options.foldl put a).Says g' ↔ a.Says g' ∨ g' ∈ options := by
  induction options generalizing a with
  | nil => exact (or_iff_left (List.not_mem_nil)).symm
  | cons g options ih =>
    rw [List.map_cons, List.nodup_cons] at honce
    have hfirst := habsent g (List.mem_cons_self ..)
    have hothers := absent_put hfirst honce.1 fun x hx => habsent x (List.mem_cons_of_mem g hx)
    rw [List.foldl_cons, ih hothers honce.2, says_put hfirst, List.mem_cons, or_assoc]

/-- From the start, the options that are put in place are those that are present. -/
theorem says_putAll_start (honce : (options.map Given.key).Nodup) (g : Given) :
    (options.foldl put {}).Says g ↔ g ∈ options := by
  rw [says_putAll (fun g _ => absent_start g) honce, or_iff_right]
  intro hsays
  have hhas := has_eq_true_iff.mpr ⟨g, hsays, rfl⟩
  rw [absent_start] at hhas
  cases hhas

/-- Options that are present have different keys. -/
theorem Lists.nodup_keys (h : a.Lists options) : (options.map Given.key).Nodup :=
  h.once.map_on fun g hg g' hg' hkey =>
    says_unique ((h.mem_iff g).mp hg) ((h.mem_iff g').mp hg') hkey

/-! ## Reading -/

/-- A value that waits is judged before what begins with an option or with two hyphens is read. -/
theorem parseFrom_waiting (hrest : Ready rest) (a : Arguments) (key : Key) (value : String) :
    parseFrom a (some (key, some value)) rest =
      a.assign key value >>= fun b => b.parseFrom none rest := by
  obtain ⟨first, rest, rfl, hshape | ⟨help, next, hshape⟩⟩ := hrest
  · simp only [parseFrom, hshape, settle]
    cases a.assign key value <;> rfl
  · simp only [parseFrom, hshape, settle]
    cases a.assign key value <;> rfl

theorem parseFrom_attached (h : Shape.of argument = .options 0 (some (key, some value)))
    (a : Arguments) (rest : List String) :
    parseFrom a none (argument :: rest) =
      a.assign key value >>= fun b => b.parseFrom none rest := by
  simp only [parseFrom, h]
  rfl

theorem parseFrom_apart (h : Shape.of argument = .options 0 (some (key, none)))
    (hvalue : Shape.of value = .text) (hrest : Ready rest) (a : Arguments) :
    parseFrom a none (argument :: value :: rest) =
      a.assign key value >>= fun b => b.parseFrom none rest := by
  rw [← parseFrom_waiting hrest]
  simp only [parseFrom, h, hvalue]
  rfl

theorem parseFrom_help (h : Shape.of argument = .options 1 none) (a : Arguments)
    (rest : List String) :
    parseFrom a none (argument :: rest) = a.askHelp >>= fun b => b.parseFrom none rest := by
  have honce : a.askHelpTimes 1 = a.askHelp := by
    rw [askHelpTimes]
    cases a.askHelp <;> rfl
  rw [← honce]
  simp only [parseFrom, h]
  rfl

/-- An option is taken in, whatever its spelling. -/
theorem parseFrom_spelled (h : Spelled g words) (hg : g.Fits) (hrest : Ready rest)
    (a : Arguments) :
    parseFrom a none (words ++ rest) = a.take g >>= fun b => b.parseFrom none rest := by
  cases h with
  | file path => exact parseFrom_attached (Shape.of_attached .file path) a rest
  | fileApart hpath =>
    have hflag : Shape.of "--file" = .options 0 (some (.file, none)) := rfl
    exact parseFrom_apart hflag hpath hrest a
  | fileShort hpath =>
    have hflag : Shape.of "-f" = .options 0 (some (.file, none)) := rfl
    exact parseFrom_apart hflag hpath hrest a
  | attached limit n =>
    rw [← assign_number a limit hg]
    exact parseFrom_attached (Shape.of_attached _ _) a rest
  | apart limit n =>
    rw [← assign_number a limit hg]
    exact parseFrom_apart (Shape.of_flag _) (Shape.of_toString n) hrest a
  | long => exact parseFrom_help rfl a rest
  | short => exact parseFrom_help rfl a rest

theorem Spelled.ready (h : Spelled g words) (rest : List String) : Ready (words ++ rest) := by
  cases h with
  | file path => exact ⟨_, _, rfl, Or.inr ⟨_, _, Shape.of_attached .file path⟩⟩
  | fileApart _ => exact ⟨_, _, rfl, Or.inr ⟨0, some (.file, none), rfl⟩⟩
  | fileShort _ => exact ⟨_, _, rfl, Or.inr ⟨0, some (.file, none), rfl⟩⟩
  | attached limit n => exact ⟨_, _, rfl, Or.inr ⟨_, _, Shape.of_attached _ _⟩⟩
  | apart limit n => exact ⟨_, _, rfl, Or.inr ⟨_, _, Shape.of_flag _⟩⟩
  | long => exact ⟨_, _, rfl, Or.inr ⟨1, none, rfl⟩⟩
  | short => exact ⟨_, _, rfl, Or.inr ⟨1, none, rfl⟩⟩

theorem SpelledAll.ready (h : SpelledAll options words) (hrest : Ready rest) :
    Ready (words ++ rest) := by
  cases h with
  | nil => exact hrest
  | cons hspelled _ =>
    rw [List.append_assoc]
    exact hspelled.ready _

theorem ready_separator (expressions : List String) : Ready ("--" :: expressions) :=
  ⟨_, _, rfl, Or.inl rfl⟩

/-- Options that can all be taken in are put in place one behind the other. -/
theorem parseFrom_spelledAll (h : SpelledAll options words) (hfits : ∀ g ∈ options, g.Fits)
    (habsent : ∀ g ∈ options, a.has g = false) (honce : (options.map Given.key).Nodup)
    (hrest : Ready rest) :
    parseFrom a none (words ++ rest) = (options.foldl put a).parseFrom none rest := by
  induction h generalizing a with
  | nil => rfl
  | @cons g options words more hspelled hall ih =>
    rw [List.map_cons, List.nodup_cons] at honce
    have hfirst := habsent g (List.mem_cons_self ..)
    have htaken : a.take g = .ok (a.put g) := by rw [take, hfirst]; rfl
    rw [List.append_assoc, parseFrom_spelled hspelled (hfits g (List.mem_cons_self ..))
      (hall.ready hrest), htaken]
    exact ih (fun x hx => hfits x (List.mem_cons_of_mem g hx))
      (absent_put hfirst honce.1 fun x hx => habsent x (List.mem_cons_of_mem g hx)) honce.2

theorem parseFrom_separator (a : Arguments) (expressions : List String) :
    parseFrom a none ("--" :: expressions) = .ok { a with expressions } := by
  have h : Shape.of "--" = .separator := rfl
  simp only [parseFrom, h]
  rfl

/-- Behind the last option there are the expressions. -/
theorem parse_spelledAll (h : SpelledAll options words) (hfits : ∀ g ∈ options, g.Fits)
    (honce : (options.map Given.key).Nodup) (expressions : List String) :
    parse (words ++ "--" :: expressions) = .ok { options.foldl put {} with expressions } := by
  rw [parse, parseFrom_spelledAll h hfits (fun g _ => absent_start g) honce
    (ready_separator expressions), parseFrom_separator]

/-- Where an option is given twice, some option is the first that is there already. -/
theorem exists_repeated (h : ¬ (options.map Given.key).Nodup) :
    ∃ before g after, options = before ++ g :: after ∧ (before.map Given.key).Nodup ∧
      g.key ∈ before.map Given.key := by
  induction options using List.reverseRecOn with
  | nil => exact absurd List.nodup_nil h
  | append_singleton options g ih =>
    by_cases honce : (options.map Given.key).Nodup
    · refine ⟨options, g, [], rfl, honce, ?_⟩
      by_contra hnew
      rw [List.map_append, List.map_singleton, List.nodup_append_comm] at h
      exact h (List.nodup_cons.mpr ⟨hnew, honce⟩)
    · obtain ⟨before, x, after, rfl, hbefore, hx⟩ := ih honce
      exact ⟨before, x, after ++ [g], by rw [List.append_assoc, List.cons_append], hbefore, hx⟩

/-- Words can be cut where options can. -/
theorem SpelledAll.exists_append {before after : List Given}
    (h : SpelledAll (before ++ after) words) :
    ∃ front back, words = front ++ back ∧ SpelledAll before front ∧ SpelledAll after back := by
  induction before generalizing words with
  | nil => exact ⟨[], words, rfl, .nil, h⟩
  | cons g before ih =>
    cases h with
    | @cons _ _ spelled more hspelled hall =>
      obtain ⟨front, back, rfl, hfront, hback⟩ := ih hall
      exact ⟨spelled ++ front, back, by rw [List.append_assoc], .cons hspelled hfront, hback⟩

/-- Arguments are read back as they are written: from the options that are present, each given once
and in any order, in any spelling, and the expressions behind two hyphens, of which there may be
any, hyphens themselves too. If an option is given a second time in front of the two hyphens, the
first such option is refused, and none of the values is taken. -/
theorem parsing_undoes_rendering (hwords : SpelledAll options words) (hfits : ∀ g ∈ options, g.Fits)
    (expressions : List String) :
    (∀ a : Arguments, a.Lists options → a.expressions = expressions →
      parse (words ++ "--" :: expressions) = .ok a) ∧
    (¬ (options.map Given.key).Nodup →
      ∃ before g after, options = before ++ g :: after ∧ (before.map Given.key).Nodup ∧
        g.key ∈ before.map Given.key ∧
        parse (words ++ "--" :: expressions) = .error (.repeated g.name)) := by
  constructor
  · rintro a hlists rfl
    rw [parse_spelledAll hwords hfits hlists.nodup_keys]
    refine congrArg Except.ok (eq_of_options (fun g => ?_) rfl)
    rw [← hlists.mem_iff, ← says_putAll_start hlists.nodup_keys]
    cases g <;> exact Iff.rfl
  · intro htwice
    obtain ⟨before, g, after, rfl, hbefore, hmem⟩ := exists_repeated htwice
    refine ⟨before, g, after, rfl, hbefore, hmem, ?_⟩
    obtain ⟨front, back, rfl, hfront, hback⟩ := hwords.exists_append
    have hfrontFits : ∀ x ∈ before, x.Fits := fun x hx => hfits x (List.mem_append_left _ hx)
    have hready := hback.ready (ready_separator expressions)
    rw [parse, List.append_assoc, parseFrom_spelledAll hfront hfrontFits
      (fun g _ => absent_start g) hbefore hready]
    cases hback with
    | cons hspelled hall =>
      obtain ⟨x, hx, hkey⟩ := List.mem_map.mp hmem
      have hthere : (before.foldl put {}).has g = true :=
        has_eq_true_iff.mpr ⟨x, (says_putAll_start hbefore x).mpr hx, hkey⟩
      have hg : g.Fits := hfits g (List.mem_append_right _ (List.mem_cons_self ..))
      rw [List.append_assoc,
        parseFrom_spelled hspelled hg (hall.ready (ready_separator expressions)), take, hthere]
      rfl

/-- A path that looks like an option, the largest number, and expressions that look like options;
and a number given twice. -/
theorem largest_number_is_read_back :
    (SpelledAll [.help, .number .maxSteps 18446744073709551615, .file "--"]
        ["-h", "--max-steps", "18446744073709551615", "--file=--"] ∧
      (∀ g ∈ [Given.help, .number .maxSteps 18446744073709551615, .file "--"], g.Fits) ∧
      parse ["-h", "--max-steps", "18446744073709551615", "--file=--", "--", "--", "-f", ""] = .ok
        { file := some "--", maxSteps := some 18446744073709551615, timeoutMs := none,
          expressions := ["--", "-f", ""], help := true }) ∧
    (SpelledAll [.number .timeoutMs 1, .number .timeoutMs 2] ["--timeout=1", "--timeout=2"] ∧
      (∀ g ∈ [Given.number .timeoutMs 1, .number .timeoutMs 2], g.Fits) ∧
      ¬ ([Given.number .timeoutMs 1, .number .timeoutMs 2].map Given.key).Nodup ∧
      ∃ option, parse ["--timeout=1", "--timeout=2", "--", "+"] = .error (.repeated option)) := by
  have hwords : SpelledAll [.help, .number .maxSteps 18446744073709551615, .file "--"]
      ["-h", "--max-steps", "18446744073709551615", "--file=--"] :=
    .cons .short (.cons (.apart .maxSteps 18446744073709551615) (.cons (.file "--") .nil))
  have hfits : ∀ g ∈ [Given.help, .number .maxSteps 18446744073709551615, .file "--"], g.Fits := by
    simp [Given.Fits, UInt64.size]
  have hlists : Lists
      { file := some "--", maxSteps := some 18446744073709551615, timeoutMs := none,
        expressions := ["--", "-f", ""], help := true }
      [.help, .number .maxSteps 18446744073709551615, .file "--"] := by
    refine ⟨by simp, fun g => ?_⟩
    rcases g with path | ⟨_ | _, n⟩ | _ <;> simp [Says, limits, Limits.get, eq_comm]
  have htwice : SpelledAll [.number .timeoutMs 1, .number .timeoutMs 2]
      ["--timeout=1", "--timeout=2"] :=
    .cons (.attached .timeoutMs 1) (.cons (.attached .timeoutMs 2) .nil)
  have hsmall : ∀ g ∈ [Given.number .timeoutMs 1, .number .timeoutMs 2], g.Fits := by
    simp [Given.Fits, UInt64.size]
  have hsame : ¬ ([Given.number .timeoutMs 1, .number .timeoutMs 2].map Given.key).Nodup := by
    decide
  obtain ⟨_, g, _, -, -, -, hrefused⟩ := (parsing_undoes_rendering htwice hsmall ["+"]).2 hsame
  exact ⟨⟨hwords, hfits, (parsing_undoes_rendering hwords hfits _).1 _ hlists rfl⟩,
    htwice, hsmall, hsame, g.name, hrefused⟩

end TapeInterpreter.Arguments
