import TapeInterpreter.Machine.Words
import TapeInterpreter.Proofs.Positions

/-!
# No arithmetic leaves the words

In every state of a run the step on numbers of 64 bits is the step itself, so no sum, difference or
remainder fails. Each value is bounded by something that a run keeps: the cursor by the capacity,
the place of the scan by the length of the text, the level of a loop by the depth that is allowed,
and the count of steps by their limit.
-/
namespace TapeInterpreter
set_option autoImplicit false

/-- The text and the settings of an evaluation whose numbers are to fit. A text and a tape take up
no more than half of the memory that words can address. -/
structure Settings.FitWords (settings : Settings) (code : Source) : Prop where
  size : code.size < 2 ^ 63
  capacity : settings.capacity < 2 ^ 63
  depth : settings.maxDepth < Word.bound
  limit (c : Control) : settings.control = some c → ∃ limit < Word.bound, c.maxSteps = some limit

/-- The largest tape, depth and limit there are. -/
def Settings.largest : Settings where
  capacity := 2 ^ 63 - 1
  maxDepth := Word.bound - 1
  control := some ⟨some (Word.bound - 1)⟩

/-- The cursor is on a cell, of as many as the tape had at first. -/
def Tape.Sized (capacity : Nat) (t : Tape) : Prop :=
  t.InRange ∧ t.capacity = max capacity 1

namespace Word

theorem add?_eq {m n : Nat} (h : m + n < bound) : add? m n = some (m + n) := if_pos h

theorem sub?_eq {m n : Nat} (h : n ≤ m) : sub? m n = some (m - n) := if_pos h

theorem mod?_eq {m n : Nat} (h : 0 < n) : mod? m n = some (m % n) := if_neg (Nat.ne_of_gt h)

/-- Half of the numbers may be doubled. -/
theorem add?_eq_of_half {m n : Nat} (hm : m ≤ 2 ^ 63) (hn : n < 2 ^ 63) :
    add? m n = some (m + n) :=
  add?_eq (show m + n < 2 ^ 64 by omega)

theorem add?_one {m : Nat} (hm : m < 2 ^ 63) : add? m 1 = some (m + 1) :=
  add?_eq_of_half (Nat.le_of_lt hm) (by decide)

end Word

namespace Tape

variable {t u : Tape} {n : Nat}

theorem Sized.blank (n : Nat) : Sized n (blank n) := ⟨inRange_blank n, capacity_blank n⟩

theorem Sized.capacity_lt (h : t.Sized n) (hn : n < 2 ^ 63) : t.capacity < 2 ^ 63 := by
  rw [h.2]
  omega

theorem Sized.advance?_eq (h : t.Sized n) (hn : n < 2 ^ 63) : t.advance? = some t.advance := by
  have hcapacity := h.capacity_lt hn
  have hcursor : t.cursor < t.capacity := h.1
  rw [advance?, Word.add?_one (Nat.lt_trans hcursor hcapacity)]
  simp only [bind, Option.bind, Word.mod?_eq (Nat.zero_lt_of_lt hcursor)]
  rfl

theorem Sized.retreat?_eq (h : t.Sized n) (hn : n < 2 ^ 63) : t.retreat? = some t.retreat := by
  have hcapacity := h.capacity_lt hn
  have hcursor : t.cursor < t.capacity := h.1
  rw [retreat?, Word.add?_eq_of_half (by omega) hcapacity]
  simp only [bind, Option.bind, Word.sub?_eq (show 1 ≤ t.cursor + t.capacity by omega),
    Word.mod?_eq (Nat.zero_lt_of_lt hcursor)]
  rfl

theorem Sized.of_modify {use : CellUse} {f : UInt8 → UInt8} (h : t.Sized n)
    (hu : t.modify use f = .ok u) : u.Sized n :=
  ⟨h.1.of_modify hu, (modify_keeps hu).2.1.trans h.2⟩

theorem Sized.effect {c : Command} (h : t.Sized n) (hu : c.effect t = .ok (.changed u)) :
    u.Sized n := by
  have hchange : ∀ {use f}, (t.modify use f).map Effect.changed = .ok (.changed u) →
      u.Sized n := by
    intro use f hu
    cases hm : t.modify use f with
    | error e => rw [hm] at hu; cases hu
    | ok v => rw [hm] at hu; cases hu; exact h.of_modify hm
  cases c with
  | right => cases hu; exact ⟨h.1.advance, h.2⟩
  | left => cases hu; exact ⟨h.1.retreat, h.2⟩
  | increment => exact hchange hu
  | decrement => exact hchange hu
  | write => cases hr : t.read <;> simp [Command.effect, hr, Except.map] at hu
  | read => cases hu

end Tape

namespace Source

variable {code : Source}

theorem lineEndWithin?_eq (hcode : code.size < 2 ^ 63) (n i : Nat) (hi : i + n ≤ code.size) :
    code.lineEndWithin? n i = some (code.lineEndWithin n i) := by
  induction n generalizing i with
  | zero => rfl
  | succ n ih =>
    rw [lineEndWithin?, lineEndWithin]
    split
    · rfl
    · rw [Word.add?_one (by omega)]
      exact ih (i + 1) (by omega)

theorem lineEnd?_eq (hcode : code.size < 2 ^ 63) {i : Nat} (hi : i ≤ code.size) :
    code.lineEnd? i = some (code.lineEnd i) :=
  lineEndWithin?_eq hcode _ i (by omega)

end Source

namespace State

variable {settings : Settings} {code : Source} {s t : State} {cancelled : Bool} {f : Frame}
  {outer : List Frame}

theorem next?_eq (hp : s.position < 2 ^ 63) : s.next? = some s.next := by
  rw [next?, Word.add?_one hp]
  rfl

theorem enter?_eq (hp : s.position < 2 ^ 63) (hl : s.level + 1 < Word.bound) (pass : Pass) :
    s.enter? pass = some (s.enter pass) := by
  rw [enter?, Word.add?_one hp, Word.add?_eq hl]
  rfl

theorem leave?_eq (hp : s.position < 2 ^ 63) : s.leave? f outer = some (s.leave f outer) := by
  rw [leave?, Word.add?_one hp]
  rfl

theorem skip?_eq (hp : s.position < 2 ^ 63) (hl : s.level + 1 < Word.bound)
    (hc : ∀ c, s.closing? s.position = some c → c < 2 ^ 63) : s.skip? = some s.skip := by
  rw [skip?, skip]
  cases hclosing : s.closing? s.position with
  | none => exact enter?_eq hp hl .skipping
  | some c =>
    simp only [Word.add?_one (hc c hclosing)]
    rfl

/-- A step is counted only below the limit, and the limit fits. -/
theorem tick?_eq {control : Option Control}
    (h : ∀ c, control = some c → ∃ limit < Word.bound, c.maxSteps = some limit) :
    s.tick? control cancelled = some (s.tick control cancelled) := by
  cases control with
  | none => rfl
  | some c =>
    obtain ⟨limit, hlimit, hc⟩ := h c rfl
    simp only [tick?, tick, hc]
    split
    · rfl
    · split
      · rfl
      · rw [Word.add?_eq (by omega)]
        rfl

theorem test?_eq {zero nonzero : State → State} {zero? nonzero? : State → Option State}
    (hcontrol : ∀ c, settings.control = some c → ∃ limit < Word.bound, c.maxSteps = some limit)
    (hzero : ∀ n, zero? { s with steps := n } = some (zero { s with steps := n }))
    (hnonzero : ∀ n, nonzero? { s with steps := n } = some (nonzero { s with steps := n })) :
    s.test? settings cancelled zero? nonzero? = some (s.test settings cancelled zero nonzero) := by
  rw [test?, tick?_eq hcontrol, tick_eq, test_eq]
  cases charge settings.control cancelled s.steps with
  | error e => rfl
  | ok n =>
    simp only [bind, Option.bind, Except.map]
    cases s.tape.read with
    | error e => rfl
    | ok cell =>
      simp only
      split
      · rw [hzero]; rfl
      · rw [hnonzero]; rfl

theorem command?_eq (h : settings.FitWords code) (hp : s.position < 2 ^ 63)
    (ht : s.tape.Sized settings.capacity) (c : Command) :
    s.command? settings cancelled c = some (s.command settings cancelled c) := by
  rw [command?, tick?_eq h.limit, command]
  cases hs : s.tick settings.control cancelled with
  | error e => rfl
  | ok t =>
    obtain ⟨n, rfl⟩ : ∃ n, t = { s with steps := n } := by
      rw [tick_eq] at hs
      cases hcharge : charge settings.control cancelled s.steps with
      | error e => rw [hcharge] at hs; cases hs
      | ok n => rw [hcharge] at hs; cases hs; exact ⟨n, rfl⟩
    have hnext : ∀ tape, ({ s with tape := tape, steps := n } : State).next? =
        some { s with position := s.position + 1, tape := tape, steps := n } :=
      fun tape => next?_eq hp
    cases c with
    | right =>
      simp only [bind, Option.bind, ht.advance?_eq h.capacity, hnext]
      rfl
    | left =>
      simp only [bind, Option.bind, ht.retreat?_eq h.capacity, hnext]
      rfl
    | increment =>
      simp only [bind, Option.bind]
      cases s.tape.increment with
      | error e => rfl
      | ok tape => simp only [hnext]; rfl
    | decrement =>
      simp only [bind, Option.bind]
      cases s.tape.decrement with
      | error e => rfl
      | ok tape => simp only [hnext]; rfl
    | write =>
      simp only [bind, Option.bind]
      cases s.tape.read with
      | error e => rfl
      | ok byte => simp only [hnext]; rfl
    | read =>
      simp only [bind, Option.bind, hnext]
      rfl

theorem stop?_eq (ho : ∀ f ∈ s.frames, f.opening < 2 ^ 63) : s.stop? code = some (s.stop code) := by
  rw [stop?, stop]
  cases hf : s.frames with
  | nil => rfl
  | cons f outer =>
    have hlt : f.opening < 2 ^ 63 := ho f (hf ▸ List.mem_cons_self ..)
    simp only [Word.add?_one hlt]
    rfl

/-- A loop that is opened, or passed over, lies within the depth that is allowed. -/
theorem openLoop?_eq (h : settings.FitWords code) (hp : s.position < 2 ^ 63)
    (hc : ∀ c, s.closing? s.position = some c → c < 2 ^ 63) :
    s.openLoop? settings cancelled = some (s.openLoop .remembering settings cancelled) := by
  rw [openLoop?, openLoop]
  split
  · rfl
  · rename_i hd
    have hdepth := h.depth
    have hlevel : s.level + 1 < Word.bound := by omega
    rw [Word.add?_one hp]
    simp only [bind, Option.bind]
    cases s.pass with
    | skipping => simp only [skip?_eq hp hlevel hc]; rfl
    | running =>
      exact test?_eq h.limit (fun n => skip?_eq hp hlevel hc) fun n =>
        enter?_eq (s := { s with steps := n }) hp hlevel .running

theorem closeLoop?_eq (h : settings.FitWords code) (hp : s.position < 2 ^ 63)
    (ho : ∀ f ∈ s.frames, f.opening < 2 ^ 63) :
    s.closeLoop? settings cancelled = some (s.closeLoop .remembering settings cancelled) := by
  rw [closeLoop?, closeLoop]
  cases hf : s.frames with
  | nil => rfl
  | cons f outer =>
    have hlt : f.opening < 2 ^ 63 := ho f (hf ▸ List.mem_cons_self ..)
    simp only
    cases f.pass with
    | skipping => simp only [leave?_eq hp]; rfl
    | running =>
      refine test?_eq h.limit (fun n => leave?_eq hp) fun n => ?_
      rw [Word.add?_one hlt]
      rfl

/-- In a state that is consistent with the text the step on words is the step. -/
theorem step?_eq (h : settings.FitWords code) (hs : s.Consistent code settings.maxDepth)
    (ht : s.tape.Sized settings.capacity) (cancelled : Bool) :
    s.step? settings code cancelled = some (s.step .remembering settings code cancelled) := by
  have hcode := h.size
  have ho : ∀ f ∈ s.frames, f.opening < 2 ^ 63 := by
    intro f hf
    obtain ⟨comment, -, hx⟩ := hs.context
    obtain ⟨inner, outer, hframes⟩ := List.append_of_mem hf
    rw [hframes, List.map_append] at hx
    have hlt := Source.lt_size_of_glyph? (Source.context_opened _ hx).2.1
    omega
  cases hc : code[s.position]? with
  | none =>
    rw [step_of_end hc]
    simp only [step?, hc]
    exact stop?_eq ho
  | some char =>
    have hglyph : code.glyph? s.position = some (Glyph.ofChar char) := by
      rw [Source.glyph?, hc]; rfl
    have hlt := Source.lt_size_of_glyph? hglyph
    have hp : s.position < 2 ^ 63 := by omega
    rw [step_of_char hc]
    simp only [step?, hc]
    cases hg : Glyph.ofChar char with
    | foreign => rfl
    | blank => simp only [next?_eq hp]; rfl
    | comment =>
      have hline : code.lineEnd s.position < 2 ^ 63 :=
        Nat.lt_of_le_of_lt (Source.lineEnd_le (Nat.le_of_lt hlt)) hcode
      simp only [Source.lineEnd?_eq hcode (Nat.le_of_lt hlt), bind, Option.bind,
        Word.add?_one hline]
      rfl
    | command c =>
      simp only
      cases s.pass with
      | skipping => simp only [next?_eq hp]; rfl
      | running => exact command?_eq h hp ht c
    | closing => exact closeLoop?_eq h hp ho
    | opening =>
      refine openLoop?_eq h hp fun c hclosing => ?_
      have hclosed := Source.lt_size_of_glyph? (hs.remembers _ c hclosing).1
      omega

/-! ## Runs -/

/-- A step moves the cursor on the tape it has, and so does the byte that is stored. -/
theorem sized_of_next {n : Nat} (h : s.tape.Sized n)
    (hn : (s.step .remembering settings code cancelled).next? = some t) : t.tape.Sized n := by
  cases moveRule hn with
  | blank => exact h
  | comment => exact h
  | passed => exact h
  | entered => exact h
  | left => exact h
  | exited => exact h
  | repeated => exact h
  | @skipped k => show (State.skip { s with steps := k }).tape.Sized n; rw [tape_skip]; exact h
  | executed _ htape =>
    rcases htape with rfl | heffect
    · exact h
    · exact h.effect heffect

end State

variable {b : Behaviour} {settings : Settings} {code : Source} {s t : State} {log calls : List Call}

theorem sized_of_advance {n : Nat} (h : s.tape.Sized n)
    (ha : (Machine.over settings code).advance b.console s log = (.running t, calls)) :
    t.tape.Sized n := by
  have hserved := Machine.advance_served b.quiet ha
  generalize hstep : Machine.over settings code s (b.console.cancelled log).1 = step at hserved
  have hnext : ∀ {u}, step.next? = some u → u.tape.Sized n := fun hu =>
    State.sized_of_next h (by rw [← hu, ← hstep]; rfl)
  cases hserved with
  | silent => exact hnext rfl
  | written => exact hnext rfl
  | stored hr ht => exact (hnext rfl).of_modify ht

/-- Around a place in the text the window ends at a number that fits. -/
theorem Diagnostic.context?_eq (hcode : code.size < 2 ^ 63) {p : Nat} (hp : p ≤ code.size) :
    context? code p = some (context code p) := by
  have hright : Word.add? p radius = some (p + radius) :=
    Word.add?_eq_of_half (by omega) (by decide)
  have hbehind : Word.add? (p + radius) 1 = some (p + radius + 1) :=
    Word.add?_eq (show p + 32 + 1 < 2 ^ 64 by omega)
  have hwindow : code.extract (p - radius) (min (p + radius + 1) code.size) =
      code.extract (p - radius) (p + radius + 1) := by
    rw [Array.extract_eq_extract_right]
    omega
  rw [context?, hright]
  simp only [bind, Option.bind, hbehind, hwindow]
  rfl

/-- No arithmetic of an evaluation leaves the numbers of 64 bits, and none of the report of its
error does. In every state of a run, the cancel flag being up or not, the step on words is the
step; and for every error with a position the context on words is the context. -/
theorem arithmetic_stays_in_words (b : Behaviour) (settings : Settings) (code : Source)
    (h : settings.FitWords code) :
    (∀ s log, (Machine.over settings code).Reaches b.console
      (State.initial settings.capacity code) [] s log →
        ∀ cancelled, s.step? settings code cancelled =
          some (s.step .remembering settings code cancelled)) ∧
    ∀ outcome calls e p, Evaluates b settings code outcome calls → outcome.result = .error e →
      e.position? = some p → Diagnostic.context? code p = some (Diagnostic.context code p) := by
  refine ⟨fun s log hreach => ?_, fun outcome calls e p hevaluates he hp => ?_⟩
  · have hs : s.Consistent code settings.maxDepth :=
      (State.Consistent.initial settings.capacity).reaches Resume.remembering_sound b.quiet hreach
    have ht : s.tape.Sized settings.capacity :=
      hreach.preserves (P := fun s _ => s.tape.Sized settings.capacity)
        (fun _ _ _ _ hsized ha => sized_of_advance hsized ha) (.blank settings.capacity)
    exact State.step?_eq h hs ht
  · exact Diagnostic.context?_eq h.size ((pointsAtCause_of_evaluates hevaluates he).le_size hp)

/-- The largest tape, depth and limit that fit, over a comment that runs to the end. -/
theorem largest_settings_stay_in_words :
    Settings.largest.FitWords (Source.ofString "<#") ∧
    (∀ s log, (Machine.over .largest (Source.ofString "<#")).Reaches Behaviour.mute.console
      (State.initial Settings.largest.capacity (Source.ofString "<#")) [] s log →
        ∀ cancelled, s.step? .largest (Source.ofString "<#") cancelled =
          some (s.step .remembering .largest (Source.ofString "<#") cancelled)) ∧
    ∀ outcome calls e p, Evaluates .mute .largest (Source.ofString "<#") outcome calls →
      outcome.result = .error e → e.position? = some p →
        Diagnostic.context? (Source.ofString "<#") p =
          some (Diagnostic.context (Source.ofString "<#") p) :=
  have h : Settings.largest.FitWords (Source.ofString "<#") :=
    ⟨by decide, by decide, by decide,
      fun c hc => ⟨Word.bound - 1, by decide, by cases hc; rfl⟩⟩
  ⟨h, arithmetic_stays_in_words .mute .largest _ h⟩

end TapeInterpreter
