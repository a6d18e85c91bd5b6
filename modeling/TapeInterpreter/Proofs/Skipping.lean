import TapeInterpreter.Proofs.DryPass
import TapeInterpreter.Proofs.SyntaxVerdict

/-!
# Skipping a loop has no effect

A step inside a body that is being skipped depends on the text, the place of the scan and the
brackets that are remembered; the tape and the count of steps pass through it as they are. So a
dry pass as a whole comes to the same end on every tape, and all it leaves behind is what it has
remembered.
-/
namespace TapeInterpreter
set_option autoImplicit false

/-- The same place of a scan, on another tape and with another count of steps. -/
def State.holding (s : State) (tape : Tape) (steps : Nat) : State := { s with tape, steps }

/-- The step with each of its states changed. -/
def Step.map (f : State → State) : Step → Step
  | .silent t => .silent (f t)
  | .write byte p t => .write byte p (f t)
  | .read p t => .read p (f t)
  | .failed e t => .failed e (f t)
  | .finished p t => .finished p (f t)

/-- From `s` the machine glides to `t`, whatever the tape is and however many steps have been
counted. -/
def Machine.Drifts (machine : Machine) (s t : State) : Prop :=
  ∀ tape n, machine.Glides (s.holding tape n) (t.holding tape n)

namespace State

/-- The scan fails at `s`, whatever the tape, the count of steps and the cancel flag are. -/
def FailsWith (settings : Settings) (code : Source) (s : State) (e : EvalError) : Prop :=
  ∀ cancelled tape n,
    Machine.over settings code (s.holding tape n) cancelled = .failed e (s.holding tape n)

/-- Every closing bracket that is remembered lies behind its opening one. -/
def Forward (s : State) : Prop := ∀ o c, s.closing? o = some c → o < c

/-- The scan gets from `s` to `t`, without going back, and all it does is to remember some loops
that are not in front of `s`. -/
structure PassesTo (settings : Settings) (code : Source) (s t : State) : Prop where
  drifts : (Machine.over settings code).Drifts s t
  le : s.position ≤ t.position
  keeps (o c : Nat) : s.closing? o = some c → t.closing? o = some c
  outside (o : Nat) : o < s.position → t.closing? o = s.closing? o
  forward : t.Forward

/-- A pass over the body of the innermost of the loops `frames` is over at `s`: at its closing
bracket, or with a syntax error in this body. -/
inductive EndsPass (settings : Settings) (code : Source) (frames : List Frame) (s : State) : Prop
  | closing (hf : s.frames = frames) (hg : code.glyph? s.position = some .closing)
  | failing (inner : List Frame) (e : EvalError) (hf : s.frames = inner ++ frames)
      (he : e.isSyntax = true) (hs : s.FailsWith settings code e)

/-- A run that is at an opening bracket, and has counted `n` steps with this one, gets behind the
closing bracket, or the loop has none and the run fails with the defect. The tape is left as it is,
and no call is made. -/
inductive SkipsLoop (b : Behaviour) (settings : Settings) (code : Source) (s : State)
    (log : List Call) (n : Nat) : Prop
  | behind {c k : Nat} {closings : Array (Option Nat)}
      (hm : code.Matches settings.maxDepth s.position c)
      (hleads : (Machine.over settings code).Leads b.console k s log
        { s with position := c + 1, closings := closings, steps := n } log)
  | malformed {e : EvalError} {k : Nat} {last : State}
      (hm : ∀ c, ¬ code.Matches settings.maxDepth s.position c)
      (he : code.defect? settings.maxDepth = some e)
      (hp : ∀ p, e.position? = some p → s.position ≤ p)
      (hrun : (Machine.over settings code).run b.console k s log = (some ⟨.error e, last⟩, log))
      (htape : last.tape = s.tape) (hsteps : last.steps = n)

variable {settings : Settings} {code : Source} {cancelled : Bool} {s t u : State} {f : Frame}
  {outer : List Frame} {e : EvalError}

theorem step_of_leaving (hg : code.glyph? s.position = some .closing) (hf : s.frames = f :: outer)
    (hp : f.pass = .skipping) {resume : Resume} :
    s.step resume settings code cancelled = .silent (resume.leave s f outer) := by
  obtain ⟨char, hc, hgc⟩ := Source.exists_of_glyph? hg
  rw [step_of_char hc, hgc]
  simp only [closeLoop, hf, hp]

theorem exists_frame_of_skipping (hp : s.pass = .skipping) :
    ∃ f outer, s.frames = f :: outer := by
  cases hf : s.frames with
  | nil => rw [pass, hf] at hp; cases hp
  | cons f outer => exact ⟨f, outer, rfl⟩

theorem skip_holding (tape : Tape) (n : Nat) : (s.holding tape n).skip = s.skip.holding tape n := by
  have hclosing : (s.holding tape n).closing? (s.holding tape n).position =
      s.closing? s.position := rfl
  unfold skip
  rw [hclosing]
  cases s.closing? s.position <;> rfl

/-- A step inside a body that is being skipped carries any tape and any count through. -/
theorem step_holding (hp : s.pass = .skipping) (cancelled : Bool) (tape : Tape) (n : Nat) :
    (s.holding tape n).step .remembering settings code cancelled =
      (s.step .remembering settings code false).map (·.holding tape n) := by
  obtain ⟨f, outer, hf⟩ := exists_frame_of_skipping hp
  have hfp : f.pass = .skipping := (pass_of_frames hf).symm.trans hp
  have hp' : (s.holding tape n).pass = .skipping := hp
  have hf' : (s.holding tape n).frames = f :: outer := hf
  cases hc : code[s.position]? with
  | none =>
    have hc' : code[(s.holding tape n).position]? = none := hc
    rw [step_of_end hc', step_of_end hc, stop, stop, hf, hf']
    rfl
  | some char =>
    have hc' : code[(s.holding tape n).position]? = some char := hc
    rw [step_of_char hc', step_of_char hc]
    cases Glyph.ofChar char with
    | blank => rfl
    | comment => rfl
    | foreign => rfl
    | command c => simp only [hp, hp']; rfl
    | closing => simp only [closeLoop, hf, hf', hfp]; rfl
    | opening =>
      simp only [openLoop, hp, hp']
      show (if settings.maxDepth ≤ s.level then _ else _) = _
      split
      · rfl
      · exact congrArg Step.silent (skip_holding tape n)

theorem drifts_of_step (hp : s.pass = .skipping)
    (h : s.step .remembering settings code false = .silent t) :
    (Machine.over settings code).Drifts s t := fun tape n =>
  .step (fun cancelled => (step_holding hp cancelled tape n).trans (by rw [h]; rfl)) (.refl _)

theorem failsWith_of_step (hp : s.pass = .skipping)
    (h : s.step .remembering settings code false = .failed e s) :
    s.FailsWith settings code e := fun cancelled tape n =>
  (step_holding hp cancelled tape n).trans (by rw [h]; rfl)

/-- A step inside a body that is being skipped is silent, or it fails with a syntax error. -/
theorem step_of_dry (hp : s.pass = .skipping) :
    (∃ t : State, ∀ cancelled tape n,
        Machine.over settings code (s.holding tape n) cancelled = .silent (t.holding tape n)) ∨
      ∃ e, e.isSyntax = true ∧ s.FailsWith settings code e := by
  obtain ⟨f, outer, hf⟩ := exists_frame_of_skipping hp
  have hrule := s.dryRule hf ((pass_of_frames hf).symm.trans hp) .remembering settings code false
  have hheld : ∀ cancelled tape n, Machine.over settings code (s.holding tape n) cancelled = _ :=
    step_holding hp
  generalize s.step .remembering settings code false = r at hrule hheld
  cases hrule with
  | failed he => exact Or.inr ⟨_, he, hheld⟩
  | passed => exact Or.inl ⟨_, hheld⟩
  | skipped => exact Or.inl ⟨_, hheld⟩
  | left => exact Or.inl ⟨_, hheld⟩

/-! ## What is remembered -/

theorem closing?_leave_of_ne {o : Nat} (ho : o ≠ f.opening) :
    (s.leave f outer).closing? o = s.closing? o := by
  simp only [closing?, leave, Array.getElem?_setIfInBounds, if_neg (Ne.symm ho)]

theorem closing?_leave_self {c : Nat} (h : (s.leave f outer).closing? f.opening = some c) :
    c = s.position := by
  simp only [closing?, leave, Array.getElem?_setIfInBounds, if_true] at h
  split at h <;> cases h
  rfl

/-- The right closing brackets lie behind their opening ones. -/
theorem Consistent.forward {maxDepth : Nat} (h : s.Consistent code maxDepth) : s.Forward :=
  fun o c hc => (h.remembers o c hc).lt

namespace PassesTo

theorem refl (h : s.Forward) : s.PassesTo settings code s where
  drifts _ _ := .refl _
  le := Nat.le_refl _
  keeps _ _ := id
  outside _ _ := rfl
  forward := h

theorem trans (h : s.PassesTo settings code t) (h' : t.PassesTo settings code u) :
    s.PassesTo settings code u where
  drifts tape n := (h.drifts tape n).trans (h'.drifts tape n)
  le := Nat.le_trans h.le h'.le
  keeps o c hc := h'.keeps o c (h.keeps o c hc)
  outside o ho := (h'.outside o (Nat.lt_of_lt_of_le ho h.le)).trans (h.outside o ho)
  forward := h'.forward

/-- A step on which nothing is remembered. -/
theorem of_step (hp : s.pass = .skipping) (hw : s.Forward)
    (h : s.step .remembering settings code false = .silent t) (hlt : s.position < t.position)
    (hc : t.closings = s.closings) : s.PassesTo settings code t where
  drifts := drifts_of_step hp h
  le := Nat.le_of_lt hlt
  keeps o c := by rw [closing?, closing?, hc]; exact id
  outside o _ := by rw [closing?, closing?, hc]
  forward o c := by rw [closing?, hc]; exact hw o c

/-- Having passed over the body of a loop that has not been known, the scan leaves the loop. -/
theorem leave (hp : s.pass = .skipping) (hunknown : s.closing? s.position = none)
    (hs : s.step .remembering settings code false = .silent (s.enter .skipping))
    (h : (s.enter .skipping).PassesTo settings code t)
    (hframes : t.frames = ⟨s.position, s.level + 1, .skipping⟩ :: s.frames)
    (hg : code.glyph? t.position = some .closing) :
    s.PassesTo settings code (t.leave ⟨s.position, s.level + 1, .skipping⟩ s.frames) := by
  have hle : s.position + 1 ≤ t.position := h.le
  have hleave : (Machine.over settings code).Drifts t
      (t.leave ⟨s.position, s.level + 1, .skipping⟩ s.frames) :=
    drifts_of_step (pass_of_frames hframes) (step_of_leaving hg hframes rfl)
  refine ⟨fun tape n => ((drifts_of_step hp hs tape n).trans (h.drifts tape n)).trans
    (hleave tape n), Nat.le_succ_of_le (Nat.le_of_succ_le hle), ?keeps, ?outside, ?forward⟩
  case keeps =>
    intro o c hc
    have ho : o ≠ s.position := by rintro rfl; rw [hunknown] at hc; cases hc
    rw [closing?_leave_of_ne ho]
    exact h.keeps o c hc
  case outside =>
    intro o ho
    rw [closing?_leave_of_ne (Nat.ne_of_lt ho)]
    exact h.outside o (Nat.lt_succ_of_lt ho)
  case forward =>
    intro o c hc
    by_cases ho : o = s.position
    · subst ho
      rw [closing?_leave_self hc]
      exact hle
    · rw [closing?_leave_of_ne ho] at hc
      exact h.forward o c hc

end PassesTo

/-- A dry pass comes to its end, and to the same one on every tape. -/
theorem exists_passesTo (hf : s.frames = f :: outer) (hp : f.pass = .skipping) (hw : s.Forward) :
    ∃ t, s.PassesTo settings code t ∧ t.EndsPass settings code s.frames := by
  induction hn : code.size - s.position using Nat.strongRecOn generalizing s f outer with
  | ind n ih =>
  have hpass : s.pass = .skipping := (pass_of_frames hf).trans hp
  -- The rest of the same body lies before the scan, from a place further to the right.
  have hrest : ∀ {t}, s.PassesTo settings code t → t.frames = s.frames →
      s.position < t.position → s.position < code.size →
      ∃ u, s.PassesTo settings code u ∧ u.EndsPass settings code s.frames := by
    intro t h hframes hlt hsize
    obtain ⟨u, hu, hend⟩ :=
      ih (code.size - t.position) (by omega) (hframes.trans hf) hp h.forward rfl
    exact ⟨u, h.trans hu, hframes ▸ hend⟩
  have hrule := s.dryRule hf hp .remembering settings code false
  generalize hs : s.step .remembering settings code false = r at hrule
  cases hrule with
  | failed he => exact ⟨s, .refl hw, .failing [] _ rfl he (failsWith_of_step hpass hs)⟩
  | passed hlt hsize => exact hrest (.of_step hpass hw hs hlt rfl) rfl hlt hsize
  | left hg => exact ⟨s, .refl hw, .closing rfl hg⟩
  | skipped hg hd =>
    have hsize := Source.lt_size_of_glyph? hg
    cases hc : s.closing? s.position with
    | some c =>
      have hjump : s.step .remembering settings code false = .silent (s.goto (c + 1)) := by
        rw [hs]; simp only [Resume.remembering, skip, hc]
      have hlt := Nat.lt_succ_of_lt (hw _ c hc)
      exact hrest (.of_step hpass hw hjump hlt rfl) rfl hlt hsize
    | none =>
      -- The inner loop first, and then on behind it.
      have henter : s.step .remembering settings code false = .silent (s.enter .skipping) := by
        rw [hs]; simp only [Resume.remembering, skip, hc]
      obtain ⟨t, ht, hend⟩ := ih (code.size - (s.position + 1)) (by omega)
        (s := s.enter .skipping) rfl rfl hw rfl
      cases hend with
      | closing hframes hg' =>
        have hle : s.position + 1 ≤ t.position := ht.le
        exact hrest (ht.leave hpass hc henter hframes hg') rfl
          (Nat.lt_succ_of_lt hle) hsize
      | failing inner e hframes he hfails =>
        exact ⟨t, (PassesTo.of_step hpass hw henter (Nat.lt_succ_self _) rfl).trans ht,
          .failing (inner ++ [⟨s.position, s.level + 1, .skipping⟩]) e
            (by rw [hframes, enter, List.append_assoc]; rfl) he hfails⟩

/-! ## A loop whose body is not run -/

/-- A syntax error that is met inside a loop is not in front of it. -/
theorem Consistent.le_of_failed (h : s.Consistent code settings.maxDepth) {inner : List Frame}
    (hs : s.step .remembering settings code cancelled = .failed e t) (he : e.isSyntax = true)
    (hf : s.frames = inner ++ f :: outer) {p : Nat} (hp : e.position? = some p) :
    f.opening ≤ p := by
  obtain ⟨comment, -, hx⟩ := h.context
  rw [hf, List.map_append, List.map_cons] at hx
  have hlt : f.opening < s.position := (Source.context_opened _ hx).1
  have hrule := s.rule .remembering settings code cancelled
  rw [hs] at hrule
  generalize hr : Step.failed e t = r at hrule
  cases hrule with
  | unclosed hg hf' =>
    cases hr
    cases hp
    rw [hf] at hf'
    cases inner with
    | nil => cases hf'; exact Nat.le_refl _
    | cons g inner =>
      cases hf'
      exact Nat.le_of_lt (Source.lt_of_opened hx
        (List.mem_append_right _ (List.mem_cons_self ..)))
  | foreign => cases hr; cases hp; exact Nat.le_of_lt hlt
  | tooDeep => cases hr; cases hp; exact Nat.le_of_lt hlt
  | unopened hg hnil => rw [hf] at hnil; cases inner <;> cases hnil
  | executed => exact absurd (he.symm.trans (command_failed hr.symm)) (by decide)
  | opened => exact absurd (he.symm.trans (test_failed hr.symm)) (by decide)
  | closed => exact absurd (he.symm.trans (test_failed hr.symm)) (by decide)
  | _ => cases hr

/-- At a bracket on a zero cell all there is to a permitted step is that the body is not run. -/
theorem step_of_zero {n : Nat} (hg : code.glyph? s.position = some .opening)
    (hp : s.pass = .running) (hd : s.level < settings.maxDepth) (hz : s.tape.read = .ok 0)
    (hcharge : charge settings.control cancelled s.steps = .ok n) :
    s.step .remembering settings code cancelled = .silent (s.holding s.tape n).skip := by
  rw [step_of_opening hg hd hp, test_eq, hcharge, hz]
  rfl

end State

variable {b : Behaviour} {settings : Settings} {code : Source} {s : State} {log : List Call}
  {n : Nat}

theorem charge_ok {control : Option Control} {cancelled : Bool} {k : Nat}
    (h : charge control cancelled k = .ok n) (hcontrol : control ≠ none) : n = k + 1 := by
  unfold charge at h
  split at h
  · exact absurd rfl hcontrol
  · split at h
    · cases h
    · split at h
      · cases h; rfl
      · split at h <;> cases h
        rfl

/-- A loop that is met on a zero cell is passed over, or its defect is met. -/
theorem zero_loop (h : s.Consistent code settings.maxDepth)
    (hg : code.glyph? s.position = some .opening) (hp : s.pass = .running)
    (hd : s.level < settings.maxDepth) (hz : s.tape.read = .ok 0)
    (hcharge : charge settings.control (b.cancelled log) s.steps = .ok n) :
    s.SkipsLoop b settings code log n := by
  have htested : (Machine.over settings code).Leads b.console 1 s log
      (s.holding s.tape n).skip log :=
    Machine.leads_of_silent b.quiet (State.step_of_zero hg hp hd hz hcharge)
  have hsound : Resume.remembering.Sound code settings.maxDepth := Resume.remembering_sound
  have ht : (s.holding s.tape n).Consistent code settings.maxDepth := h.withTape s.tape n
  obtain ⟨htape, hsteps⟩ := hsound.skip_keeps ht.remembers
  rcases skip_glides hsound ht hg hd with ⟨c, hm, closings, hglides, -⟩ | ⟨hno, hdefect⟩
  · rw [htape, hsteps] at hglides
    obtain ⟨k, hk⟩ := hglides.leads b.quiet log
    exact .behind hm (htested.trans hk)
  · obtain ⟨t, inner, e, hglides, htc, hframes, htt, hts, hsyn, hfail⟩ := hdefect
    -- A loop that is known would have a closing bracket, so the body is being skipped.
    have henter : Resume.remembering.skip (s.holding s.tape n) =
        (s.holding s.tape n).enter .skipping :=
      (hsound.skip _ ht.remembers).resolve_right fun ⟨c, hm, _⟩ => hno c hm
    rw [henter] at hframes
    obtain ⟨k, hk⟩ := hglides.leads b.quiet log
    have hhalt : (Machine.over settings code).advance b.console t log =
        (.halted ⟨.error e, t⟩, log) := by
      rw [Machine.advance_eq b.quiet]
      show ((Machine.over settings code) t (b.cancelled log)).serve b.console log = _
      rw [Machine.over, hfail]
      rfl
    have hrun : (Machine.over settings code).run b.console (0 + 1 + (k + 1)) s log =
        (some ⟨.error e, t⟩, log) := by
      rw [htested.trans hk (0 + 1)]
      exact Machine.run_of_halts hhalt 0
    exact .malformed hno (htc.defect_of_failed (hfail false) hsyn)
      (fun p hpos => htc.le_of_failed (hfail false) hsyn hframes hpos) hrun
      (htt.trans htape) (hts.trans hsteps)

/-- To skip a loop has no effect. Inside a body that is skipped each step is silent or fails with
a syntax error, whatever the tape, the count of steps and the cancel flag are; so a dry pass ends,
at the closing bracket or with a syntax error, and only remembers more. A loop that a run meets on
a zero cell therefore costs one step and no call, leaves the tape as it is, and the run goes on
behind its closing bracket, or fails with the defect in its body if it has none. -/
theorem skipping_has_no_effect (settings : Settings) (code : Source) :
    (∀ s : State, s.pass = .skipping →
      (∃ t : State, ∀ cancelled tape n,
        Machine.over settings code (s.holding tape n) cancelled = .silent (t.holding tape n)) ∨
      ∃ e, e.isSyntax = true ∧ s.FailsWith settings code e) ∧
    (∀ (s : State) f outer, s.frames = f :: outer → f.pass = .skipping → s.Forward →
      ∃ t, s.PassesTo settings code t ∧ t.EndsPass settings code s.frames) ∧
    ∀ (b : Behaviour) (s : State) log, (Machine.over settings code).Reaches b.console
        (State.initial settings.capacity code) [] s log →
      s.Forward ∧ ∀ n, code.glyph? s.position = some .opening → s.pass = .running →
        s.level < settings.maxDepth → s.tape.read = .ok 0 →
        charge settings.control (b.cancelled log) s.steps = .ok n →
        (settings.control ≠ none → n = s.steps + 1) ∧ s.SkipsLoop b settings code log n := by
  refine ⟨fun s hp => State.step_of_dry hp,
    fun s f outer hf hp hw => State.exists_passesTo hf hp hw, fun b s log hreach => ?_⟩
  have h : s.Consistent code settings.maxDepth :=
    (State.Consistent.initial settings.capacity).reaches Resume.remembering_sound b.quiet hreach
  exact ⟨h.forward, fun n hg hp hd hz hcharge =>
    ⟨charge_ok hcharge, zero_loop h hg hp hd hz hcharge⟩⟩

/-- The loop takes the one step there is, and its body is looked through, but the inner one, which
has no closing bracket, makes it fail. -/
theorem malformed_loop_is_skipped :
    (Machine.over { capacity := 1, control := some ⟨some 1⟩ } (Source.ofString "[+.[-]")).Reaches
        Behaviour.mute.console (State.initial 1 (Source.ofString "[+.[-]")) []
        (State.initial 1 (Source.ofString "[+.[-]")) [] ∧
      charge (some ⟨some 1⟩) false 0 = .ok 1 ∧
      (State.initial 1 (Source.ofString "[+.[-]")).SkipsLoop .mute
        { capacity := 1, control := some ⟨some 1⟩ } (Source.ofString "[+.[-]") [] 1 ∧
      ∃ t, ((State.initial 1 (Source.ofString "[+.[-]")).enter .skipping).PassesTo
          { capacity := 1 } (Source.ofString "[+.[-]") t ∧
        t.EndsPass { capacity := 1 } (Source.ofString "[+.[-]") [⟨0, 1, .skipping⟩] := by
  obtain ⟨-, -, hrun⟩ := skipping_has_no_effect { capacity := 1, control := some ⟨some 1⟩ }
    (Source.ofString "[+.[-]")
  obtain ⟨-, hpass, -⟩ := skipping_has_no_effect { capacity := 1 } (Source.ofString "[+.[-]")
  obtain ⟨hforward, hskips⟩ := hrun .mute _ [] (.refl _ [])
  exact ⟨.refl _ [], rfl, (hskips 1 rfl rfl (by decide) rfl rfl).2,
    hpass _ ⟨0, 1, .skipping⟩ [] rfl rfl hforward⟩

/-- A malformed body is looked through once and fails; the bracket of the loop is no cause of it. -/
example : (Machine.over { capacity := 1 } (Source.ofString "[+.[x]]")).run Behaviour.mute.console 9
    (State.initial 1 (Source.ofString "[+.[x]]")) [] =
      (some ⟨.error (.unexpectedCharacter 'x' 4), ⟨4, [⟨3, 2, .skipping⟩, ⟨0, 1, .skipping⟩],
        Array.replicate 7 none, Tape.blank 1, 0⟩⟩, []) := rfl

end TapeInterpreter
