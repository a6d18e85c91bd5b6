import TapeInterpreter.Proofs.Coupling
import TapeInterpreter.Proofs.DryPass

/-!
# Remembering closing brackets is not observable

Every way of getting behind loops that keeps to the text leads to the same calls and the same
outcome. So does the plainest one, which remembers nothing and skips a body each time it has to get
behind its loop.
-/
namespace TapeInterpreter
set_option autoImplicit false

/-- Remember nothing. Every body is skipped to get behind its loop, also one that has just been run
and one that has been skipped before. -/
def Resume.rescanning : Resume where
  skip s := s.enter .skipping
  leave s _ outer := { s with position := s.position + 1, frames := outer }
  exit s f outer :=
    { s with position := f.opening + 1, frames := { f with pass := .skipping } :: outer }

variable {resume resume' : Resume} {settings : Settings} {code : Source} {maxDepth : Nat}
  {s t : State}

theorem Resume.rescanning_sound : Resume.rescanning.Sound code maxDepth where
  skip _ _ := Or.inl rfl
  leave s _ _ hr _ := ⟨s.closings, hr, rfl⟩
  exit _ _ _ := Or.inr rfl

@[simp] theorem Frame.relocate_id (f : Frame) : f.relocate id = f := rfl

@[simp] theorem Frame.map_relocate_id (frames : List Frame) :
    frames.map (Frame.relocate id) = frames :=
  List.map_id frames

/-- Two states of runs over one text that differ at most in what they remember. -/
structure SameScan (code : Source) (maxDepth : Nat) (s t : State) : Prop where
  left : s.Consistent code maxDepth
  right : t.Consistent code maxDepth
  position : s.position = t.position
  frames : s.frames = t.frames
  tape : s.tape = t.tape
  steps : s.steps = t.steps

/-- Both runs end here, with the same error. -/
def SameDefect (A B : Machine) (s t : State) : Prop :=
  ∃ e, (∀ cancelled, A s cancelled = .failed e s) ∧ (∀ cancelled, B t cancelled = .failed e t) ∧
    s.tape = t.tape ∧ s.steps = t.steps

/-- Two runs over one text that glide to the same place, or both to the defect of the text. -/
def Converge (resume resume' : Resume) (settings : Settings) (code : Source) (s t : State) : Prop :=
  ∃ s' t', (Machine.resuming resume settings code).Glides s s' ∧
    (Machine.resuming resume' settings code).Glides t t' ∧
    (SameScan code settings.maxDepth s' t' ∨
      SameDefect (.resuming resume settings code) (.resuming resume' settings code) s' t')

theorem SameScan.converge (h : SameScan code settings.maxDepth s t) :
    Converge resume resume' settings code s t :=
  ⟨s, t, .refl s, .refl t, Or.inl h⟩

theorem converge_of_glidesTo {position : Nat} {frames : List Frame} (htape : s.tape = t.tape)
    (hsteps : s.steps = t.steps)
    (hs : (Machine.resuming resume settings code).GlidesTo code settings.maxDepth s position frames)
    (ht : (Machine.resuming resume' settings code).GlidesTo code settings.maxDepth t position
      frames) :
    Converge resume resume' settings code s t := by
  obtain ⟨closings, hglides, hc⟩ := hs
  obtain ⟨closings', hglides', hc'⟩ := ht
  exact ⟨_, _, hglides, hglides', Or.inl ⟨hc, hc', rfl, rfl, htape, hsteps⟩⟩

theorem converge_of_glidesToDefect (htape : s.tape = t.tape) (hsteps : s.steps = t.steps)
    (hs : (Machine.resuming resume settings code).GlidesToDefect code settings.maxDepth s)
    (ht : (Machine.resuming resume' settings code).GlidesToDefect code settings.maxDepth t) :
    Converge resume resume' settings code s t := by
  obtain ⟨s', -, e, hglides, hc, -, htape', hsteps', hsyn, hfail⟩ := hs
  obtain ⟨t', -, e', hglides', hc', -, htape'', hsteps'', hsyn', hfail'⟩ := ht
  have he : some e = some e' :=
    (hc.defect_of_failed (hfail false) hsyn).symm.trans (hc'.defect_of_failed (hfail' false) hsyn')
  obtain rfl := Option.some.inj he
  refine ⟨s', t', hglides, hglides', Or.inr ⟨e, hfail, hfail', ?_, ?_⟩⟩
  · rw [htape', htape'', htape]
  · rw [hsteps', hsteps'', hsteps]

/-- Getting behind a loop by skipping it: both runs do, or both meet the defect in it. -/
theorem SameScan.skip (hr : resume.Sound code settings.maxDepth)
    (hr' : resume'.Sound code settings.maxDepth) (h : SameScan code settings.maxDepth s t)
    (hg : code.glyph? t.position = some .opening) (hd : t.level < settings.maxDepth) :
    Converge resume resume' settings code (resume.skip s) (resume'.skip t) := by
  obtain ⟨htape, hsteps⟩ := hr.skip_keeps h.left.remembers
  obtain ⟨htape', hsteps'⟩ := hr'.skip_keeps h.right.remembers
  have hst : (resume.skip s).tape = (resume'.skip t).tape := by rw [htape, htape', h.tape]
  have hss : (resume.skip s).steps = (resume'.skip t).steps := by rw [hsteps, hsteps', h.steps]
  have hlevel : s.level = t.level := by rw [State.level, State.level, h.frames]
  have hs := skip_glides hr h.left (h.position ▸ hg) (hlevel ▸ hd)
  have ht := skip_glides hr' h.right hg hd
  rw [h.position, h.frames] at hs
  rcases hs with ⟨c, hm, hto⟩ | ⟨hno, hdefect⟩
  · rcases ht with ⟨c', hm', hto'⟩ | ⟨hno', -⟩
    · obtain rfl := hm.unique hm'
      exact converge_of_glidesTo hst hss hto hto'
    · exact absurd hm (hno' c)
  · rcases ht with ⟨c', hm', -⟩ | ⟨-, hdefect'⟩
    · exact absurd hm' (hno c')
    · exact converge_of_glidesToDefect hst hss hdefect hdefect'

/-- Getting behind a loop that has been run for the last time. -/
theorem SameScan.exit {f : Frame} {outer : List Frame} (hr : resume.Sound code settings.maxDepth)
    (hr' : resume'.Sound code settings.maxDepth) (h : SameScan code settings.maxDepth s t)
    (hg : code.glyph? t.position = some .closing) (hf : t.frames = f :: outer) :
    Converge resume resume' settings code (resume.exit s f outer) (resume'.exit t f outer) := by
  have hgs : code.glyph? s.position = some .closing := h.position ▸ hg
  have hfs : s.frames = f :: outer := h.frames.trans hf
  obtain ⟨htape, hsteps⟩ :=
    hr.exit_keeps h.left.remembers (h.left.matches_of_closing hgs hfs)
  obtain ⟨htape', hsteps'⟩ :=
    hr'.exit_keeps h.right.remembers (h.right.matches_of_closing hg hf)
  have hs := exit_glides hr h.left hgs hfs
  rw [h.position] at hs
  apply converge_of_glidesTo _ _ hs (exit_glides hr' h.right hg hf)
  · rw [htape, htape', h.tape]
  · rw [hsteps, hsteps', h.steps]

/-- What two runs remember makes no difference to what they do next. -/
theorem coupled_of_sound (hr : resume.Sound code settings.maxDepth)
    (hr' : resume'.Sound code settings.maxDepth) :
    Coupled id resume resume' settings code code (SameScan code settings.maxDepth)
      (Converge resume resume' settings code) where
  position h _ := h.position
  frames h := by rw [Frame.map_relocate_id, h.frames]
  tape h := h.tape
  steps h := h.steps
  char h := by rw [h.position]
  charged h n := ⟨h.left.withTape _ n, h.right.withTape _ n, h.position, h.frames, h.tape, rfl⟩
  next h hg tape := by
    have hcharacter : ∀ {u : State}, u.Consistent code settings.maxDepth →
        u.position = _ → ({ u.next with tape := tape } : State).Consistent code settings.maxDepth :=
      fun hu hp => by
        rcases hg with hg | ⟨c, hg⟩
        · exact (hu.next (hp ▸ hg) (Or.inl rfl)).withTape tape _
        · exact (hu.next (hp ▸ hg) (Or.inr ⟨c, rfl⟩)).withTape tape _
    exact SameScan.converge ⟨hcharacter h.left h.position, hcharacter h.right rfl,
      congrArg (· + 1) h.position, h.frames, rfl, h.steps⟩
  comment h hg := by
    rw [h.position]
    have hs := h.left.lineEnd (h.position ▸ hg)
    rw [h.position] at hs
    exact SameScan.converge ⟨hs, h.right.lineEnd hg, rfl, h.frames, h.tape, h.steps⟩
  enter h hg hd := by
    have hlevel : _ = _ := h.left.level_eq.trans (h.frames ▸ h.right.level_eq.symm)
    refine SameScan.converge ⟨h.left.enter (h.position ▸ hg) (hlevel ▸ hd) .running,
      h.right.enter hg hd .running, congrArg (· + 1) h.position, ?_, h.tape, h.steps⟩
    simp only [State.enter, h.position, hlevel, h.frames]
  skip h hg hd := h.skip hr hr' hg hd
  leave h hg hf _ := by
    rw [Frame.map_relocate_id, Frame.relocate_id]
    have hgs := h.position ▸ hg
    have hfs := h.frames.trans hf
    obtain ⟨closings, hc, he⟩ := hr.leave _ _ _ h.left.remembers (h.left.matches_of_closing hgs hfs)
    obtain ⟨closings', hc', he'⟩ :=
      hr'.leave _ _ _ h.right.remembers (h.right.matches_of_closing hg hf)
    rw [he, he']
    exact SameScan.converge ⟨h.left.leave hgs hfs hc, h.right.leave hg hf hc',
      congrArg (· + 1) h.position, rfl, h.tape, h.steps⟩
  exit h hg hf _ := by
    rw [Frame.map_relocate_id, Frame.relocate_id]
    exact h.exit hr hr' hg hf
  restart h hg hf _ := SameScan.converge ⟨h.left.restart (h.position ▸ hg) (h.frames.trans hf),
    h.right.restart hg hf, rfl, h.frames, h.tape, h.steps⟩

/-- Sound ways of getting behind loops answer each other. -/
theorem answers_of_sound {b : Behaviour} (hr : resume.Sound code settings.maxDepth)
    (hr' : resume'.Sound code settings.maxDepth) :
    (Machine.resuming resume settings code).Answers (.resuming resume' settings code) b.console
      (Converge resume resume' settings code) (Halt.Alike id code code) := by
  apply Machine.answers_of_alike b.quiet
  rintro s t ⟨s', t', hs, ht, hsame | ⟨e, hfail, hfail', htape, hsteps⟩⟩
  · exact ⟨s', t', hs, ht, fun cancelled => (coupled_of_sound hr hr').step_alike hsame cancelled⟩
  · refine ⟨s', t', hs, ht, fun cancelled => ?_⟩
    have halike : Step.Alike id code code (Converge resume resume' settings code)
        (.failed (e.relocate id) s') (.failed e t') := .failed htape hsteps
    rw [e.relocate_id] at halike
    rw [hfail, hfail']
    exact halike

/-- Remembering closing brackets is not observable: the interpreter and the one that skips a body
each time it has to get behind its loop come to the same result, tape and count of steps, and make
the same calls, also on sources they never get behind. -/
theorem evaluates_iff_rescanning (b : Behaviour) (settings : Settings) (code : Source) :
    (∀ outcome calls, Evaluates b settings code outcome calls ↔
      (Machine.resuming .rescanning settings code).Evaluates b settings code outcome calls) ∧
    ∀ calls, Makes b settings code calls ↔
      (Machine.resuming .rescanning settings code).Makes b settings code calls := by
  have hstart : (State.initial settings.capacity code).Consistent code settings.maxDepth :=
    .initial settings.capacity
  have hanswers : (Machine.over settings code).Answers (.resuming .rescanning settings code)
      b.console _ _ := answers_of_sound Resume.remembering_sound Resume.rescanning_sound
  obtain ⟨houtcome, hcalls⟩ := hanswers.evaluates rfl
    (SameScan.converge ⟨hstart, hstart, rfl, rfl, rfl, rfl⟩)
  refine ⟨fun outcome calls => (houtcome outcome calls).trans ⟨?_, fun h => ?_⟩, hcalls⟩
  · rintro ⟨o, h, rfl⟩
    rw [o.relocate_id]
    exact h
  · exact ⟨outcome, h, outcome.relocate_id.symm⟩

end TapeInterpreter
