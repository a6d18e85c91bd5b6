import TapeInterpreter.Proofs.Consistency
import TapeInterpreter.Proofs.Run

/-!
# What skipping a loop comes to

A dry pass over a body changes nothing but the place of the run and what it remembers. It gets
behind the closing bracket of the loop, or else it ends at the first defect of the source, and then
the loop has no closing bracket.
-/
namespace TapeInterpreter
set_option autoImplicit false

/-- From `s` the machine glides to `position` with the frames `frames`, and is consistent there. -/
def Machine.GlidesTo (machine : Machine) (code : Source) (maxDepth : Nat) (s : State)
    (position : Nat) (frames : List Frame) : Prop :=
  ∃ closings,
    machine.Glides s { s with position := position, frames := frames, closings := closings } ∧
    ({ s with position := position, frames := frames, closings := closings } :
      State).Consistent code maxDepth

/-- From `s` the machine glides to a syntax error inside the loops that are open at `s`. -/
def Machine.GlidesToDefect (machine : Machine) (code : Source) (maxDepth : Nat) (s : State) :
    Prop :=
  ∃ t inner e, machine.Glides s t ∧ t.Consistent code maxDepth ∧ t.frames = inner ++ s.frames ∧
    t.tape = s.tape ∧ t.steps = s.steps ∧ e.isSyntax = true ∧
    ∀ cancelled, machine t cancelled = .failed e t

/-- From `s` the machine glides behind the closing bracket of the loop `f`, or to a defect. -/
def Machine.GlidesOver (machine : Machine) (code : Source) (maxDepth : Nat) (s : State) (f : Frame)
    (outer : List Frame) : Prop :=
  (∃ c, code.Matches maxDepth f.opening c ∧ machine.GlidesTo code maxDepth s (c + 1) outer) ∨
    machine.GlidesToDefect code maxDepth s

variable {resume : Resume} {settings : Settings} {code : Source} {maxDepth : Nat} {s t : State}
  {f : Frame} {outer frames : List Frame} {machine : Machine} {position : Nat}

namespace Machine

theorem Glides.glidesTo (h : machine.Glides s t) (htape : t.tape = s.tape)
    (hsteps : t.steps = s.steps) (ht : machine.GlidesTo code maxDepth t position frames) :
    machine.GlidesTo code maxDepth s position frames := by
  obtain ⟨closings, hglides, hc⟩ := ht
  rw [htape, hsteps] at hglides hc
  exact ⟨closings, h.trans hglides, hc⟩

theorem Glides.glidesToDefect (inner : List Frame) (h : machine.Glides s t)
    (htape : t.tape = s.tape) (hsteps : t.steps = s.steps) (hframes : t.frames = inner ++ s.frames)
    (ht : machine.GlidesToDefect code maxDepth t) : machine.GlidesToDefect code maxDepth s := by
  obtain ⟨u, inner', e, hglides, hu, hf, htu, hsu, he⟩ := ht
  refine ⟨u, inner' ++ inner, e, h.trans hglides, hu, ?_, htu.trans htape, hsu.trans hsteps, he⟩
  rw [hf, hframes, List.append_assoc]

theorem Glides.glidesOver (h : machine.Glides s t) (htape : t.tape = s.tape)
    (hsteps : t.steps = s.steps) (hframes : t.frames = s.frames)
    (ht : machine.GlidesOver code maxDepth t f outer) :
    machine.GlidesOver code maxDepth s f outer := by
  rcases ht with ⟨c, hm, hto⟩ | hdefect
  · exact Or.inl ⟨c, hm, h.glidesTo htape hsteps hto⟩
  · exact Or.inr (h.glidesToDefect [] htape hsteps hframes hdefect)

theorem Glides.of_step (h : ∀ cancelled, machine s cancelled = .silent t) : machine.Glides s t :=
  .step h (.refl t)

end Machine

/-- A dry pass gets behind the loop it is in, or comes upon a defect. -/
theorem dryPass (hr : resume.Sound code settings.maxDepth)
    (h : s.Consistent code settings.maxDepth) (hf : s.frames = f :: outer)
    (hp : f.pass = .skipping) :
    (Machine.resuming resume settings code).GlidesOver code settings.maxDepth s f outer := by
  induction hn : code.size - s.position using Nat.strongRecOn generalizing s f outer with
  | ind n ih =>
  have hstep : ∀ {r}, s.step resume settings code false = r →
      ∀ cancelled, Machine.resuming resume settings code s cancelled = r := fun hs cancelled =>
    (State.step_of_skipping ((State.pass_of_frames hf).trans hp)).trans hs
  -- The rest of the same body lies before the scan, from a place further to the right.
  have hon : ∀ {j}, s.step resume settings code false = .silent (s.goto j) → s.position < j →
      s.position < code.size →
      (Machine.resuming resume settings code).GlidesOver code settings.maxDepth s f outer := by
    intro j hs hlt hsize
    exact (Machine.Glides.of_step (hstep hs)).glidesOver rfl rfl rfl
      (ih (code.size - j) (by omega) (h.step hr (by rw [hs]; rfl)) hf hp rfl)
  have hrule := s.dryRule hf hp resume settings code false
  generalize hs : s.step resume settings code false = r at hrule
  cases hrule with
  | failed he => exact Or.inr ⟨s, [], _, .refl s, h, rfl, rfl, rfl, he, hstep hs⟩
  | passed hlt hsize => exact hon hs hlt hsize
  | left hg =>
    have hm := h.matches_of_closing hg hf
    obtain ⟨closings, hc, he⟩ := hr.leave s f outer h.remembers hm
    rw [he] at hs
    exact Or.inl ⟨s.position, hm, closings, .of_step (hstep hs), h.leave hg hf hc⟩
  | skipped hg hd =>
    have hsize := Source.lt_size_of_glyph? hg
    rcases hr.skip s h.remembers with he | ⟨c, hm, he⟩
    · -- The inner loop first, and then on behind it.
      rw [he] at hs
      have hglides := Machine.Glides.of_step (hstep hs)
      have henter := h.enter hg hd .skipping
      rcases ih (code.size - (s.position + 1)) (by omega) henter rfl rfl rfl with
        ⟨c, hm, hto⟩ | hdefect
      · obtain ⟨closings, hglides, hc⟩ := hglides.glidesTo rfl rfl hto
        have hlt : s.position < c := hm.lt
        exact hglides.glidesOver rfl rfl rfl
          (ih (code.size - (c + 1)) (by omega) hc hf hp rfl)
      · exact Or.inr (hglides.glidesToDefect [_] rfl rfl rfl hdefect)
    · rw [he] at hs
      have hlt := hm.lt
      exact hon hs (Nat.lt_succ_of_lt hlt) hsize

/-- Not running a body gets a run behind its loop, or to the first defect if the loop has no
closing bracket. -/
theorem skip_glides (hr : resume.Sound code settings.maxDepth)
    (h : s.Consistent code settings.maxDepth) (hg : code.glyph? s.position = some .opening)
    (hd : s.level < settings.maxDepth) :
    (∃ c, code.Matches settings.maxDepth s.position c ∧
      (Machine.resuming resume settings code).GlidesTo code settings.maxDepth (resume.skip s)
        (c + 1) s.frames) ∨
    (∀ c, ¬ code.Matches settings.maxDepth s.position c) ∧
      (Machine.resuming resume settings code).GlidesToDefect code settings.maxDepth
        (resume.skip s) := by
  rcases hr.skip s h.remembers with he | ⟨c, hm, he⟩
  · rw [he]
    have henter := h.enter hg hd .skipping
    rcases dryPass hr henter rfl rfl with hto | hdefect
    · exact Or.inl hto
    · refine Or.inr ⟨fun c => ?_, hdefect⟩
      obtain ⟨t, inner, e, -, ht, hframes, -, -, hsyn, hfail⟩ := hdefect
      exact ht.not_matches_of_failed (hfail false) hsyn hframes c
  · rw [he]
    exact Or.inl ⟨c, hm, s.closings, .refl _, h.jump hm⟩

/-- Having run a body for the last time gets a run behind its loop. -/
theorem exit_glides (hr : resume.Sound code settings.maxDepth)
    (h : s.Consistent code settings.maxDepth) (hg : code.glyph? s.position = some .closing)
    (hf : s.frames = f :: outer) :
    (Machine.resuming resume settings code).GlidesTo code settings.maxDepth
      (resume.exit s f outer) (s.position + 1) outer := by
  have hm := h.matches_of_closing hg hf
  rcases hr.exit s f outer with he | he
  · obtain ⟨closings, hc, hl⟩ := hr.leave s f outer h.remembers hm
    rw [he, hl]
    exact ⟨closings, .refl _, h.leave hg hf hc⟩
  · rw [he]
    have hrescan := h.rescan hg hf .skipping
    rcases dryPass hr hrescan rfl rfl with ⟨c, hm', hto⟩ | hdefect
    · obtain rfl : s.position = c := hm.unique hm'
      exact hto
    · obtain ⟨t, inner, e, -, ht, hframes, -, -, hsyn, hfail⟩ := hdefect
      exact absurd hm (ht.not_matches_of_failed (hfail false) hsyn hframes _)

end TapeInterpreter
