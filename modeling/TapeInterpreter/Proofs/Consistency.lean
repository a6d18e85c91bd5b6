import TapeInterpreter.Proofs.Run

/-!
# The open loops of a run are those of the text

Whatever a run has done so far, the frames of its state are the brackets that the text leaves open
at its position, and every closing bracket it remembers is the right one. Each way of getting
behind a loop that keeps to the text preserves this.
-/
namespace TapeInterpreter
set_option autoImplicit false

/-- The innermost of `n` frames lies at level `n`, and so on outwards. -/
def Leveled : List Frame → Prop
  | [] => True
  | f :: outer => f.level = outer.length + 1 ∧ Leveled outer

/-- Every closing bracket that is remembered belongs to its opening bracket. -/
def Remembers (code : Source) (maxDepth : Nat) (closings : Array (Option Nat)) : Prop :=
  ∀ o c, closings[o]?.join = some c → code.Matches maxDepth o c

namespace State

structure Consistent (code : Source) (maxDepth : Nat) (s : State) : Prop where
  context : code.OpenAt maxDepth s.position (s.frames.map Frame.opening)
  leveled : Leveled s.frames
  remembers : Remembers code maxDepth s.closings

end State

/-- Getting behind loops by what the text says: a body is passed over at once only to its own
closing bracket, and else by a scan. -/
structure Resume.Sound (resume : Resume) (code : Source) (maxDepth : Nat) : Prop where
  skip (s : State) : Remembers code maxDepth s.closings →
    resume.skip s = s.enter .skipping ∨
      ∃ c, code.Matches maxDepth s.position c ∧ resume.skip s = s.goto (c + 1)
  leave (s : State) (f : Frame) (outer : List Frame) : Remembers code maxDepth s.closings →
    code.Matches maxDepth f.opening s.position →
    ∃ closings, Remembers code maxDepth closings ∧ resume.leave s f outer =
      { s with position := s.position + 1, frames := outer, closings := closings }
  exit (s : State) (f : Frame) (outer : List Frame) :
    resume.exit s f outer = resume.leave s f outer ∨ resume.exit s f outer =
      { s with position := f.opening + 1, frames := { f with pass := .skipping } :: outer }

variable {resume : Resume} {code : Source} {maxDepth : Nat} {s t : State} {f : Frame}
  {outer : List Frame}

theorem Remembers.replicate (n : Nat) : Remembers code maxDepth (Array.replicate n none) := by
  intro o c h
  rw [Array.getElem?_replicate] at h
  split at h <;> cases h

theorem Remembers.set {closings : Array (Option Nat)} {opening closing : Nat}
    (h : Remembers code maxDepth closings) (hm : code.Matches maxDepth opening closing) :
    Remembers code maxDepth (closings.setIfInBounds opening (some closing)) := by
  intro o c hc
  rw [Array.getElem?_setIfInBounds] at hc
  split at hc
  · rename_i ho
    split at hc
    · cases hc
      exact ho ▸ hm
    · cases hc
  · exact h o c hc

/-- Remembering closing brackets is sound. -/
theorem Resume.remembering_sound : Resume.remembering.Sound code maxDepth where
  skip s hr := by
    cases hc : s.closing? s.position with
    | none => exact Or.inl (by simp only [remembering, State.skip, hc])
    | some c => exact Or.inr ⟨c, hr _ c hc, by simp only [remembering, State.skip, hc]⟩
  leave s f outer hr hm := ⟨_, hr.set hm, rfl⟩
  exit s f outer := Or.inl rfl

/-- To get behind a loop costs nothing. -/
theorem Resume.Sound.skip_keeps (h : resume.Sound code maxDepth)
    (hr : Remembers code maxDepth s.closings) :
    (resume.skip s).tape = s.tape ∧ (resume.skip s).steps = s.steps := by
  rcases h.skip s hr with he | ⟨c, -, he⟩
  · rw [he]; exact ⟨rfl, rfl⟩
  · rw [he]; exact ⟨rfl, rfl⟩

theorem Resume.Sound.exit_keeps (h : resume.Sound code maxDepth)
    (hr : Remembers code maxDepth s.closings) (hm : code.Matches maxDepth f.opening s.position) :
    (resume.exit s f outer).tape = s.tape ∧ (resume.exit s f outer).steps = s.steps := by
  rcases h.exit s f outer with he | he
  · obtain ⟨closings, -, hl⟩ := h.leave s f outer hr hm
    rw [he, hl]
    exact ⟨rfl, rfl⟩
  · rw [he]; exact ⟨rfl, rfl⟩

namespace State.Consistent

theorem level_eq (h : s.Consistent code maxDepth) : s.level = s.frames.length := by
  have hl := h.leveled
  unfold level
  split
  · rename_i hf
    rw [hf]; rfl
  · rename_i f outer hf
    rw [hf] at hl ⊢
    exact hl.1

theorem context_of_glyph {g : Glyph} (h : s.Consistent code maxDepth)
    (hg : code.glyph? s.position = some g) :
    code.context maxDepth s.position = .ok ⟨false, s.frames.map Frame.opening⟩ :=
  h.context.context hg

theorem context_of_frame {g : Glyph} (h : s.Consistent code maxDepth)
    (hg : code.glyph? s.position = some g) (hf : s.frames = f :: outer) :
    code.context maxDepth s.position = .ok ⟨false, f.opening :: outer.map Frame.opening⟩ := by
  rw [h.context_of_glyph hg, hf]; rfl

/-- At a closing bracket the innermost open loop ends. -/
theorem matches_of_closing (h : s.Consistent code maxDepth)
    (hg : code.glyph? s.position = some .closing) (hf : s.frames = f :: outer) :
    code.Matches maxDepth f.opening s.position :=
  ⟨hg, _, h.context_of_frame hg hf⟩

theorem next (h : s.Consistent code maxDepth) {g : Glyph}
    (hg : code.glyph? s.position = some g) (hb : g = .blank ∨ ∃ c, g = .command c) :
    s.next.Consistent code maxDepth :=
  ⟨h.context.next hg hb, h.leveled, h.remembers⟩

theorem lineEnd (h : s.Consistent code maxDepth) (hg : code.glyph? s.position = some .comment) :
    (s.goto (code.lineEnd s.position + 1)).Consistent code maxDepth :=
  ⟨h.context.lineEnd hg, h.leveled, h.remembers⟩

theorem enter (h : s.Consistent code maxDepth) (hg : code.glyph? s.position = some .opening)
    (hd : s.level < maxDepth) (pass : Pass) : (s.enter pass).Consistent code maxDepth := by
  rw [h.level_eq] at hd
  have hopening := Source.context_succ_opening (h.context_of_glyph hg) hg (by rwa [List.length_map])
  exact ⟨Source.openAt_of_context hopening, ⟨congrArg (· + 1) h.level_eq, h.leveled⟩, h.remembers⟩

/-- Behind its closing bracket a loop is no longer open. -/
theorem leave (h : s.Consistent code maxDepth) (hg : code.glyph? s.position = some .closing)
    (hf : s.frames = f :: outer) {closings : Array (Option Nat)}
    (hc : Remembers code maxDepth closings) :
    ({ s with position := s.position + 1, frames := outer, closings := closings } :
      State).Consistent code maxDepth := by
  have hl := h.leveled
  rw [hf] at hl
  have hclosing := Source.context_succ_closing (h.context_of_frame hg hf) hg
  exact ⟨Source.openAt_of_context hclosing, hl.2, hc⟩

/-- The body of an open loop may be scanned once more. -/
theorem rescan (h : s.Consistent code maxDepth) (hg : code.glyph? s.position = some .closing)
    (hf : s.frames = f :: outer) (pass : Pass) :
    ({ s with position := f.opening + 1, frames := { f with pass := pass } :: outer } :
      State).Consistent code maxDepth := by
  have hl := h.leveled
  rw [hf] at hl
  obtain ⟨-, hgo, hd, ho⟩ := Source.context_opened [] (h.context_of_frame hg hf)
  have hopening := Source.context_succ_opening ho hgo hd
  exact ⟨Source.openAt_of_context hopening, hl, h.remembers⟩

theorem restart (h : s.Consistent code maxDepth) (hg : code.glyph? s.position = some .closing)
    (hf : s.frames = f :: outer) : (s.goto (f.opening + 1)).Consistent code maxDepth := by
  have hr := h.rescan hg hf f.pass
  rw [← hf] at hr
  exact hr

theorem jump {c : Nat} (h : s.Consistent code maxDepth) (hm : code.Matches maxDepth s.position c) :
    (s.goto (c + 1)).Consistent code maxDepth := by
  obtain ⟨comment, -, hx⟩ := h.context
  exact ⟨Source.openAt_of_context (hm.context_succ hx), h.leveled, h.remembers⟩

/-- Where a run stands does not depend on its tape or its count of steps. -/
theorem withTape (h : s.Consistent code maxDepth) (tape : Tape) (n : Nat) :
    ({ s with tape := tape, steps := n } : State).Consistent code maxDepth :=
  ⟨h.context, h.leveled, h.remembers⟩

theorem initial (capacity : Nat) : (State.initial capacity code).Consistent code maxDepth :=
  ⟨Source.openAt_of_context rfl, trivial, Remembers.replicate code.size⟩

theorem skip (hr : resume.Sound code maxDepth) (h : s.Consistent code maxDepth)
    (hg : code.glyph? s.position = some .opening) (hd : s.level < maxDepth) :
    (resume.skip s).Consistent code maxDepth := by
  rcases hr.skip s h.remembers with he | ⟨c, hm, he⟩
  · rw [he]; exact h.enter hg hd .skipping
  · rw [he]; exact h.jump hm

theorem resumeLeave (hr : resume.Sound code maxDepth) (h : s.Consistent code maxDepth)
    (hg : code.glyph? s.position = some .closing) (hf : s.frames = f :: outer) :
    (resume.leave s f outer).Consistent code maxDepth := by
  obtain ⟨closings, hc, he⟩ := hr.leave s f outer h.remembers (h.matches_of_closing hg hf)
  rw [he]
  exact h.leave hg hf hc

theorem resumeExit (hr : resume.Sound code maxDepth) (h : s.Consistent code maxDepth)
    (hg : code.glyph? s.position = some .closing) (hf : s.frames = f :: outer) :
    (resume.exit s f outer).Consistent code maxDepth := by
  rcases hr.exit s f outer with he | he
  · rw [he]; exact h.resumeLeave hr hg hf
  · rw [he]; exact h.rescan hg hf .skipping

/-- Every step keeps a run consistent with the text. -/
theorem step {settings : Settings} {cancelled : Bool}
    (hr : resume.Sound code settings.maxDepth) (h : s.Consistent code settings.maxDepth)
    (hn : (s.step resume settings code cancelled).next? = some t) :
    t.Consistent code settings.maxDepth := by
  cases moveRule hn with
  | blank hg => exact h.next hg (Or.inl rfl)
  | comment hg => exact h.lineEnd hg
  | passed hg => exact h.next hg (Or.inr ⟨_, rfl⟩)
  | executed hg => exact (h.next hg (Or.inr ⟨_, rfl⟩)).withTape _ _
  | skipped hg hd => exact (h.withTape s.tape _).skip hr hg hd
  | @entered n hg hd => exact (h.withTape s.tape n).enter hg hd .running
  | left hg hf => exact h.resumeLeave hr hg hf
  | exited hg hf => exact (h.withTape s.tape _).resumeExit hr hg hf
  | repeated hg hf => exact (h.withTape s.tape _).restart hg hf

/-- So does the console's answer to it. -/
theorem advance {σ : Type} {console : Console (StateM σ)} {w v : σ} {settings : Settings}
    (hr : resume.Sound code settings.maxDepth) (hq : console.Quiet)
    (h : s.Consistent code settings.maxDepth)
    (ha : (Machine.resuming resume settings code).advance console s w = (.running t, v)) :
    t.Consistent code settings.maxDepth := by
  obtain ⟨u, hu, tape, rfl⟩ := (Machine.advance_served hq ha).next
  exact (h.step hr hu).withTape tape u.steps

theorem reaches {σ : Type} {console : Console (StateM σ)} {w v : σ} {settings : Settings}
    (hr : resume.Sound code settings.maxDepth) (hq : console.Quiet)
    (h : s.Consistent code settings.maxDepth)
    (hreach : (Machine.resuming resume settings code).Reaches console s w t v) :
    t.Consistent code settings.maxDepth :=
  hreach.preserves (P := fun s _ => s.Consistent code settings.maxDepth)
    (fun _ _ _ _ hs ha => hs.advance hr hq ha) h

/-! ## Verdicts -/

/-- A syntax error is reported where the scan from the left cannot go on, or at the end. -/
theorem syntax_failed {settings : Settings} {cancelled : Bool} {e : EvalError}
    (h : s.Consistent code settings.maxDepth)
    (hs : s.step resume settings code cancelled = .failed e t) (he : e.isSyntax = true) :
    code.context settings.maxDepth (s.position + 1) = .error e ∨
      (code.size ≤ s.position ∧ ∃ f outer, s.frames = f :: outer ∧
        e = .unmatched .opening f.opening) := by
  have hrule := s.rule resume settings code cancelled
  rw [hs] at hrule
  generalize hr : Step.failed e t = r at hrule
  cases hrule with
  | unclosed hg hf =>
    cases hr
    exact Or.inr ⟨Source.glyph?_eq_none_iff.mp hg, _, _, hf, rfl⟩
  | foreign hc hg =>
    cases hr
    have hglyph : code.glyph? s.position = some .foreign := by rw [Source.glyph?, hc, ← hg]; rfl
    left
    rw [Source.context_succ (h.context_of_glyph hglyph) hc, Context.read,
      if_neg Bool.false_ne_true, hg]
  | executed => exact absurd (he.symm.trans (command_failed hr.symm)) (by decide)
  | tooDeep hg hd =>
    cases hr
    obtain ⟨c, hc, hgc⟩ := Source.exists_of_glyph? hg
    rw [h.level_eq] at hd
    left
    rw [Source.context_succ (h.context_of_glyph hg) hc, Context.read, if_neg Bool.false_ne_true,
      hgc]
    exact if_pos (by rwa [List.length_map])
  | opened => exact absurd (he.symm.trans (test_failed hr.symm)) (by decide)
  | unopened hg hf =>
    cases hr
    obtain ⟨c, hc, hgc⟩ := Source.exists_of_glyph? hg
    have hx := h.context_of_glyph hg
    rw [hf] at hx
    left
    rw [Source.context_succ hx hc, Context.read, if_neg Bool.false_ne_true, hgc]
    rfl
  | closed => exact absurd (he.symm.trans (test_failed hr.symm)) (by decide)
  | _ => cases hr

/-- A syntax error that a run meets is the first defect of the text. -/
theorem defect_of_failed {settings : Settings} {cancelled : Bool} {e : EvalError}
    (h : s.Consistent code settings.maxDepth)
    (hs : s.step resume settings code cancelled = .failed e t) (he : e.isSyntax = true) :
    code.defect? settings.maxDepth = some e := by
  rcases h.syntax_failed hs he with hx | ⟨hend, f, outer, hf, rfl⟩
  · exact Source.defect?_of_context_error hx
  · obtain ⟨comment, -, hx⟩ := h.context
    rw [Source.defect?_of_context_end hend hx, hf]
    rfl

/-- None of the loops that are open at a syntax error has a closing bracket. -/
theorem not_matches_of_failed {settings : Settings} {cancelled : Bool} {e : EvalError}
    {inner : List Frame} (h : s.Consistent code settings.maxDepth)
    (hs : s.step resume settings code cancelled = .failed e t) (he : e.isSyntax = true)
    (hf : s.frames = inner ++ f :: outer) (c : Nat) :
    ¬ code.Matches settings.maxDepth f.opening c := by
  obtain ⟨comment, -, hx⟩ := h.context
  rw [hf, List.map_append, List.map_cons] at hx
  rcases h.syntax_failed hs he with herror | ⟨hend, -⟩
  · exact Source.not_matches_of_error hx herror
  · exact Source.not_matches_of_end hx hend

/-- A run that gets behind the source has met no defect. -/
theorem defect_of_finished {settings : Settings} {cancelled : Bool} {position : Nat}
    (h : s.Consistent code settings.maxDepth)
    (hs : s.step resume settings code cancelled = .finished position t) :
    position = code.size ∧ code.defect? settings.maxDepth = none := by
  obtain ⟨hp, hg, hf⟩ := step_finished hs
  obtain ⟨comment, -, hx⟩ := h.context
  rw [Source.defect?_of_context_end (Source.glyph?_eq_none_iff.mp hg) hx, hf]
  exact ⟨hp, rfl⟩

end State.Consistent

end TapeInterpreter
