import TapeInterpreter.Proofs.Positions
import TapeInterpreter.Proofs.ScanTrace

/-!
# The closing brackets that are remembered are the right ones

A closing bracket is trusted wherever it is remembered, and a scan of a body is trusted to stop at
the right one. Both are decided by the text: the bracket closes the loop, and the body in between,
taken as a text of its own, has no defect as deep as it lies.
-/
namespace TapeInterpreter
set_option autoImplicit false

/-! ## The body of a loop as a text of its own -/

/-- What a character does to the inner ones of the open brackets does not depend on the outer ones,
but for how many may still be opened. -/
theorem Context.read_inner {maxDepth i n : Nat} {comment comment' : Bool}
    {inner inner' outer : List Nat} {char : Char}
    (h : Context.read ⟨comment, inner ++ outer⟩ maxDepth (i + n) char =
      .ok ⟨comment', inner' ++ outer⟩) :
    Context.read ⟨comment, inner.map (· - i)⟩ (maxDepth - outer.length) n char =
      .ok ⟨comment', inner'.map (· - i)⟩ := by
  cases comment with
  | true =>
    simp only [Context.read, if_true, Except.ok.injEq, mk.injEq, List.append_cancel_right_eq] at h ⊢
    obtain ⟨rfl, rfl⟩ := h
    exact ⟨rfl, rfl⟩
  | false =>
    simp only [Context.read, Bool.false_eq_true, if_false] at h ⊢
    generalize Glyph.ofChar char = g at h ⊢
    cases g with
    | foreign => cases h
    | opening =>
      by_cases hd : maxDepth ≤ (inner ++ outer).length
      · rw [if_pos hd] at h; cases h
      · rw [if_neg hd, ← List.cons_append] at h
        rw [List.length_append] at hd
        simp only [Except.ok.injEq, mk.injEq, List.append_cancel_right_eq] at h
        obtain ⟨rfl, rfl⟩ := h
        rw [if_neg (by rw [List.length_map]; omega), List.map_cons, Nat.add_sub_cancel_left]
    | closing =>
      cases inner with
      | nil =>
        -- One of the outer brackets would have been closed.
        cases outer with
        | nil => cases h
        | cons o outer =>
          have hlength := congrArg List.length (mk.inj (Except.ok.inj h)).2
          simp at hlength
          omega
      | cons o inner =>
        simp only [List.cons_append, Except.ok.injEq, mk.injEq, List.append_cancel_right_eq] at h
        obtain ⟨rfl, rfl⟩ := h
        rfl
    | _ =>
      simp only [Except.ok.injEq, mk.injEq, List.append_cancel_right_eq] at h
      obtain ⟨rfl, rfl⟩ := h
      rfl

namespace Source

/-- From the one bracket to the other there is a loop: both are outside comments, the second one
closes the first one, and what is between them has no defect, where no more loops may nest than the
limit leaves inside of this one and those around it. -/
structure IsLoop (code : Source) (maxDepth o c : Nat) : Prop where
  opening : code[o]? = some '[' ∧ code.inComment o = false
  closing : code[c]? = some ']' ∧ code.inComment c = false
  matching : code.Matches maxDepth o c
  body : ∃ outer, code.context maxDepth o = .ok ⟨false, outer⟩ ∧ outer.length < maxDepth ∧
    Source.defect? (code.extract (o + 1) c) (maxDepth - (outer.length + 1)) = none

variable {code : Source} {maxDepth i j n o c : Nat}

/-- Where some brackets stay open, a stretch of the text is read in the same context as in the
text, but for these brackets. -/
theorem context_extract {outer : List Nat} (hi : code.context maxDepth i = .ok ⟨false, outer⟩)
    (hopen : ∀ k, i ≤ k → k ≤ i + n → ∃ comment inner,
      code.context maxDepth k = .ok ⟨comment, inner ++ outer⟩)
    (hn : i + n ≤ j) (hj : j ≤ code.size) :
    ∃ comment inner, code.context maxDepth (i + n) = .ok ⟨comment, inner ++ outer⟩ ∧
      Source.context (code.extract i j) (maxDepth - outer.length) n =
        .ok ⟨comment, inner.map (· - i)⟩ := by
  induction n with
  | zero => exact ⟨false, [], hi, rfl⟩
  | succ n ih =>
    obtain ⟨comment, inner, hx, hslice⟩ := ih (fun k hk hkn => hopen k hk (by omega)) (by omega)
    obtain ⟨comment', inner', hy⟩ := hopen (i + (n + 1)) (by omega) (Nat.le_refl _)
    have hlt : i + n < code.size := by omega
    have hchar : code[i + n]? = some code[i + n] := Array.getElem?_eq_getElem hlt
    have hchar' : (code.extract i j)[n]? = some code[i + n] := by
      rw [Array.getElem?_extract, if_pos (by omega), hchar]
    refine ⟨comment', inner', hy, ?_⟩
    rw [context_succ hslice hchar']
    rw [← Nat.add_assoc, context_succ hx hchar] at hy
    exact Context.read_inner hy

/-- The body of a loop, as a text of its own, has no defect. -/
theorem Matches.defect?_body {outer : List Nat} (h : code.Matches maxDepth o c)
    (ho : code.context maxDepth o = .ok ⟨false, outer⟩) :
    Source.defect? (code.extract (o + 1) c) (maxDepth - (outer.length + 1)) = none := by
  obtain ⟨hg, outer', hc⟩ := id h
  obtain ⟨hlt, hgo, hd, ho'⟩ := context_opened [] hc
  obtain ⟨-, rfl⟩ := Context.mk.inj (Except.ok.inj (ho.symm.trans ho'))
  obtain ⟨n, rfl⟩ := Nat.exists_eq_add_of_le (Nat.succ_le_of_lt hlt)
  have hsize := Nat.le_of_lt (lt_size_of_glyph? hg)
  obtain ⟨comment, inner, hx, hslice⟩ := context_extract (context_succ_opening ho hgo hd)
    (fun k hk hkc => context_between [] hc hk hkc) (Nat.le_refl _) hsize
  -- At the closing bracket none of the brackets in the body is open.
  have hnone : inner = [] := by
    have hopened := (Context.mk.inj (Except.ok.inj (hx.symm.trans hc))).2
    exact List.append_cancel_right hopened
  rw [hnone] at hslice
  refine defect?_of_context_end ?_ hslice
  rw [Array.size_extract]
  omega

theorem Matches.isLoop (h : code.Matches maxDepth o c) : code.IsLoop maxDepth o c := by
  obtain ⟨hg, outer, hc⟩ := id h
  obtain ⟨-, hgo, hd, ho⟩ := context_opened [] hc
  exact ⟨⟨char_of_glyph? hgo rfl, inComment_of_context ho⟩,
    ⟨char_of_glyph? hg rfl, inComment_of_context hc⟩, h, outer, ho, hd, h.defect?_body ho⟩

end Source

/-! ## The scans -/

/-- The text decides the level of a scan by where it starts, and where it ends. -/
def ScanEvent.Fits (code : Source) (maxDepth : Nat) : ScanEvent → Prop
  | .started scan => ∃ opened, code.context maxDepth scan.start = .ok ⟨false, opened⟩ ∧
      opened.length = scan.level
  | .returned scan p =>
      (0 < scan.level → ∃ o, scan.start = o + 1 ∧ code.IsLoop maxDepth o p) ∧
      (scan.level = 0 → p = code.size)

namespace State.Consistent

variable {code : Source} {maxDepth : Nat} {s : State} {event : ScanEvent}

theorem scan_level (h : s.Consistent code maxDepth) : s.scan.level = s.frames.length := by
  rw [← h.level_eq, scan, level]
  cases s.frames <;> rfl

/-- A scan starts outside comments, inside as many loops as its level says. -/
theorem fits_started (h : s.Consistent code maxDepth) (hstart : s.position = s.scan.start) :
    (ScanEvent.started s.scan).Fits code maxDepth := by
  obtain ⟨comment, hend, hx⟩ := h.context
  refine ⟨s.frames.map Frame.opening, ?_, by rw [List.length_map, h.scan_level]⟩
  rw [← hstart, hx]
  cases comment with
  | false => rfl
  | true =>
    -- The text is not over there, for the opening bracket is right in front.
    have hend : code.size < s.scan.start := hstart ▸ hend rfl
    obtain ⟨o, ho⟩ := Nat.exists_eq_add_one_of_ne_zero (Nat.ne_of_gt (Nat.zero_lt_of_lt hend))
    have hlt := Source.lt_size_of_glyph? (h.of_open (mem_of_start ho)).2
    rw [ho] at hend
    exact absurd hlt (Nat.not_lt.mpr (Nat.le_of_lt_succ hend))

/-- A scan of a body ends at the closing bracket of its loop, and that of the text behind it. -/
theorem fits_returned (h : s.Consistent code maxDepth) {p : Nat} (hp : s.returns? code = some p) :
    (ScanEvent.returned s.scan p).Fits code maxDepth := by
  have hlevel := h.scan_level
  rcases returns_of_eq_some hp with ⟨hf, rfl⟩ | ⟨f, outer, hf, hg, rfl⟩
  · rw [hf] at hlevel
    exact ⟨fun hpos => absurd hlevel (Nat.ne_of_gt hpos), fun _ => rfl⟩
  · rw [hf] at hlevel
    refine ⟨fun _ => ⟨f.opening, by rw [scan, hf], (h.matches_of_closing hg hf).isLoop⟩, ?_⟩
    intro hzero
    cases hlevel.symm.trans hzero

theorem fits (h : s.Consistent code maxDepth) (hevent : event ∈ s.scanEvents code) :
    event.Fits code maxDepth := by
  rcases mem_scanEvents.mp hevent with ⟨hstart, rfl⟩ | ⟨p, hp, rfl⟩
  · exact h.fits_started hstart
  · exact h.fits_returned hp

end State.Consistent

/-- What is remembered, and what scans of bodies come to, is decided by the text. Wherever an
evaluation gets to, each closing bracket that it remembers is the end of the loop at its opening
bracket. Each scan that it starts is at the level of its place in the text, and each scan of a body
that does not fail stops at the closing bracket of the loop, be it run or skipped. -/
theorem remembered_closings_are_right (b : Behaviour) (settings : Settings) (code : Source) :
    (∀ s log, (Machine.over settings code).Reaches b.console
      (State.initial settings.capacity code) [] s log →
        ∀ o c, s.closing? o = some c → code.IsLoop settings.maxDepth o c) ∧
    ∀ patience, ∀ event ∈ scanTrace b settings code patience,
      event.Fits code settings.maxDepth := by
  have hconsistent : ∀ {s log}, (Machine.over settings code).Reaches b.console
      (State.initial settings.capacity code) [] s log → s.Consistent code settings.maxDepth :=
    fun hreach => (State.Consistent.initial settings.capacity).reaches Resume.remembering_sound
      b.quiet hreach
  refine ⟨fun s log hreach o c hc => ((hconsistent hreach).remembers o c hc).isLoop,
    fun patience event hevent => ?_⟩
  obtain ⟨s, log, hreach, hevent⟩ := exists_of_mem_scanTrace hevent
  exact (hconsistent hreach).fits hevent

end TapeInterpreter
