import TapeInterpreter.Proofs.Placement
import TapeInterpreter.Proofs.ScanTrace

/-!
# No body is skipped twice

A body is skipped only where its closing bracket is not known and its loop is not open. From the
first scan of a body on, one of the two holds: the loop is open for as long as its body is scanned,
and where it is left its closing bracket is remembered, for good. So a scan that skips a body is the
first one of this body, and there is no second one like it.
-/
namespace TapeInterpreter
set_option autoImplicit false

namespace State

/-- What a step from `s` to `t` does to the scans: it goes on with the innermost one, it starts one
at an opening bracket, it starts the body of a running loop once more, or it leaves a loop. -/
inductive Turn (code : Source) (s t : State) : Prop
  | on (hframes : t.frames = s.frames) (hclosings : t.closings = s.closings)
      (hstart : t.position ≠ t.scan.start)
  | entered (pass : Pass) (hg : code.glyph? s.position = some .opening)
      (hnew : pass = .skipping → s.closing? s.position = none)
      (hframes : t.frames = ⟨s.position, s.level + 1, pass⟩ :: s.frames)
      (hclosings : t.closings = s.closings)
  | repeated {f : Frame} {outer : List Frame} (hf : s.frames = f :: outer)
      (hp : f.pass = .running) (hframes : t.frames = s.frames) (hclosings : t.closings = s.closings)
  | left {f : Frame} {outer : List Frame} (hf : s.frames = f :: outer) (hframes : t.frames = outer)
      (hclosings : t.closings = s.closings.setIfInBounds f.opening (some s.position))
      (hstart : t.position ≠ t.scan.start)

/-- The loop at `o` is open, or its closing bracket is known. -/
def Settled (s : State) (o : Nat) : Prop :=
  o ∈ s.frames.map Frame.opening ∨ ∃ c, s.closing? o = some c

/-- The body of the loop at `o` is about to be skipped. -/
def StartsToSkip (s : State) (o : Nat) : Prop :=
  s.position = s.scan.start ∧ s.scan.start = o + 1 ∧ s.scan.pass = .skipping

variable {settings : Settings} {code : Source} {maxDepth : Nat} {cancelled : Bool} {s t : State}
  {o p : Nat}

/-- Behind any character but an opening bracket no scan starts. -/
theorem Consistent.not_start {g : Option Glyph} (h : t.Consistent code maxDepth)
    (hp : t.position = p + 1) (hg : code.glyph? p = g) (hne : g ≠ some .opening) :
    t.position ≠ t.scan.start := fun hstart =>
  hne (hg.symm.trans (h.of_open (mem_of_start (hstart.symm.trans hp))).2)

/-- At a loop that is not run: past it if its closing bracket is known, else into its body. -/
theorem turn_of_skip (h : s.Consistent code maxDepth)
    (hg : code.glyph? s.position = some .opening) (n : Nat) :
    s.Turn code { s with steps := n }.skip := by
  have hclosing : ({ s with steps := n } : State).closing? s.position = s.closing? s.position := rfl
  unfold skip
  rw [hclosing]
  cases hc : s.closing? s.position with
  | none => exact .entered .skipping hg (fun _ => hc) rfl rfl
  | some c =>
    have hm := h.remembers s.position c hc
    have hjump := (h.withTape s.tape n).jump hm
    exact .on rfl rfl (hjump.not_start rfl hm.1 nofun)

theorem turn_of_step (h : s.Consistent code settings.maxDepth)
    (hn : (s.step .remembering settings code cancelled).next? = some t) : s.Turn code t := by
  have ht := h.step Resume.remembering_sound hn
  cases moveRule hn with
  | blank hg => exact .on rfl rfl (ht.not_start rfl hg nofun)
  | comment hg =>
    -- What is in front of `t` is a line break, or the text is over before that.
    rcases code.lineEnd_stops s.position with hc | hend
    · exact .on rfl rfl (ht.not_start rfl (congrArg (Option.map Glyph.ofChar) hc) nofun)
    · exact .on rfl rfl (ht.not_start rfl (Source.glyph?_eq_none_iff.mpr hend) nofun)
  | passed hg => exact .on rfl rfl (ht.not_start rfl hg nofun)
  | executed hg => exact .on rfl rfl (ht.not_start rfl hg nofun)
  | skipped hg => exact turn_of_skip h hg _
  | entered hg => exact .entered .running hg nofun rfl rfl
  | left hg hf => exact .left hf rfl rfl (ht.not_start rfl hg nofun)
  | exited hg hf => exact .left hf rfl rfl (ht.not_start rfl hg nofun)
  | repeated hg hf hp => exact .repeated hf hp rfl rfl

theorem Turn.withTape (h : s.Turn code t) (tape : Tape) : s.Turn code { t with tape := tape } := by
  cases h with
  | on hframes hclosings hstart => exact .on hframes hclosings hstart
  | entered pass hg hnew hframes hclosings => exact .entered pass hg hnew hframes hclosings
  | repeated hf hp hframes hclosings => exact .repeated hf hp hframes hclosings
  | left hf hframes hclosings hstart => exact .left hf hframes hclosings hstart

theorem Turn.room (h : s.Turn code t) (hroom : s.closings.size = code.size) :
    t.closings.size = code.size := by
  cases h with
  | left hf hframes hclosings => rw [hclosings, Array.size_setIfInBounds, hroom]
  | on hframes hclosings => rw [hclosings, hroom]
  | entered pass hg hnew hframes hclosings => rw [hclosings, hroom]
  | repeated hf hp hframes hclosings => rw [hclosings, hroom]

/-- A loop that is open or known stays so. -/
theorem Turn.settled (h : s.Turn code t) (hc : s.Consistent code maxDepth)
    (hroom : s.closings.size = code.size) (ho : s.Settled o) : t.Settled o := by
  unfold Settled closing? at ho ⊢
  cases h with
  | on hframes hclosings => rwa [hframes, hclosings]
  | repeated hf hp hframes hclosings => rwa [hframes, hclosings]
  | entered pass hg hnew hframes hclosings =>
    rw [hframes, hclosings]
    exact ho.imp (List.mem_cons_of_mem s.position) id
  | @left f outer hf hframes hclosings =>
    have hopening := (hc.of_open (hf ▸ List.mem_cons_self : f.opening ∈ _)).2
    have hlt : f.opening < s.closings.size := hroom ▸ Source.lt_size_of_glyph? hopening
    rw [hframes, hclosings, closing?_set _ _ _ _ hlt]
    by_cases hfo : f.opening = o
    · exact Or.inr ⟨s.position, if_pos hfo⟩
    · rw [if_neg hfo]
      refine ho.imp_left fun hmem => ?_
      rw [hf] at hmem
      exact (List.mem_cons.mp hmem).resolve_left (Ne.symm hfo)

/-- A loop whose body is about to be skipped was neither open nor known a step before. -/
theorem Turn.not_settled (h : s.Turn code t) (hc : s.Consistent code maxDepth)
    (ho : t.StartsToSkip o) : ¬ s.Settled o := by
  obtain ⟨hposition, hstart, hpass⟩ := ho
  cases h with
  | on hframes hclosings hne => exact absurd hposition hne
  | left hf hframes hclosings hne => exact absurd hposition hne
  | repeated hf hp hframes =>
    rw [scan, hframes, hf] at hpass
    cases hp.symm.trans hpass
  | entered pass hg hnew hframes =>
    rw [scan, hframes] at hstart hpass
    obtain rfl : s.position = o := Nat.succ.inj hstart
    -- An open loop has been entered further to the left, and a known one would be jumped over.
    rintro (hmem | ⟨c, hclosing⟩)
    · exact absurd (hc.of_open hmem).1 (Nat.lt_irrefl _)
    · cases (hnew hpass).symm.trans hclosing

/-! ## Runs -/

/-- A consistent state with room for the closing bracket of every loop. -/
structure Roomy (code : Source) (maxDepth : Nat) (s : State) : Prop
    extends s.Consistent code maxDepth where
  room : s.closings.size = code.size

namespace Roomy

variable {σ : Type} {console : Console (StateM σ)} {w v : σ}

theorem initial (capacity : Nat) : (State.initial capacity code).Roomy code maxDepth :=
  ⟨.initial capacity, Array.size_replicate⟩

theorem advance (hq : console.Quiet) (h : s.Roomy code settings.maxDepth)
    (ha : (Machine.over settings code).advance console s w = (.running t, v)) :
    s.Turn code t ∧ t.Roomy code settings.maxDepth := by
  obtain ⟨u, hu, tape, rfl⟩ := (Machine.advance_served hq ha).next
  have hturn := (turn_of_step h.toConsistent hu).withTape tape
  exact ⟨hturn, h.toConsistent.advance Resume.remembering_sound hq ha, hturn.room h.room⟩

/-- Once a loop is open or known, nowhere on its way does a run start to skip its body. -/
theorem not_startsToSkip (hq : console.Quiet) {n : Nat} (h : s.Roomy code settings.maxDepth)
    (ho : s.Settled o) (hs : ¬ s.StartsToSkip o) :
    ∀ u ∈ (Machine.over settings code).visited console n s w, ¬ u.StartsToSkip o := by
  induction n generalizing s w with
  | zero => exact nofun
  | succ n ih =>
    refine List.forall_mem_cons.mpr ⟨hs, ?_⟩
    rcases ha : (Machine.over settings code).advance console s w with ⟨t | halt, v⟩
    · obtain ⟨hturn, ht⟩ := h.advance hq ha
      exact ih ht (hturn.settled h.toConsistent h.room ho)
        (fun hstart => hturn.not_settled h.toConsistent hstart ho)
    · exact nofun

/-- Neither does it from any of the states that it visits on. -/
theorem pairwise_visited (hq : console.Quiet) (n o : Nat) (h : s.Roomy code settings.maxDepth) :
    ((Machine.over settings code).visited console n s w).Pairwise
      fun t u => t.Settled o → ¬ u.StartsToSkip o := by
  induction n generalizing s w with
  | zero => exact .nil
  | succ n ih =>
    rw [Machine.visited]
    rcases ha : (Machine.over settings code).advance console s w with ⟨t | halt, v⟩
    · obtain ⟨hturn, ht⟩ := h.advance hq ha
      refine .cons (fun u hu ho => ?_) (ih ht)
      exact ht.not_startsToSkip hq (hturn.settled h.toConsistent h.room ho)
        (fun hstart => hturn.not_settled h.toConsistent hstart ho) u hu
    · exact List.pairwise_singleton _ _

end Roomy

end State

/-! ## Traces -/

/-- The start of a scan that skips the body of the loop at `opening`. -/
def ScanEvent.skips (opening : Nat) : ScanEvent → Bool
  | .started scan => scan.start == opening + 1 && scan.pass == .skipping
  | .returned .. => false

variable {code : Source} {s : State} {o : Nat} {event : ScanEvent}

theorem ScanEvent.start_of_skips (h : event.skips o) : event.scan.start = o + 1 := by
  cases event with
  | started scan => exact eq_of_beq (Bool.and_eq_true_iff.mp h).1
  | returned scan p => cases h

theorem State.startsToSkip_of_skips (h : event ∈ s.scanEvents code) (hskips : event.skips o) :
    s.StartsToSkip o := by
  rcases State.mem_scanEvents.mp h with ⟨hstart, rfl⟩ | ⟨p, -, rfl⟩
  · have hboth := Bool.and_eq_true_iff.mp hskips
    exact ⟨hstart, eq_of_beq hboth.1, eq_of_beq hboth.2⟩
  · cases hskips

/-- Of the events at one state only the first can be the start of a scan. -/
theorem State.pairwise_scanEvents (s : State) (code : Source) (o : Nat) :
    (s.scanEvents code).Pairwise fun _ later => ¬ later.skips o := by
  have hreturned : ∀ later ∈ (s.returns? code).toList.map (ScanEvent.returned s.scan),
      ¬ later.skips o := by
    intro later hlater
    obtain ⟨p, -, rfl⟩ := List.mem_map.mp hlater
    exact nofun
  refine List.pairwise_append.mpr
    ⟨?_, List.pairwise_of_forall_mem_list fun _ _ => hreturned, fun _ _ => hreturned⟩
  split
  · exact List.pairwise_singleton _ _
  · exact .nil

/-- What never has a second one behind it is there at most once. -/
theorem countP_le_one {α : Type} {p : α → Bool} {l : List α}
    (h : l.Pairwise fun x y => p y → ¬ p x) : l.countP p ≤ 1 := by
  induction h with
  | nil => exact Nat.zero_le 1
  | @cons x l hx _ ih =>
    by_cases hp : p x
    · have hzero : l.countP p = 0 := List.countP_eq_zero.mpr fun y hy hpy => hx y hy hpy hp
      exact Nat.le_of_eq (by rw [List.countP_cons_of_pos hp, hzero])
    · rwa [List.countP_cons_of_neg hp]

/-- In no evaluation is a body skipped twice, however often its loop is entered and wherever it is
met. Nor is it skipped behind any other scan of it, be it that this one has come to its end or has
only been started. -/
theorem no_body_is_skipped_twice (b : Behaviour) (settings : Settings) (code : Source)
    (patience opening : Nat) :
    (scanTrace b settings code patience).countP (·.skips opening) ≤ 1 ∧
    (scanTrace b settings code patience).Pairwise
      fun earlier later => later.skips opening → earlier.scan.start ≠ opening + 1 := by
  have hpairwise : (scanTrace b settings code patience).Pairwise
      fun earlier later => later.skips opening → earlier.scan.start ≠ opening + 1 := by
    refine List.pairwise_flatMap.mpr ⟨fun s _ => ?_, ?_⟩
    · exact (s.pairwise_scanEvents code opening).imp fun hnot hskips => absurd hskips hnot
    · refine ((State.Roomy.initial settings.capacity).pairwise_visited b.quiet patience
        opening).imp ?_
      intro s t hst earlier hearlier later hlater hskips hstart
      rw [State.scan_of_mem hearlier] at hstart
      exact hst (Or.inl (State.mem_of_start hstart)) (State.startsToSkip_of_skips hlater hskips)
  refine ⟨countP_le_one (hpairwise.imp ?_), hpairwise⟩
  exact fun hne hlater hearlier => hne hlater (ScanEvent.start_of_skips hearlier)

/-- The loop at 4 is met on each of two rounds of the loop at 2, and its body is scanned on the
first of them only. -/
example : scanTrace .mute { capacity := 2 } (Source.ofString "++[>[.]<-]") 40 =
    [.started ⟨0, 0, .running⟩, .started ⟨3, 1, .running⟩, .started ⟨5, 2, .skipping⟩,
      .returned ⟨5, 2, .skipping⟩ 6, .returned ⟨3, 1, .running⟩ 9, .started ⟨3, 1, .running⟩,
      .returned ⟨3, 1, .running⟩ 9, .returned ⟨0, 0, .running⟩ 10] := by
  decide

end TapeInterpreter
