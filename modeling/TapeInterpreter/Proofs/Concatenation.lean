import TapeInterpreter.Proofs.Placement
import TapeInterpreter.Proofs.Significant
import TapeInterpreter.Proofs.SyntaxVerdict

/-!
# Concatenation is sequential composition

A text without a defect that ends outside comments is scanned as if nothing came behind it. Where
its scan stops, a scan of what comes behind takes over the tape, the count of steps and the calls,
and does not notice what stands before.
-/
namespace TapeInterpreter
set_option autoImplicit false

namespace Source

variable {first rest : Source} {n p j : Nat}

theorem lineEndWithin_lt (h : first.inComment p = true) (hn : p + n = first.size)
    (hopen : first.inComment first.size = false) : first.lineEndWithin n p < first.size := by
  induction n generalizing p with
  | zero =>
    rw [← hn, Nat.add_zero, h] at hopen
    cases hopen
  | succ n ih =>
    rw [lineEndWithin]
    split
    · omega
    · rename_i hc
      exact ih (by simp [inComment, h, hc]) (by omega)

/-- In a text that ends outside comments every comment ends in front of the end. -/
theorem lineEnd_lt (hg : first.glyph? p = some .comment)
    (hopen : first.inComment first.size = false) : first.lineEnd p < first.size := by
  obtain ⟨n, hn, hline⟩ := exists_lineEnd_eq hg
  obtain ⟨c, hc, hgc⟩ := exists_of_glyph? hg
  rw [hline]
  refine lineEndWithin_lt ?_ hn hopen
  have hne : c ≠ '\n' := by
    rintro rfl
    cases hgc
  simp [inComment, hc, hg, hne]

theorem lineEndWithin_append_left (m : Nat) (hn : p + n = first.size)
    (h : first.lineEndWithin n p < first.size) :
    (first ++ rest).lineEndWithin (n + m) p = first.lineEndWithin n p := by
  induction n generalizing p with
  | zero =>
    rw [lineEndWithin] at h
    omega
  | succ n ih =>
    have hchar : (first ++ rest)[p]? = first[p]? := Array.getElem?_append_left (by omega)
    rw [Nat.add_right_comm, lineEndWithin, lineEndWithin, hchar]
    rw [lineEndWithin] at h
    split
    · rfl
    · rename_i hc
      rw [if_neg hc] at h
      exact ih (by omega) h

theorem lineEnd_append_left (hp : p < first.size) (h : first.lineEnd p < first.size) :
    (first ++ rest).lineEnd p = first.lineEnd p := by
  have hroom : (first ++ rest).size - p = first.size - p + rest.size := by
    rw [Array.size_append]; omega
  rw [lineEnd, hroom]
  exact lineEndWithin_append_left rest.size (by omega) h

theorem lineEndWithin_append_right (n p : Nat) :
    (first ++ rest).lineEndWithin n (first.size + p) = first.size + rest.lineEndWithin n p := by
  induction n generalizing p with
  | zero => rfl
  | succ n ih =>
    have hchar : (first ++ rest)[first.size + p]? = rest[p]? := by
      rw [Array.getElem?_append_right (by omega), Nat.add_sub_cancel_left]
    rw [lineEndWithin, lineEndWithin, hchar]
    split
    · rfl
    · exact ih (p + 1)

theorem lineEnd_append_right (p : Nat) :
    (first ++ rest).lineEnd (first.size + p) = first.size + rest.lineEnd p := by
  have hroom : (first ++ rest).size - (first.size + p) = rest.size - p := by
    rw [Array.size_append]; omega
  rw [lineEnd, hroom]
  exact lineEndWithin_append_right _ p

/-- The first text keeps its places. -/
theorem placement_left (rest : Source) (hopen : first.inComment first.size = false) :
    Placement id (fun p q => p = q ∧ q ≤ first.size) (first ++ rest) first where
  inj _ _ h := h
  lt hj := by rw [Array.size_append]; exact Nat.lt_add_right _ hj
  char hj := Array.getElem?_append_left hj
  behind hj := ⟨rfl, hj⟩
  comment hg := by
    have hlt := lineEnd_lt hg hopen
    exact ⟨congrArg (· + 1) (lineEnd_append_left (lt_size_of_glyph? hg) hlt), hlt⟩

/-- The second text moves behind the first one. -/
theorem placement_right (first rest : Source) :
    Placement (first.size + ·) (fun p q => p = first.size + q) (first ++ rest) rest where
  inj _ _ h := Nat.add_left_cancel h
  lt hj := by rw [Array.size_append]; exact Nat.add_lt_add_left hj _
  char hj := by rw [Array.getElem?_append_right (by omega), Nat.add_sub_cancel_left]
  behind _ := Nat.add_assoc _ _ _
  comment _ := congrArg (· + 1) (lineEnd_append_right _)

end Source

/-- In front of `rest`, on a tape and behind steps that have been made before. -/
def State.resumed (capacity : Nat) (rest : Source) (tape : Tape) (steps : Nat) : State :=
  { State.initial capacity rest with tape := tape, steps := steps }

/-- What scanning `first` alone comes to decides what `first ++ rest` comes to. -/
structure Composes (b : Behaviour) (settings : Settings) (first rest : Source) : Prop where
  /-- For as long as `first` is scanned, nothing else happens. -/
  scanning : ∀ n log,
    (Machine.over settings first).run b.console n (State.initial settings.capacity first) [] =
      (none, log) →
    evaluate b.console settings (first ++ rest) n [] = (none, log)
  /-- If the scan of `first` ends with an error, the evaluation does. -/
  failed : ∀ n e last log,
    (Machine.over settings first).run b.console n (State.initial settings.capacity first) [] =
      (some ⟨.error e, last⟩, log) →
    e.isSyntax = false ∧ evaluate b.console settings (first ++ rest) n [] =
      (some ⟨.error e, last.tape, last.steps⟩, log)
  /-- Else `rest` is scanned on the tape and behind the steps and calls that `first` has left. -/
  passed : ∀ n p last log,
    (Machine.over settings first).run b.console n (State.initial settings.capacity first) [] =
      (some ⟨.ok p, last⟩, log) →
    ∃ m, ∀ k, evaluate b.console settings (first ++ rest) (k + m) [] =
      (((Machine.over settings rest).scan b rest k
          (.resumed settings.capacity rest last.tape last.steps) log).1.map
          (.relocate (first.size + ·)),
        ((Machine.over settings rest).scan b rest k
          (.resumed settings.capacity rest last.tape last.steps) log).2)

variable {b : Behaviour} {settings : Settings} {first rest : Source} {s t : State}
  {log calls : List Call}

/-- `s` is the state of a run over `first ++ rest` that is where one over `first` is at `t`. -/
def Within (first rest : Source) (maxDepth : Nat) (s t : State) : Prop :=
  Placed id (fun p q => p = q ∧ q ≤ first.size) (fun _ => none) (first ++ rest) first s t ∧
    t.Consistent first maxDepth

/-- The scan of `first` is over. -/
def Through (first rest : Source) (s : State) (halt : Halt) : Prop :=
  halt.stopped = .ok first.size ∧ halt.last.position = first.size ∧ halt.last.frames = [] ∧
    Placed id (fun p q => p = q ∧ q ≤ first.size) (fun _ => none) (first ++ rest) first s halt.last

/-- Where the scan of a text without a defect gets to the end, no loop is open. -/
theorem State.Consistent.step_at_end (h : t.Consistent first settings.maxDepth)
    (hdefect : first.defect? settings.maxDepth = none) (hend : first.size ≤ t.position)
    (cancelled : Bool) :
    t.frames = [] ∧ t.step .remembering settings first cancelled = .finished first.size t := by
  have hstep : t.step .remembering settings first cancelled = t.stop first :=
    State.step_of_end (Array.getElem?_eq_none hend)
  rw [State.stop] at hstep
  cases hf : t.frames with
  | nil => rw [hf] at hstep; exact ⟨rfl, hstep⟩
  | cons f outer =>
    rw [hf] at hstep
    have hsome := h.defect_of_failed hstep rfl
    rw [hdefect] at hsome
    cases hsome

theorem advance_within (b : Behaviour) (hdefect : first.defect? settings.maxDepth = none)
    (hopen : first.inComment first.size = false) (h : Within first rest settings.maxDepth s t)
    (log : List Call) :
    (∃ p q v, (Machine.over settings (first ++ rest)).advance b.console s log = (p, v) ∧
      (Machine.over settings first).advance b.console t log = (q, v) ∧
      Progress.Alike (Within first rest settings.maxDepth)
        (fun x y => ∃ e, x.stopped = .error e ∧ y.stopped = .error e ∧ x.last.tape = y.last.tape ∧
          x.last.steps = y.last.steps) p q) ∨
    ∃ halt, (Machine.over settings first).advance b.console t log = (.halted halt, log) ∧
      Through first rest s halt := by
  obtain ⟨hplaced, hconsistent⟩ := h
  obtain ⟨hposition, hle⟩ := hplaced.position
  rcases Nat.lt_or_eq_of_le hle with hlt | hend
  · left
    have haligned : Aligned id (fun p q => p = q ∧ q ≤ first.size) (fun _ => none) (first ++ rest)
        first s t := ⟨hplaced, Or.inl ⟨hlt, hposition⟩⟩
    have halike : ∀ cancelled, Step.Alike id (first ++ rest) first
        (Within first rest settings.maxDepth) (Machine.over settings (first ++ rest) s cancelled)
        (Machine.over settings first t cancelled) := fun cancelled =>
      ((Source.placement_left rest hopen).coupled.step_alike haligned cancelled).strengthen
        fun u tape hu => (hconsistent.step Resume.remembering_sound hu).withTape tape u.steps
    obtain ⟨p, q, v, hp, hq, hpq⟩ := Machine.advance_alike b.quiet halike log
    refine ⟨p, q, v, hp, hq, ?_⟩
    cases hpq with
    | running hR => exact .running hR
    | halted hH =>
      refine .halted ?_
      cases hH with
      | @failed e x y htape hsteps => exact ⟨e, by rw [e.relocate_id], rfl, htape, hsteps⟩
      | finished =>
        rcases (Machine.advance_served b.quiet hq).halted with ⟨e, -, he⟩ | ⟨p, hs, -⟩ | ⟨e, he, -⟩
        · cases he
        · have hend := Source.glyph?_eq_none_iff.mp (State.step_finished hs).2.1
          exact absurd hlt (Nat.not_lt.mpr hend)
        · cases he
  · right
    obtain ⟨hframes, -⟩ := hconsistent.step_at_end hdefect (Nat.le_of_eq hend.symm) false
    refine ⟨⟨.ok first.size, t⟩, ?_, rfl, hend, hframes, hplaced⟩
    rw [advance_over, (hconsistent.step_at_end hdefect (Nat.le_of_eq hend.symm) _).2]
    rfl

/-- Behind `first` the two runs are the same up to where the text stands. -/
theorem run_behind (b : Behaviour) {kept : Nat → Option Nat}
    (h : Placed (first.size + ·) (fun p q => p = first.size + q) kept (first ++ rest) rest s t)
    (log : List Call) (k : Nat) :
    (Machine.over settings (first ++ rest)).scan b (first ++ rest) k s log =
      (((Machine.over settings rest).scan b rest k t log).1.map (.relocate (first.size + ·)),
        ((Machine.over settings rest).scan b rest k t log).2) := by
  have hstep : ∀ s t log,
      Placed (first.size + ·) (fun p q => p = first.size + q) kept (first ++ rest) rest s t →
      ∃ p q v, (Machine.over settings (first ++ rest)).advance b.console s log = (p, v) ∧
        (Machine.over settings rest).advance b.console t log = (q, v) ∧
        Progress.Alike
          (Placed (first.size + ·) (fun p q => p = first.size + q) kept (first ++ rest) rest)
          (Halt.Alike (first.size + ·) (first ++ rest) rest) p q := by
    intro s t log h
    have haligned : Aligned (first.size + ·) (fun p q => p = first.size + q) kept (first ++ rest)
        rest s t := by
      refine ⟨h, ?_⟩
      rcases Nat.lt_or_ge t.position rest.size with hlt | hge
      · exact Or.inl ⟨hlt, h.position⟩
      · refine Or.inr ⟨hge, ?_⟩
        rw [h.position, Array.size_append]
        exact Nat.add_le_add_left hge _
    exact Machine.advance_alike b.quiet (A := .over settings (first ++ rest))
      (B := .over settings rest)
      (fun cancelled => (first.placement_right rest).coupled.step_alike haligned cancelled) log
  obtain ⟨v, hruns⟩ := Machine.run_until (E := fun _ _ => False)
    (fun s t log h => Or.inl (hstep s t log h)) k h log
  refine Machine.scan_eq_of_runs (v := v) (Array.size_append ..).symm ?_
  rcases hruns with hnone | hsome | ⟨_, _, _, _, _, hfalse⟩
  · exact Or.inl hnone
  · exact Or.inr hsome
  · exact hfalse.elim

/-- Where the scan of `first` is over, that of `rest` may start. -/
theorem Through.placed {stopped : Except EvalError Nat} {last : State} (capacity : Nat)
    (h : Through first rest s ⟨stopped, last⟩) :
    Placed (first.size + ·) (fun p q => p = first.size + q) s.closing? (first ++ rest) rest s
      (.resumed capacity rest last.tape last.steps) := by
  obtain ⟨-, hposition, hframes, hplaced⟩ := h
  exact
    { position := hplaced.position.1.trans hposition
      frames := by
        have hs := hplaced.frames
        rw [show last.frames = [] from hframes] at hs
        exact hs
      openings := by rintro f ⟨⟩
      tape := hplaced.tape
      steps := hplaced.steps
      closings := by
        intro o _
        have hnone := hplaced.elsewhere (first.size + o) fun j hj => by rw [id]; omega
        have hinitial : (State.resumed capacity rest last.tape last.steps).closing? o = none :=
          State.closing?_initial capacity o rest
        rw [hnone, hinitial]
        rfl
      closed := by
        intro o c hc
        have hinitial : (State.resumed capacity rest last.tape last.steps).closing? o = none :=
          State.closing?_initial capacity o rest
        cases hinitial.symm.trans hc
      elsewhere := fun _ _ => rfl
      room := hplaced.room
      room' := Array.size_replicate }

/-- Concatenation is sequential composition: a text without a defect that ends outside comments is
scanned as if nothing came behind it, and what comes behind it as if nothing stood before. -/
theorem concatenation_composes (b : Behaviour) (settings : Settings) (first rest : Source)
    (hdefect : first.defect? settings.maxDepth = none)
    (hopen : first.inComment first.size = false) : Composes b settings first rest := by
  have hstart : Within first rest settings.maxDepth
      (State.initial settings.capacity (first ++ rest)) (State.initial settings.capacity first) :=
    ⟨.initial settings.capacity ⟨rfl, Nat.zero_le _⟩, .initial settings.capacity⟩
  -- The two runs keep together until the one over `first` halts.
  have hruns := fun n => Machine.run_until
    (fun _ _ log h => advance_within b hdefect hopen h log) n hstart []
  refine ⟨fun n log hrun => ?_, fun n e last log hrun => ⟨?_, ?_⟩, fun n p last log hrun => ?_⟩
  · rw [evaluate_eq_scan]
    obtain ⟨v, ⟨ha, hb⟩ | ⟨x, y, -, hb, -⟩ | ⟨-, -, halt, -, hb, -⟩⟩ := hruns n
    · cases hrun.symm.trans hb
      exact Machine.scan_of_running ha
    · cases hrun.symm.trans hb
    · cases hrun.symm.trans hb
  · have hverdict := run_verdict Resume.remembering_sound b.quiet (.initial settings.capacity) hrun
    cases hsyn : e.isSyntax with
    | false => rfl
    | true => cases hdefect.symm.trans (hverdict hsyn)
  · rw [evaluate_eq_scan]
    obtain ⟨v, ⟨-, hb⟩ | ⟨x, y, ha, hb, e', hx, hy, htape, hsteps⟩ |
      ⟨m, s, halt, -, hb, hthrough⟩⟩ := hruns n
    · cases hrun.symm.trans hb
    · cases hrun.symm.trans hb
      cases hy
      rw [Machine.scan_of_halted ha, conclude_of_error hx, Halt.outcome, htape, hsteps]
    · cases hrun.symm.trans hb
      cases hthrough.1
  · obtain ⟨v, ⟨-, hb⟩ | ⟨x, y, -, hb, e', -, hy, -⟩ |
      ⟨m, s, halt, hleads, hb, hthrough⟩⟩ := hruns n
    · cases hrun.symm.trans hb
    · cases hrun.symm.trans hb
      cases hy
    · cases hrun.symm.trans hb
      refine ⟨m, fun k => ?_⟩
      rw [evaluate_eq_scan, Machine.scan_of_leads hleads]
      exact run_behind b (hthrough.placed settings.capacity) log k

/-- The loop and the comment of the first text are over before the stray bracket is met. -/
theorem loop_composes_with_stray_close :
    (Source.ofString "+[-]#[\n").defect? defaultMaxDepth = none ∧
      (Source.ofString "+[-]#[\n").inComment (Source.ofString "+[-]#[\n").size = false ∧
      Composes .mute {} (Source.ofString "+[-]#[\n") (Source.ofString "]") :=
  ⟨by decide, by decide, concatenation_composes .mute {} _ _ (by decide) (by decide)⟩

end TapeInterpreter
