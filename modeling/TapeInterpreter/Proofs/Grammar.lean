import TapeInterpreter.Proofs.Context

/-!
# Programs as trees

A program is a row of commands and loops, each with the position of its character. The grammar reads
one off a text: blanks and comments may stand anywhere, a loop holds a program between its brackets,
and loops nest only so deep. Exactly the texts without a defect are programs.
-/
namespace TapeInterpreter
set_option autoImplicit false

inductive Program where
  | done
  | command (c : Command) (position : Nat) (rest : Program)
  | loop (opening : Nat) (body rest : Program)
  deriving DecidableEq, Repr

/-- Between the two positions there are only blanks and comments. -/
inductive Source.Gap (code : Source) : Nat → Nat → Prop
  | refl (i : Nat) : Gap code i i
  | blank {i j : Nat} (hg : code.glyph? i = some .blank) (h : Gap code (i + 1) j) : Gap code i j
  | comment {i j : Nat} (hg : code.glyph? i = some .comment) (h : Gap code (code.lineEnd i + 1) j) :
      Gap code i j

/-- From one position up to another the text reads as a program whose loops nest to `room`. -/
inductive Source.Reads (code : Source) : Nat → Nat → Program → Nat → Prop
  | done {room i j : Nat} (hgap : code.Gap i j) : Reads code room i .done j
  | command {room i p j : Nat} {c : Command} {rest : Program} (hgap : code.Gap i p)
      (hg : code.glyph? p = some (.command c)) (hrest : Reads code room (p + 1) rest j) :
      Reads code room i (.command c p rest) j
  | loop {room i o c j : Nat} {body rest : Program} (hgap : code.Gap i o)
      (ho : code.glyph? o = some .opening) (hbody : Reads code room (o + 1) body c)
      (hc : code.glyph? c = some .closing) (hrest : Reads code (room + 1) (c + 1) rest j) :
      Reads code (room + 1) i (.loop o body rest) j

/-- The whole text reads as a program. -/
def Source.Parses (code : Source) (maxDepth : Nat) (tree : Program) : Prop :=
  ∃ stop, code.glyph? stop = none ∧ code.Reads maxDepth 0 tree stop

namespace Source

variable {code : Source} {maxDepth room i j k : Nat} {tree : Program}

theorem Gap.trans (h : code.Gap i j) (h' : code.Gap j k) : code.Gap i k := by
  induction h with
  | refl => exact h'
  | blank hg _ ih => exact .blank hg (ih h')
  | comment hg _ ih => exact .comment hg (ih h')

theorem Reads.of_gap (h : code.Gap i j) (hreads : code.Reads room j tree k) :
    code.Reads room i tree k := by
  cases hreads with
  | done hgap => exact .done (h.trans hgap)
  | command hgap hg hrest => exact .command (h.trans hgap) hg hrest
  | loop hgap ho hbody hc hrest => exact .loop (h.trans hgap) ho hbody hc hrest

/-! ## One program for one text -/

/-- Something stands here that is neither blank nor a comment, or nothing at all. -/
def Stops (code : Source) (i : Nat) : Prop :=
  code.glyph? i ≠ some .blank ∧ code.glyph? i ≠ some .comment

theorem Gap.eq_of_stops (h : code.Gap i j) (hi : code.Stops i) : i = j := by
  cases h with
  | refl => rfl
  | blank hg => exact absurd hg hi.1
  | comment hg => exact absurd hg hi.2

theorem Gap.unique (h : code.Gap i j) (h' : code.Gap i k) (hj : code.Stops j) (hk : code.Stops k) :
    j = k := by
  induction h with
  | refl => exact h'.eq_of_stops hj
  | blank hg _ ih =>
    cases h' with
    | refl => exact absurd hg hk.1
    | blank _ h' => exact ih h' hj
    | comment hg' => rw [hg] at hg'; cases hg'
  | comment hg _ ih =>
    cases h' with
    | refl => exact absurd hg hk.2
    | blank hg' => rw [hg] at hg'; cases hg'
    | comment _ h' => exact ih h' hj

/-- Where a program may end: in front of a closing bracket or behind the text. -/
def Ends (code : Source) (i : Nat) : Prop :=
  code.glyph? i = none ∨ code.glyph? i = some .closing

theorem stops_of_command {c : Command} (h : code.glyph? i = some (.command c)) : code.Stops i := by
  rw [Stops, h]
  exact ⟨nofun, nofun⟩

theorem stops_of_opening (h : code.glyph? i = some .opening) : code.Stops i := by
  rw [Stops, h]
  exact ⟨nofun, nofun⟩

theorem Ends.stops (h : code.Ends i) : code.Stops i := by
  rcases h with h | h <;>
  · rw [Stops, h]
    exact ⟨nofun, nofun⟩

theorem Ends.not_command {c : Command} (h : code.Ends i) : code.glyph? i ≠ some (.command c) := by
  rcases h with h | h <;>
  · rw [h]
    exact nofun

theorem Ends.not_opening (h : code.Ends i) : code.glyph? i ≠ some .opening := by
  rcases h with h | h <;>
  · rw [h]
    exact nofun

/-- The grammar is unambiguous. -/
theorem Reads.unique {room' : Nat} {tree' : Program} (h : code.Reads room i tree j)
    (h' : code.Reads room' i tree' k) (hj : code.Ends j) (hk : code.Ends k) :
    tree = tree' ∧ j = k := by
  -- A gap ends at the same character in both readings, and that character tells the rule.
  induction h generalizing room' tree' k with
  | done hgap =>
    cases h' with
    | done hgap' => exact ⟨rfl, hgap.unique hgap' hj.stops hk.stops⟩
    | command hgap' hg =>
      cases hgap.unique hgap' hj.stops (stops_of_command hg)
      exact absurd hg hj.not_command
    | loop hgap' ho =>
      cases hgap.unique hgap' hj.stops (stops_of_opening ho)
      exact absurd ho hj.not_opening
  | command hgap hg _ ih =>
    cases h' with
    | done hgap' =>
      cases hgap.unique hgap' (stops_of_command hg) hk.stops
      exact absurd hg hk.not_command
    | command hgap' hg' hrest' =>
      cases hgap.unique hgap' (stops_of_command hg) (stops_of_command hg')
      cases hg.symm.trans hg'
      obtain ⟨rfl, rfl⟩ := ih hrest' hj hk
      exact ⟨rfl, rfl⟩
    | loop hgap' ho =>
      cases hgap.unique hgap' (stops_of_command hg) (stops_of_opening ho)
      cases hg.symm.trans ho
  | loop hgap ho _ hc _ ihbody ihrest =>
    cases h' with
    | done hgap' =>
      cases hgap.unique hgap' (stops_of_opening ho) hk.stops
      exact absurd ho hk.not_opening
    | command hgap' hg =>
      cases hgap.unique hgap' (stops_of_opening ho) (stops_of_command hg)
      cases ho.symm.trans hg
    | loop hgap' ho' hbody' hc' hrest' =>
      cases hgap.unique hgap' (stops_of_opening ho) (stops_of_opening ho')
      obtain ⟨rfl, rfl⟩ := ihbody hbody' (Or.inr hc) (Or.inr hc')
      obtain ⟨rfl, rfl⟩ := ihrest hrest' hj hk
      exact ⟨rfl, rfl⟩

theorem Parses.unique {tree' : Program} (h : code.Parses maxDepth tree)
    (h' : code.Parses maxDepth tree') : tree = tree' := by
  obtain ⟨stop, hstop, hreads⟩ := h
  obtain ⟨stop', hstop', hreads'⟩ := h'
  exact (hreads.unique hreads' (Or.inl hstop) (Or.inl hstop')).1

/-! ## The texts without a defect -/

variable {opened : List Nat}

theorem OpenAt.gap (h : code.OpenAt maxDepth i opened) (hgap : code.Gap i j) :
    code.OpenAt maxDepth j opened := by
  induction hgap with
  | refl => exact h
  | blank hg _ ih => exact ih (h.next hg (Or.inl rfl))
  | comment hg _ ih => exact ih (h.lineEnd hg)

/-- Behind a program the same brackets are open as in front of it. -/
theorem OpenAt.reads (h : code.OpenAt maxDepth i opened) (hreads : code.Reads room i tree j)
    (hroom : opened.length + room ≤ maxDepth) : code.OpenAt maxDepth j opened := by
  induction hreads generalizing opened with
  | done hgap => exact h.gap hgap
  | command hgap hg _ ih => exact ih ((h.gap hgap).next hg (Or.inr ⟨_, rfl⟩)) hroom
  | @loop room i o c j body rest hgap ho _ hc _ ihbody ihrest =>
    have hopening := context_succ_opening ((h.gap hgap).context ho) ho (by omega)
    have hbody := ihbody (openAt_of_context hopening) (by rw [List.length_cons]; omega)
    exact ihrest (openAt_of_context (context_succ_closing (hbody.context hc) hc)) hroom

/-- The bracket behind the body of a loop is its own. -/
theorem Reads.matches_of_loop {o c : Nat} {body : Program} (h : code.OpenAt maxDepth o opened)
    (ho : code.glyph? o = some .opening) (hbody : code.Reads room (o + 1) body c)
    (hc : code.glyph? c = some .closing) (hroom : opened.length + room < maxDepth) :
    code.Matches maxDepth o c := by
  have hopening := context_succ_opening (h.context ho) ho (by omega)
  have hclosing := (openAt_of_context hopening).reads hbody (by rw [List.length_cons]; omega)
  exact ⟨hc, opened, hclosing.context hc⟩

/-- Where nothing is wrong a program can be read. -/
theorem exists_reads (hdefect : code.defect? maxDepth = none)
    (h : code.OpenAt maxDepth i opened) :
    ∃ tree j, i ≤ j ∧ code.Reads (maxDepth - opened.length) i tree j ∧ code.Ends j := by
  induction hn : code.size - i using Nat.strongRecOn generalizing i opened with
  | ind n ih =>
  cases hg : code.glyph? i with
  | none => exact ⟨.done, i, Nat.le_refl i, .done (.refl i), Or.inl hg⟩
  | some g =>
    have hlt := lt_size_of_glyph? hg
    cases g with
    | closing => exact ⟨.done, i, Nat.le_refl i, .done (.refl i), Or.inr hg⟩
    | blank =>
      obtain ⟨tree, j, hj, hreads, hends⟩ := ih _ (by omega) (h.next hg (Or.inl rfl)) rfl
      exact ⟨tree, j, Nat.le_of_succ_le hj, hreads.of_gap (.blank hg (.refl _)), hends⟩
    | comment =>
      have hle := code.le_lineEnd i
      obtain ⟨tree, j, hj, hreads, hends⟩ := ih _ (by omega) (h.lineEnd hg) rfl
      exact ⟨tree, j, by omega, hreads.of_gap (.comment hg (.refl _)), hends⟩
    | command c =>
      obtain ⟨rest, j, hj, hreads, hends⟩ := ih _ (by omega) (h.next hg (Or.inr ⟨c, rfl⟩)) rfl
      exact ⟨.command c i rest, j, Nat.le_of_succ_le hj, .command (.refl i) hg hreads, hends⟩
    | foreign =>
      obtain ⟨char, hc, hforeign⟩ := exists_of_glyph? hg
      have herror : code.context maxDepth (i + 1) = .error (.unexpectedCharacter char i) := by
        rw [context_succ (h.context hg) hc, Context.read, if_neg Bool.false_ne_true, hforeign]
      cases hdefect.symm.trans (defect?_of_context_error herror)
    | opening =>
      by_cases hdeep : maxDepth ≤ opened.length
      · obtain ⟨char, hc, hopening⟩ := exists_of_glyph? hg
        have herror : code.context maxDepth (i + 1) = .error (.nestingTooDeep i maxDepth) := by
          rw [context_succ (h.context hg) hc, Context.read, if_neg Bool.false_ne_true, hopening]
          exact if_pos hdeep
        cases hdefect.symm.trans (defect?_of_context_error herror)
      have hdepth := Nat.lt_of_not_le hdeep
      have hopening := openAt_of_context (context_succ_opening (h.context hg) hg hdepth)
      obtain ⟨room, hroom⟩ : ∃ room, maxDepth - opened.length = room + 1 :=
        ⟨maxDepth - opened.length - 1, by omega⟩
      have hinner : maxDepth - (i :: opened).length = room := by rw [List.length_cons]; omega
      -- The body first: it cannot end with the text, for its bracket would be open there.
      obtain ⟨body, c, hic, hbody, hends⟩ := ih _ (by omega) hopening rfl
      rw [hinner] at hbody
      have hinside := hopening.reads hbody (by rw [List.length_cons]; omega)
      rcases hends with hend | hc
      · obtain ⟨comment, -, hx⟩ := hinside
        have hsome := defect?_of_context_end (glyph?_eq_none_iff.mp hend) hx
        cases hdefect.symm.trans hsome
      · have hbehind := openAt_of_context (context_succ_closing (hinside.context hc) hc)
        obtain ⟨rest, j, hj, hrest, hends⟩ := ih _ (by omega) hbehind rfl
        rw [hroom] at hrest ⊢
        exact ⟨.loop i body rest, j, by omega, .loop (.refl i) hg hbody hc hrest, hends⟩

/-- The texts without a defect are the programs. -/
theorem defect?_eq_none_iff :
    code.defect? maxDepth = none ↔ ∃ tree, code.Parses maxDepth tree := by
  have hstart : code.OpenAt maxDepth 0 [] := openAt_of_context rfl
  constructor
  · intro hdefect
    obtain ⟨tree, stop, -, hreads, hends⟩ := exists_reads hdefect hstart
    rcases hends with hend | hc
    · exact ⟨tree, stop, hend, hreads⟩
    · -- No bracket is open there, so this one would be the defect.
      have hclosing := (hstart.reads hreads (by simp)).context hc
      obtain ⟨char, hchar, hg⟩ := exists_of_glyph? hc
      have herror : code.context maxDepth (stop + 1) = .error (.unmatched .closing stop) := by
        rw [context_succ hclosing hchar, Context.read, if_neg Bool.false_ne_true, hg]
      cases hdefect.symm.trans (defect?_of_context_error herror)
  · rintro ⟨tree, stop, hend, hreads⟩
    obtain ⟨comment, -, hx⟩ := hstart.reads hreads (by simp)
    rw [defect?_of_context_end (glyph?_eq_none_iff.mp hend) hx]
    rfl

end Source

end TapeInterpreter
