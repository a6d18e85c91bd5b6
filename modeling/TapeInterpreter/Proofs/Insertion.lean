import TapeInterpreter.Proofs.Concatenation
import TapeInterpreter.Proofs.Equivalence
import TapeInterpreter.Proofs.NestingLimit
import TapeInterpreter.Proofs.StepLimit
import TapeInterpreter.Proofs.TreeRuns

/-!
# Fragments without effect may be inserted anywhere

What stands in front of a fragment keeps its places, and what stands behind it moves by its length.
So the tree of the longer text is that of the shorter one with the fragment's own tree somewhere
inside, in front of something that runs on a cell and, behind a closing bracket, on a zero cell.
-/
namespace TapeInterpreter
set_option autoImplicit false

namespace Source

variable {p q : Source} {place : Nat → Nat} {lo hi n room i j k : Nat} {t : Program}

/-! ## Stretches of text -/

theorem Gap.le (h : p.Gap i j) : i ≤ j := by
  induction h with
  | refl => exact Nat.le_refl _
  | blank _ _ ih => exact Nat.le_of_succ_le ih
  | @comment i j _ _ ih =>
    have hle := p.le_lineEnd i
    omega

theorem Reads.le (h : p.Reads room i t j) : i ≤ j := by
  induction h with
  | done hgap => exact hgap.le
  | command hgap _ _ ih =>
    have hle := hgap.le
    omega
  | loop hgap _ _ _ _ ihbody ihrest =>
    have hle := hgap.le
    omega

theorem Reads.mono {room' : Nat} (h : p.Reads room i t j) (hroom : room ≤ room') :
    p.Reads room' i t j := by
  induction h generalizing room' with
  | done hgap => exact .done hgap
  | command hgap hg _ ih => exact .command hgap hg (ih hroom)
  | loop hgap ho _ hc _ ihbody ihrest =>
    obtain ⟨inner, rfl⟩ : ∃ inner, room' = inner + 1 := ⟨room' - 1, by omega⟩
    exact .loop hgap ho (ihbody (by omega)) hc (ihrest hroom)

theorem not_closing_lineEnd (p : Source) (i : Nat) :
    p.glyph? (p.lineEnd i) ≠ some .closing := by
  intro hg
  rcases p.lineEnd_stops i with hc | hend
  · rw [glyph?, hc] at hg
    cases hg
  · exact absurd (lt_size_of_glyph? hg) (Nat.not_lt.mpr hend)

/-- A stretch of blanks and comments does not end with a closing bracket. -/
theorem Gap.eq_of_closing (h : p.Gap i j) (hg : p.glyph? (j - 1) = some .closing) : i = j := by
  induction h with
  | refl => rfl
  | blank hblank _ ih =>
    obtain rfl := ih hg
    cases hblank.symm.trans hg
  | @comment i j _ _ ih =>
    obtain rfl := ih hg
    exact absurd hg (p.not_closing_lineEnd i)

/-- The stretch of `p` from `lo` up to `hi` stands in `q`, moved by `n`. -/
structure Carried (p q : Source) (place : Nat → Nat) (lo hi n : Nat) : Prop where
  place (x : Nat) : lo ≤ x → x < hi → place x = x + n
  glyph (x : Nat) : lo ≤ x → x < hi → q.glyph? (x + n) = p.glyph? x
  lineEnd (x : Nat) : lo ≤ x → x < hi → p.glyph? x = some .comment →
    q.lineEnd (x + n) = p.lineEnd x + n

theorem Gap.carried (h : p.Gap i j) (hpq : Carried p q place lo hi n) (hi' : lo ≤ i)
    (hj : j ≤ hi) : q.Gap (i + n) (j + n) := by
  induction h with
  | refl => exact .refl _
  | @blank i j hg hgap ih =>
    have hle := hgap.le
    refine .blank ((hpq.glyph i hi' (by omega)).trans hg) ?_
    rw [Nat.add_right_comm]
    exact ih (by omega) hj
  | @comment i j hg hgap ih =>
    have hle := hgap.le
    have hline := p.le_lineEnd i
    refine .comment ((hpq.glyph i hi' (by omega)).trans hg) ?_
    rw [hpq.lineEnd i hi' (by omega) hg, Nat.add_right_comm]
    exact ih (by omega) hj

theorem Reads.carried (h : p.Reads room i t j) (hpq : Carried p q place lo hi n) (hi' : lo ≤ i)
    (hj : j ≤ hi) : q.Reads room (i + n) (t.relocate place) (j + n) := by
  induction h with
  | done hgap => exact .done (hgap.carried hpq hi' hj)
  | @command room i x j c rest hgap hg hrest ih =>
    have hle := hgap.le
    have hle' := hrest.le
    have hx := hpq.glyph x (by omega) (by omega)
    rw [Program.relocate, hpq.place x (by omega) (by omega)]
    refine .command (hgap.carried hpq hi' (by omega)) (hx.trans hg) ?_
    rw [Nat.add_right_comm]
    exact ih (by omega) hj
  | @loop room i o c j body rest hgap ho hbody hc hrest ihbody ihrest =>
    have hle := hgap.le
    have hle' := hbody.le
    have hle'' := hrest.le
    have hopening := hpq.glyph o (by omega) (by omega)
    have hclosing := hpq.glyph c (by omega) (by omega)
    rw [Program.relocate, hpq.place o (by omega) (by omega)]
    refine .loop (hgap.carried hpq hi' (by omega)) (hopening.trans ho) ?_ (hclosing.trans hc) ?_
    · rw [Nat.add_right_comm]
      exact ihbody (by omega) (by omega)
    · rw [Nat.add_right_comm]
      exact ihrest (by omega) hj

/-- Where no comment reaches over a place, a stretch of blanks and comments can be cut there. -/
theorem Gap.cut (h : p.Gap i j) (hik : i ≤ k) (hkj : k ≤ j)
    (hk : ∀ x < k, p.glyph? x = some .comment → p.lineEnd x < k) : p.Gap i k ∧ p.Gap k j := by
  induction h with
  | refl i =>
    obtain rfl := Nat.le_antisymm hik hkj
    exact ⟨.refl _, .refl _⟩
  | @blank i j hg hgap ih =>
    rcases Nat.lt_or_eq_of_le hik with hlt | rfl
    · obtain ⟨hleft, hright⟩ := ih hlt hkj
      exact ⟨.blank hg hleft, hright⟩
    · exact ⟨.refl _, .blank hg hgap⟩
  | @comment i j hg hgap ih =>
    rcases Nat.lt_or_eq_of_le hik with hlt | rfl
    · obtain ⟨hleft, hright⟩ := ih (hk i hlt hg) hkj
      exact ⟨.comment hg hleft, hright⟩
    · exact ⟨.refl _, .comment hg hgap⟩

/-! ## Two texts -/

/-- Where a character is once `n` others have been inserted in front of position `k`. -/
def moved (k n position : Nat) : Nat := if position < k then position else position + n

variable {pre fragment post : Source}

theorem glyph?_append_left (h : i < pre.size) : (pre ++ post).glyph? i = pre.glyph? i := by
  rw [glyph?, glyph?, Array.getElem?_append_left h]

theorem glyph?_append_right (i : Nat) : (pre ++ post).glyph? (pre.size + i) = post.glyph? i := by
  rw [glyph?, glyph?, Array.getElem?_append_right (Nat.le_add_right ..), Nat.add_sub_cancel_left]

/-- What stands in front of the place stays where it is. -/
theorem carried_left (hopen : pre.inComment pre.size = false) (fragment post : Source) :
    Carried (pre ++ post) (pre ++ fragment ++ post) (moved pre.size fragment.size) 0 pre.size 0 where
  place x _ hx := if_pos hx
  glyph x _ hx := by
    rw [Array.append_assoc, Nat.add_zero, glyph?_append_left hx, glyph?_append_left hx]
  lineEnd x _ hx hg := by
    rw [glyph?_append_left hx] at hg
    have hlt := lineEnd_lt hg hopen
    rw [Array.append_assoc, Nat.add_zero, Nat.add_zero, lineEnd_append_left hx hlt,
      lineEnd_append_left hx hlt]

/-- What stands behind it moves. -/
theorem carried_right (pre fragment post : Source) (hi : Nat) :
    Carried (pre ++ post) (pre ++ fragment ++ post) (moved pre.size fragment.size) pre.size hi
      fragment.size where
  place x hx _ := if_neg (Nat.not_lt.mpr hx)
  glyph x hx _ := by
    obtain ⟨y, rfl⟩ := Nat.exists_eq_add_of_le hx
    rw [Nat.add_right_comm, ← Array.size_append, glyph?_append_right, glyph?_append_right]
  lineEnd x hx _ _ := by
    obtain ⟨y, rfl⟩ := Nat.exists_eq_add_of_le hx
    rw [Nat.add_right_comm, ← Array.size_append, lineEnd_append_right, lineEnd_append_right,
      Array.size_append]
    omega

theorem glyph?_inside (pre post : Source) (h : i < fragment.size) :
    (pre ++ fragment ++ post).glyph? (pre.size + i) = fragment.glyph? i := by
  rw [Array.append_assoc, glyph?_append_right, glyph?_append_left h]

/-- The fragment itself moves behind what stands in front. -/
theorem carried_inside (pre post : Source) (hopen : fragment.inComment fragment.size = false) :
    Carried fragment (pre ++ fragment ++ post) (· + pre.size) 0 fragment.size pre.size where
  place x _ _ := rfl
  glyph x _ hx := by rw [Nat.add_comm, glyph?_inside pre post hx]
  lineEnd x _ hx hg := by
    rw [Array.append_assoc, Nat.add_comm, lineEnd_append_right,
      lineEnd_append_left hx (lineEnd_lt hg hopen), Nat.add_comm]

/-- Of a text that is one loop the body reads as a program. -/
theorem Matches.exists_body {d : Nat} (hm : fragment.Matches d 0 (fragment.size - 1)) :
    fragment.glyph? 0 = some .opening ∧ fragment.inComment fragment.size = false ∧
      ∃ inner body, fragment.Reads inner 1 body (fragment.size - 1) := by
  obtain ⟨hclosing, outer, hx⟩ := id hm
  obtain ⟨-, hopening, -, h0⟩ := context_opened [] hx
  obtain rfl : outer = [] := (congrArg Context.opened (Except.ok.inj h0)).symm
  have hend := context_succ_closing hx hclosing
  have hsize := lt_size_of_glyph? hclosing
  rw [Nat.sub_add_cancel (Nat.one_le_of_lt hsize)] at hend
  refine ⟨hopening, inComment_of_context hend, ?_⟩
  have hdefect : fragment.defect? d = none := defect?_of_context_end (Nat.le_refl _) hend
  obtain ⟨tree, stop, hstop, hreads⟩ := defect?_eq_none_iff.mp hdefect
  cases hreads with
  | done hgap =>
    obtain rfl := hgap.eq_of_stops (stops_of_opening hopening)
    cases hstop.symm.trans hopening
  | command hgap hg =>
    obtain rfl := hgap.eq_of_stops (stops_of_opening hopening)
    cases hg.symm.trans hopening
  | @loop room _ _ c _ body _ hgap ho hbody hc =>
    obtain rfl := hgap.eq_of_stops (stops_of_opening hopening)
    have hm' : fragment.Matches (room + 1) 0 c :=
      Reads.matches_of_loop (openAt_of_context rfl) ho hbody hc (by simp)
    obtain rfl := hm.unique hm'
    exact ⟨room, body, hbody⟩

end Source

/-! ## Fragments -/

/-- Behind `pre`, which ends outside comments, the fragment has no effect: it is a command with the
one that undoes it, or a loop at the start of a text or directly behind a closing bracket. -/
inductive Source.Inert (pre : Source) : Source → Prop
  | pair {char char' : Char} {c c' : Command} (hc : Glyph.ofChar char = .command c)
      (hc' : Glyph.ofChar char' = .command c') (hundo : c.undo? = some c') :
      Inert pre #[char, char']
  | loop {fragment : Source} {d : Nat} (hm : fragment.Matches d 0 (fragment.size - 1))
      (hplace : pre = #[] ∨ pre.back? = some ']') : Inert pre fragment

/-- What can be known of a memory in front of a place: the cursor is on a cell, and the cell is zero
at the start and directly behind a closing bracket. -/
def Memory.InFrontOf (code : Source) (i : Nat) (m : Memory) : Prop :=
  m.OnCell ∧ (i = 0 ∨ code.glyph? (i - 1) = some .closing → m.OnZero)

theorem Memory.inFrontOf_of_glyph {code : Source} {p : Nat} {g : Glyph} {m : Memory}
    (hg : code.glyph? p = some g) (hne : g ≠ .closing) (h : m.OnCell) :
    m.InFrontOf code (p + 1) := by
  refine ⟨h, fun hplace => ?_⟩
  rcases hplace with hstart | hclosing
  · cases hstart
  · rw [Nat.add_sub_cancel, hg] at hclosing
    exact absurd (Option.some.inj hclosing) hne

theorem Memory.OnZero.inFrontOf {m : Memory} (h : m.OnZero) (code : Source) (i : Nat) :
    m.InFrontOf code i :=
  ⟨h.onCell, fun _ => h⟩

namespace Source

variable {pre fragment post : Source}

/-- In front of a program that is to come next the fragment may be run, which takes some depth. -/
def Grafts (pre fragment post : Source) (b : Behaviour) (d : Nat) : Prop :=
  ∀ {room i j : Nat} {t : Program}, (pre ++ post).Gap i pre.size →
    (pre ++ fragment ++ post).Reads room (pre.size + fragment.size) t j →
    ∃ t', (pre ++ fragment ++ post).Reads (room + d) pre.size t' j ∧
      t.Same b (Memory.InFrontOf (pre ++ post) i) t'

theorem Inert.exists_grafts (h : Inert pre fragment) (post : Source) (b : Behaviour) :
    ∃ d, Grafts pre fragment post b d := by
  cases h with
  | @pair char char' c c' hc hc' hundo =>
    have hfirst : glyph? #[char, char'] 0 = some (.command c) := congrArg some hc
    have hsecond : glyph? #[char, char'] 1 = some (.command c') := congrArg some hc'
    rw [← glyph?_inside pre post (lt_size_of_glyph? hfirst)] at hfirst
    rw [← glyph?_inside pre post (lt_size_of_glyph? hsecond)] at hsecond
    refine ⟨0, fun _ hreads => ⟨_,
      .command (.refl _) hfirst (.command (.refl _) hsecond hreads),
      (Program.Same.undone hundo _ _ _).mono fun m hm => hm.1⟩⟩
  | @loop _ d hm hplace =>
    obtain ⟨hopening, hopen, inner, body, hbody⟩ := hm.exists_body
    have hsize := lt_size_of_glyph? hm.1
    have hinside := hbody.carried (carried_inside pre post hopen) (Nat.zero_le _) (Nat.sub_le _ _)
    rw [Nat.add_comm 1, Nat.add_comm _ pre.size] at hinside
    have hfirst : (pre ++ fragment ++ post).glyph? pre.size = some .opening :=
      (glyph?_inside pre post (Nat.zero_lt_of_lt hsize)).trans hopening
    have hlast : (pre ++ fragment ++ post).glyph? (pre.size + (fragment.size - 1)) =
        some .closing := (glyph?_inside pre post hsize).trans hm.1
    refine ⟨inner + 1, fun {room i j t} hgap hreads => ⟨.loop pre.size _ t,
      .loop (.refl _) hfirst (hinside.mono (Nat.le_add_left _ room)) hlast ?_,
      (Program.Same.unentered _ _ _).mono fun m hm => hm.2 ?_⟩⟩
    · rw [Nat.add_assoc, Nat.sub_add_cancel (Nat.one_le_of_lt hsize)]
      exact hreads.mono (Nat.le_add_right room (inner + 1))
    · rcases hplace with rfl | hback
      · exact Or.inl (Nat.le_zero.mp hgap.le)
      · rw [Array.back?_eq_getElem?] at hback
        have hlt := (Array.getElem?_eq_some_iff.mp hback).1
        have hclosing : (pre ++ post).glyph? (pre.size - 1) = some .closing := by
          rw [glyph?_append_left hlt, glyph?, hback]
          rfl
        -- Nothing stands between the bracket and the fragment.
        obtain rfl := hgap.eq_of_closing hclosing
        exact Or.inr hclosing

/-! ## Trees with a fragment inside -/

/-- With the fragment inserted the text reads from `i` on as a program that comes to the same. -/
def ReadsWith (pre fragment post : Source) (b : Behaviour) (d room i : Nat) (t : Program)
    (j : Nat) : Prop :=
  ∃ t', (pre ++ fragment ++ post).Reads (room + d) i t' (j + fragment.size) ∧
    (t.relocate (moved pre.size fragment.size)).Same b (Memory.InFrontOf (pre ++ post) i) t'

namespace ReadsWith

variable {b : Behaviour} {d room i j x o c : Nat} {t body rest : Program} {k : Command}

/-- The fragment comes next. -/
theorem here (hgraft : Grafts pre fragment post b d) (hopen : pre.inComment pre.size = false)
    (hgap : (pre ++ post).Gap i x) (hi : i ≤ pre.size) (hx : pre.size ≤ x)
    (h : (pre ++ post).Gap pre.size x → (pre ++ post).Reads room pre.size t j) :
    ReadsWith pre fragment post b d room i t j := by
  have hcomment : ∀ y < pre.size, (pre ++ post).glyph? y = some .comment →
      (pre ++ post).lineEnd y < pre.size := by
    intro y hy hg
    rw [glyph?_append_left hy] at hg
    have hlt := lineEnd_lt hg hopen
    rwa [lineEnd_append_left hy hlt]
  obtain ⟨hfront, hbehind⟩ := hgap.cut hi hx hcomment
  have hmoved := (h hbehind).carried (carried_right pre fragment post j) (Nat.le_refl _)
    (Nat.le_refl _)
  obtain ⟨t', ht', hsame⟩ := hgraft hfront hmoved
  have hleft := hfront.carried (carried_left hopen fragment post) (Nat.zero_le _) (Nat.le_refl _)
  exact ⟨t', ht'.of_gap hleft, hsame⟩

/-- The fragment comes behind a command. -/
theorem behindCommand (hopen : pre.inComment pre.size = false) (hgap : (pre ++ post).Gap i x)
    (hx : x < pre.size) (hg : (pre ++ post).glyph? x = some (.command k))
    (h : ReadsWith pre fragment post b d room (x + 1) rest j) :
    ReadsWith pre fragment post b d room i (.command k x rest) j := by
  obtain ⟨rest', hrest, hsame⟩ := h
  have hleft := carried_left hopen fragment post
  have hcommand := (hleft.glyph x (Nat.zero_le _) hx).trans hg
  refine ⟨.command k x rest', .command (hgap.carried hleft (Nat.zero_le _) (Nat.le_of_lt hx))
    hcommand hrest, ?_⟩
  rw [Program.relocate, hleft.place x (Nat.zero_le _) hx]
  have hnot : Glyph.command k ≠ .closing := fun h => Glyph.noConfusion h
  exact (hsame.mono fun m hm => Memory.inFrontOf_of_glyph hg hnot hm).command.mono
    fun m hm => hm.1

/-- The fragment stands in the body of a loop. -/
theorem inBody (hopen : pre.inComment pre.size = false) (hgap : (pre ++ post).Gap i o)
    (hx : o < pre.size) (ho : (pre ++ post).glyph? o = some .opening)
    (h : ReadsWith pre fragment post b d room (o + 1) body c) (hc : pre.size ≤ c)
    (hclose : (pre ++ post).glyph? c = some .closing)
    (hrest : (pre ++ post).Reads (room + 1) (c + 1) rest j) :
    ReadsWith pre fragment post b d (room + 1) i (.loop o body rest) j := by
  obtain ⟨body', hbody, hsame⟩ := h
  have hleft := carried_left hopen fragment post
  have hright := carried_right pre fragment post j
  have hopening := (hleft.glyph o (Nat.zero_le _) hx).trans ho
  have hclosing := (hright.glyph c hc hrest.le).trans hclose
  have hbehind := hrest.carried hright (Nat.le_succ_of_le hc) (Nat.le_refl _)
  rw [Nat.add_right_comm c] at hbehind
  refine ⟨.loop o body' (rest.relocate (moved pre.size fragment.size)), ?_, ?_⟩
  · rw [Nat.add_right_comm]
    exact .loop (hgap.carried hleft (Nat.zero_le _) (Nat.le_of_lt hx)) hopening hbody hclosing
      (hbehind.mono (by omega))
  · exact (Program.Same.loop (hsame.mono fun m hm => Memory.inFrontOf_of_glyph ho nofun hm)
      (.refl _)).mono fun m hm => hm.1

/-- The fragment comes behind a loop. -/
theorem behindLoop (hopen : pre.inComment pre.size = false) (hgap : (pre ++ post).Gap i o)
    (ho : (pre ++ post).glyph? o = some .opening)
    (hbody : (pre ++ post).Reads room (o + 1) body c) (hc : c < pre.size)
    (hclose : (pre ++ post).glyph? c = some .closing)
    (h : ReadsWith pre fragment post b d (room + 1) (c + 1) rest j) :
    ReadsWith pre fragment post b d (room + 1) i (.loop o body rest) j := by
  obtain ⟨rest', hrest, hsame⟩ := h
  have hx : o < pre.size := Nat.lt_trans hbody.le hc
  have hleft := carried_left hopen fragment post
  have hopening := (hleft.glyph o (Nat.zero_le _) hx).trans ho
  have hclosing := (hleft.glyph c (Nat.zero_le _) hc).trans hclose
  have hinside := hbody.carried hleft (Nat.zero_le _) (Nat.le_of_lt hc)
  refine ⟨.loop o (body.relocate (moved pre.size fragment.size)) rest', ?_, ?_⟩
  · rw [Nat.add_right_comm] at hrest ⊢
    exact .loop (hgap.carried hleft (Nat.zero_le _) (Nat.le_of_lt hx)) hopening
      (hinside.mono (Nat.le_add_right _ _)) hclosing hrest
  · exact (Program.Same.loop (.refl _) (hsame.mono fun m hm => hm.inFrontOf _ _)).mono
      fun m hm => hm.1

end ReadsWith

/-- The induction goes down to the place of the fragment, behind what is in front of it and inside
the loops around it. -/
theorem Reads.readsWith {b : Behaviour} {d room i j : Nat} {t : Program}
    (h : (pre ++ post).Reads room i t j) (hgraft : Grafts pre fragment post b d)
    (hopen : pre.inComment pre.size = false) (hi : i ≤ pre.size) (hj : pre.size ≤ j) :
    ReadsWith pre fragment post b d room i t j := by
  induction h with
  | done hgap => exact .here hgraft hopen hgap hi hj .done
  | @command room i x j k rest hgap hg hrest ih =>
    rcases Nat.lt_or_ge x pre.size with hx | hx
    · exact .behindCommand hopen hgap hx hg (ih hx hj)
    · exact .here hgraft hopen hgap hi hx fun hbehind => .command hbehind hg hrest
  | @loop room i o c j body rest hgap ho hbody hclose hrest ihbody ihrest =>
    rcases Nat.lt_or_ge o pre.size with hx | hx
    · rcases Nat.lt_or_ge c pre.size with hc | hc
      · exact .behindLoop hopen hgap ho hbody hc hclose (ihrest hc hj)
      · exact .inBody hopen hgap hx ho (ihbody hx hc) hc hclose hrest
    · exact .here hgraft hopen hgap hi hx fun hbehind => .loop hbehind ho hbody hclose hrest

theorem moved_undone (k n : Nat) : ∃ g : Nat → Nat, ∀ p, g (moved k n p) = p := by
  refine ⟨fun p => if p < k then p else p - n, fun p => ?_⟩
  by_cases hp : p < k
  · simp only [moved, if_pos hp]
  · have hp' : ¬ p + n < k := fun h => hp (Nat.lt_of_le_of_lt (Nat.le_add_right p n) h)
    simp only [moved, if_neg hp, if_neg hp', Nat.add_sub_cancel]

/-- A text without a defect stays one with the fragment, unless its loops then nest too deep. -/
theorem Inert.exists_parses (h : Inert pre fragment) (hopen : pre.inComment pre.size = false)
    {maxDepth : Nat} {tree : Program} (hparses : (pre ++ post).Parses maxDepth tree)
    (hdepth : ∀ p limit, (pre ++ fragment ++ post).defect? maxDepth ≠
      some (.nestingTooDeep p limit)) (b : Behaviour) :
    ∃ tree', (pre ++ fragment ++ post).Parses maxDepth tree' ∧
      (tree.relocate (moved pre.size fragment.size)).Same b Memory.OnZero tree' := by
  obtain ⟨d, hgraft⟩ := h.exists_grafts post b
  obtain ⟨stop, hstop, hreads⟩ := hparses
  have hsize := glyph?_eq_none_iff.mp hstop
  rw [Array.size_append] at hsize
  obtain ⟨tree', hreads', hsame⟩ := hreads.readsWith hgraft hopen (Nat.zero_le _) (by omega)
  have hstop' : (pre ++ fragment ++ post).glyph? (stop + fragment.size) = none := by
    rw [glyph?_eq_none_iff, Array.size_append, Array.size_append]
    omega
  have hdeeper := defect?_eq_none_iff.mpr ⟨tree', _, hstop', hreads'⟩
  -- There is room enough for the tree, and what the fragment takes is not too much.
  rcases (pre ++ fragment ++ post).defect?_deeper (Nat.le_add_right maxDepth d) with
    hdefect | ⟨p, hdeep⟩
  · rw [hdeeper] at hdefect
    obtain ⟨tree'', hparses''⟩ := defect?_eq_none_iff.mp hdefect.symm
    obtain ⟨stop'', hstop'', hreads''⟩ := id hparses''
    obtain ⟨rfl, -⟩ := hreads''.unique hreads' (Or.inl hstop'') (Or.inl hstop')
    exact ⟨tree'', hparses'', hsame.mono fun m hm => hm.inFrontOf _ _⟩
  · exact absurd hdeep (hdepth p maxDepth)

end Source

/-- Fragments without effect may be inserted anywhere outside comments, in a program that is not
limited, as long as the loops of the longer program do not nest too deep. The one program ends if
and only if the other one does, and then both have made the same calls, with the same tape and the
same result, up to the places of the characters behind the fragment. -/
theorem inert_fragments_may_be_inserted (b : Behaviour) (settings : Settings)
    (pre fragment post : Source) (hunlimited : Unlimited b settings)
    (hdefect : (pre ++ post).defect? settings.maxDepth = none)
    (hopen : pre.inComment pre.size = false) (hinert : pre.Inert fragment)
    (hdepth : ∀ p limit, (pre ++ fragment ++ post).defect? settings.maxDepth ≠
      some (.nestingTooDeep p limit)) :
    ((∃ outcome calls, Evaluates b settings (pre ++ post) outcome calls) ↔
      ∃ outcome calls, Evaluates b settings (pre ++ fragment ++ post) outcome calls) ∧
    ∀ outcome outcome' calls calls', Evaluates b settings (pre ++ post) outcome calls →
      Evaluates b settings (pre ++ fragment ++ post) outcome' calls' →
        calls' = calls ∧ outcome'.tape = outcome.tape ∧
          outcome'.result =
            outcome.result.mapError (.relocate (Source.moved pre.size fragment.size)) := by
  obtain ⟨tree, hparses⟩ := Source.defect?_eq_none_iff.mp hdefect
  obtain ⟨tree', hparses', hsame⟩ := hinert.exists_parses hopen hparses hdepth b
  obtain ⟨g, hg⟩ := Source.moved_undone pre.size fragment.size
  have hzero : (Memory.initial (settings.under none).capacity).OnZero :=
    Memory.onZero_initial settings.capacity
  have hend : Source.moved pre.size fragment.size (pre ++ post).size =
      (pre ++ fragment ++ post).size := by
    simp only [Source.moved, Array.size_append]
    rw [if_neg (by omega)]
    omega
  -- Inserted commands are counted as well, so the trees are compared where nothing is.
  have hthere : ∀ {outcome calls}, Evaluates b (settings.under none) (pre ++ post) outcome calls →
      Evaluates b (settings.under none) (pre ++ fragment ++ post)
        (outcome.relocate (Source.moved pre.size fragment.size)) calls := by
    intro outcome calls h
    have hmoved := (tree_of_evaluates h hparses).replaced rfl hsame hzero
    rw [hend] at hmoved
    exact evaluates_of_tree hmoved hparses'
  constructor
  · constructor
    · rintro ⟨outcome, calls, h⟩
      obtain ⟨k, hfree⟩ := hunlimited.uncounted.1 h
      obtain ⟨k', hlong⟩ := hunlimited.uncounted.2 (hthere hfree)
      exact ⟨_, _, hlong⟩
    · rintro ⟨outcome, calls, h⟩
      obtain ⟨k, hfree⟩ := hunlimited.uncounted.1 h
      obtain ⟨outcome', calls', hshort⟩ :=
        (tree_of_evaluates hfree hparses').of_replaced rfl hg hsame hzero (pre ++ post).size
      obtain ⟨k', hshort⟩ := hunlimited.uncounted.2 (evaluates_of_tree hshort hparses)
      exact ⟨_, _, hshort⟩
  · intro outcome outcome' calls calls' h h'
    obtain ⟨k, hfree⟩ := hunlimited.uncounted.1 h
    obtain ⟨k', hfree'⟩ := hunlimited.uncounted.1 h'
    obtain ⟨houtcome, rfl⟩ := Machine.Evaluates.unique hfree' (hthere hfree)
    have htape := congrArg Outcome.tape houtcome
    have hresult := congrArg Outcome.result houtcome
    exact ⟨rfl, htape, hresult⟩

/-- Behind a loop another one that would write is never entered, so both programs write a zero. -/
theorem loop_behind_a_loop_may_be_inserted :
    Unlimited .mute { capacity := 1 } ∧
    (Source.ofString "+[-]" ++ Source.ofString ".").defect? defaultMaxDepth = none ∧
    (Source.ofString "+[-]").inComment (Source.ofString "+[-]").size = false ∧
    (Source.ofString "+[-]").Inert (Source.ofString "[.]") ∧
    ((∃ outcome calls, Evaluates .mute { capacity := 1 }
        (Source.ofString "+[-]" ++ Source.ofString ".") outcome calls) ↔
      ∃ outcome calls, Evaluates .mute { capacity := 1 }
        (Source.ofString "+[-]" ++ Source.ofString "[.]" ++ Source.ofString ".") outcome calls) ∧
    ∀ outcome outcome' calls calls', Evaluates .mute { capacity := 1 }
        (Source.ofString "+[-]" ++ Source.ofString ".") outcome calls →
      Evaluates .mute { capacity := 1 }
        (Source.ofString "+[-]" ++ Source.ofString "[.]" ++ Source.ofString ".") outcome' calls' →
        calls' = calls ∧ outcome'.tape = outcome.tape ∧
          outcome'.result = outcome.result.mapError (.relocate (Source.moved 4 3)) := by
  have hinert : (Source.ofString "+[-]").Inert (Source.ofString "[.]") :=
    .loop (d := 1) ⟨by decide, [], by decide⟩ (Or.inr (by decide))
  have hdefect : (Source.ofString "+[-]" ++ Source.ofString "[.]" ++
      Source.ofString ".").defect? defaultMaxDepth = none := by decide
  exact ⟨Or.inl rfl, by decide, by decide, hinert,
    inert_fragments_may_be_inserted .mute { capacity := 1 } (Source.ofString "+[-]")
      (Source.ofString "[.]") (Source.ofString ".") (Or.inl rfl) (by decide) (by decide) hinert
      fun p limit hdeep => nomatch hdefect.symm.trans hdeep⟩

end TapeInterpreter
