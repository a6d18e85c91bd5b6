import TapeInterpreter.Proofs.Coupling

/-!
# One text inside another

Where the characters of one source have their places in another one, a run over the second keeps
together with a run over the first for as long as it is at one of these places. How the positions of
the two runs correspond in between is left open.
-/
namespace TapeInterpreter
set_option autoImplicit false

/-- Every character of `code'` has its place in `code`. Positions behind them correspond by `P`. -/
structure Placement (place : Nat → Nat) (P : Nat → Nat → Prop) (code code' : Source) : Prop where
  inj {i j : Nat} : i < code'.size → j < code'.size → place i = place j → i = j
  lt {j : Nat} : j < code'.size → place j < code.size
  char {j : Nat} : j < code'.size → code[place j]? = code'[j]?
  behind {j : Nat} : j < code'.size → P (place j + 1) (j + 1)
  comment {j : Nat} : code'.glyph? j = some .comment →
    P (code.lineEnd (place j) + 1) (code'.lineEnd j + 1)

/-- The state `s` of a run over `code` stands for the state `t` of one over `code'`. Brackets of
other loops than those of `code'` are remembered as in `kept`. -/
structure Placed (place : Nat → Nat) (P : Nat → Nat → Prop) (kept : Nat → Option Nat)
    (code code' : Source) (s t : State) : Prop where
  position : P s.position t.position
  frames : s.frames = t.frames.map (Frame.relocate place)
  openings : ∀ f ∈ t.frames, f.opening < code'.size
  tape : s.tape = t.tape
  steps : s.steps = t.steps
  closings : ∀ o < code'.size, s.closing? (place o) = (t.closing? o).map place
  closed : ∀ o c, t.closing? o = some c → c < code'.size
  elsewhere : ∀ o, (∀ j < code'.size, place j ≠ o) → s.closing? o = kept o
  room : s.closings.size = code.size
  room' : t.closings.size = code'.size

/-- Both runs are in front of the same character, or behind the last one. -/
structure Aligned (place : Nat → Nat) (P : Nat → Nat → Prop) (kept : Nat → Option Nat)
    (code code' : Source) (s t : State) : Prop extends Placed place P kept code code' s t where
  aligned : t.position < code'.size ∧ s.position = place t.position ∨
    code'.size ≤ t.position ∧ code.size ≤ s.position

variable {place : Nat → Nat} {P : Nat → Nat → Prop} {kept : Nat → Option Nat} {settings : Settings}
  {code code' : Source} {s t : State}

/-- What is remembered behind one more closing bracket. -/
theorem closing?_set (closings : Array (Option Nat)) (opening closing o : Nat)
    (h : opening < closings.size) :
    (closings.setIfInBounds opening (some closing))[o]?.join =
      if opening = o then some closing else closings[o]?.join := by
  rw [Array.getElem?_setIfInBounds]
  by_cases ho : opening = o
  · rw [if_pos ho, if_pos ho, if_pos h]; rfl
  · rw [if_neg ho, if_neg ho]

theorem State.closing?_initial (capacity o : Nat) (code : Source) :
    (State.initial capacity code).closing? o = none := by
  simp only [State.closing?, State.initial, Array.getElem?_replicate]
  split <;> rfl

namespace Placed

theorem initial (capacity : Nat) (h : P 0 0) :
    Placed place P (fun _ => none) code code' (State.initial capacity code)
      (State.initial capacity code') where
  position := h
  frames := rfl
  openings _ hf := by cases hf
  tape := rfl
  steps := rfl
  closings o _ := by rw [State.closing?_initial, State.closing?_initial]; rfl
  closed o c hc := by rw [State.closing?_initial] at hc; cases hc
  elsewhere o _ := State.closing?_initial capacity o code
  room := Array.size_replicate
  room' := Array.size_replicate

theorem level_eq (h : Placed place P kept code code' s t) : s.level = t.level := by
  unfold State.level
  rw [h.frames]
  cases t.frames <;> rfl

/-- Both runs move on to corresponding positions. -/
theorem goto (h : Placed place P kept code code' s t) {p q : Nat} (hp : P p q) :
    Placed place P kept code code' (s.goto p) (t.goto q) :=
  { h with position := hp }

end Placed

namespace Aligned

theorem position_eq (h : Aligned place P kept code code' s t) (hlt : t.position < code'.size) :
    s.position = place t.position :=
  (h.aligned.resolve_right fun hend => Nat.not_le.mpr hlt hend.1).2

variable (hplace : Placement place P code code')
include hplace

theorem char_eq (h : Aligned place P kept code code' s t) :
    code[s.position]? = code'[t.position]? := by
  rcases h.aligned with ⟨hlt, hp⟩ | ⟨ht, hs⟩
  · rw [hp, hplace.char hlt]
  · rw [Array.getElem?_eq_none ht, Array.getElem?_eq_none hs]

/-- Both runs move on behind the character. -/
theorem next (h : Aligned place P kept code code' s t) (hlt : t.position < code'.size) :
    Placed place P kept code code' s.next t.next :=
  { h with
    position := by
      have hp := hplace.behind hlt
      rw [← h.position_eq hlt] at hp
      exact hp }

theorem enter (h : Aligned place P kept code code' s t) (hlt : t.position < code'.size)
    (pass : Pass) : Placed place P kept code code' (s.enter pass) (t.enter pass) :=
  { h.next hplace hlt with
    frames := by
      simp only [State.enter, List.map_cons, Frame.relocate, h.position_eq hlt,
        h.toPlaced.level_eq, h.frames]
    openings := by
      intro f hf
      rcases List.mem_cons.mp hf with rfl | hf
      · exact hlt
      · exact h.openings f hf }

theorem skip (h : Aligned place P kept code code' s t) (hlt : t.position < code'.size) :
    Placed place P kept code code' s.skip t.skip := by
  have hclosing := h.closings t.position hlt
  rw [← h.position_eq hlt] at hclosing
  rw [State.skip, State.skip, hclosing]
  cases hc : t.closing? t.position with
  | none => exact h.enter hplace hlt .skipping
  | some c => exact h.toPlaced.goto (hplace.behind (h.closed _ c hc))

theorem leave {f : Frame} {outer : List Frame} (h : Aligned place P kept code code' s t)
    (hlt : t.position < code'.size) (hf : t.frames = f :: outer) :
    Placed place P kept code code' (s.leave (f.relocate place) (outer.map (Frame.relocate place)))
      (t.leave f outer) := by
  have hopening : f.opening < code'.size := h.openings f (by simp [hf])
  have hs := fun o => closing?_set s.closings (place f.opening) s.position o
    (h.room ▸ hplace.lt hopening)
  have ht := fun o => closing?_set t.closings f.opening t.position o (h.room' ▸ hopening)
  exact
    { h.next hplace hlt with
      frames := rfl
      openings := fun g hg => h.openings g (hf ▸ List.mem_cons_of_mem f hg)
      closings := by
        intro o ho
        refine (hs (place o)).trans (Eq.trans ?_ (congrArg _ (ht o)).symm)
        by_cases hfo : f.opening = o
        · rw [if_pos (congrArg place hfo), if_pos hfo, h.position_eq hlt]
          rfl
        · rw [if_neg fun he => hfo (hplace.inj hopening ho he), if_neg hfo]
          exact h.closings o ho
      closed := by
        intro o c hc
        have hc := (ht o).symm.trans hc
        split at hc
        · cases hc; exact hlt
        · exact h.closed o c hc
      elsewhere := by
        intro o ho
        refine (hs o).trans ?_
        rw [if_neg (ho f.opening hopening)]
        exact h.elsewhere o ho
      room := by rw [← h.room]; exact Array.size_setIfInBounds
      room' := by rw [← h.room']; exact Array.size_setIfInBounds }

end Aligned

/-- Runs over a text and over one inside which it has its places take alike steps there. -/
theorem Placement.coupled (h : Placement place P code code') :
    Coupled place .remembering .remembering settings code code' (Aligned place P kept code code')
      (Placed place P kept code code') where
  position hAt hlt := hAt.position_eq hlt
  frames hAt := hAt.frames
  tape hAt := hAt.tape
  steps hAt := hAt.steps
  char hAt := hAt.char_eq h
  charged hAt n := { hAt with steps := rfl }
  next hAt hg tape := by
    have hlt := hg.elim Source.lt_size_of_glyph? fun ⟨_, hg⟩ => Source.lt_size_of_glyph? hg
    exact { hAt.next h hlt with tape := rfl }
  comment hAt hg := by
    rw [hAt.position_eq (Source.lt_size_of_glyph? hg)]
    exact hAt.toPlaced.goto (h.comment hg)
  enter hAt hg _ := hAt.enter h (Source.lt_size_of_glyph? hg) .running
  skip hAt hg _ := hAt.skip h (Source.lt_size_of_glyph? hg)
  leave hAt hg hf _ := hAt.leave h (Source.lt_size_of_glyph? hg) hf
  exit hAt hg hf _ := hAt.leave h (Source.lt_size_of_glyph? hg) hf
  restart hAt hg hf _ := hAt.toPlaced.goto (h.behind (hAt.openings _ (by simp [hf])))

end TapeInterpreter
