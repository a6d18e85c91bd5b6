import TapeInterpreter.Tape

/-!
A tape whose cursor indexes a cell stays one under every operation, and no operation on it fails.
-/
namespace TapeInterpreter.Tape
set_option autoImplicit false

/-- The cursor indexes a cell. -/
def InRange (t : Tape) : Prop := t.cursor < t.capacity

/-- The value of the current cell. -/
def cell (t : Tape) (h : t.InRange) : UInt8 :=
  have : t.cursor < t.cells.size := h
  t.cells[t.cursor]

@[simp] theorem capacity_blank (n : Nat) : (blank n).capacity = max n 1 := by
  simp [blank, capacity]

@[simp] theorem capacity_advance (t : Tape) : t.advance.capacity = t.capacity := rfl

@[simp] theorem capacity_retreat (t : Tape) : t.retreat.capacity = t.capacity := rfl

theorem inRange_blank (n : Nat) : (blank n).InRange := by
  rw [InRange, capacity_blank]
  exact Nat.lt_of_lt_of_le Nat.zero_lt_one (Nat.le_max_right n 1)

theorem InRange.advance {t : Tape} (h : t.InRange) : t.advance.InRange :=
  Nat.mod_lt _ (Nat.zero_lt_of_lt h)

theorem InRange.retreat {t : Tape} (h : t.InRange) : t.retreat.InRange :=
  Nat.mod_lt _ (Nat.zero_lt_of_lt h)

theorem InRange.advance_retreat {t : Tape} (h : t.InRange) : t.advance.retreat = t := by
  obtain ⟨cells, cursor⟩ := t
  simp only [InRange, capacity] at h
  simp only [Tape.advance, Tape.retreat, capacity, mk.injEq, true_and]
  by_cases hc : cursor + 1 = cells.size
  · rw [hc, Nat.mod_self, Nat.zero_add, Nat.mod_eq_of_lt (by omega)]
    omega
  · rw [Nat.mod_eq_of_lt (by omega : cursor + 1 < cells.size),
      show cursor + 1 + cells.size - 1 = cursor + cells.size by omega, Nat.add_mod_right,
      Nat.mod_eq_of_lt h]

theorem InRange.retreat_advance {t : Tape} (h : t.InRange) : t.retreat.advance = t := by
  obtain ⟨cells, cursor⟩ := t
  simp only [InRange, capacity] at h
  simp only [Tape.advance, Tape.retreat, capacity, mk.injEq, true_and]
  by_cases hc : cursor = 0
  · subst hc
    rw [Nat.zero_add, Nat.mod_eq_of_lt (by omega : cells.size - 1 < cells.size),
      show cells.size - 1 + 1 = cells.size by omega, Nat.mod_self]
  · rw [show cursor + cells.size - 1 = cursor - 1 + cells.size by omega, Nat.add_mod_right,
      Nat.mod_eq_of_lt (by omega : cursor - 1 < cells.size),
      show cursor - 1 + 1 = cursor by omega, Nat.mod_eq_of_lt h]

theorem InRange.read_eq_ok {t : Tape} (h : t.InRange) : t.read = .ok (t.cell h) :=
  dif_pos h

theorem InRange.modify_eq_ok {t : Tape} (h : t.InRange) (use : CellUse) (f : UInt8 → UInt8) :
    t.modify use f = .ok ⟨t.cells.set t.cursor (f (t.cell h)) h, t.cursor⟩ :=
  dif_pos h

/-- Whatever a cell is used for, its change moves no cursor and keeps every other cell. -/
theorem modify_keeps {t u : Tape} {use : CellUse} {f : UInt8 → UInt8}
    (h : t.modify use f = .ok u) :
    u.cursor = t.cursor ∧ u.capacity = t.capacity ∧
      ∀ i, i ≠ t.cursor → u.cells[i]? = t.cells[i]? := by
  unfold modify at h
  split at h
  · rename_i hc
    cases h
    exact ⟨rfl, Array.size_set hc, fun i hi => Array.getElem?_set_ne hc (Ne.symm hi)⟩
  · cases h

theorem InRange.of_modify {t u : Tape} {use : CellUse} {f : UInt8 → UInt8} (h : t.InRange)
    (hu : t.modify use f = .ok u) : u.InRange := by
  obtain ⟨hcursor, hcapacity, -⟩ := modify_keeps hu
  rw [InRange, hcursor, hcapacity]
  exact h

theorem InRange.cell_eq {t : Tape} {value : UInt8} (h : t.InRange)
    (hvalue : t.cells[t.cursor]? = some value) : t.cell h = value :=
  Option.some.inj ((Array.getElem?_eq_getElem h).symm.trans hvalue)

/-- A change to the current cell succeeds, and is seen there and nowhere else. -/
theorem InRange.modify_seen {t : Tape} (h : t.InRange) (use : CellUse) (f : UInt8 → UInt8) :
    ∃ u, t.modify use f = .ok u ∧ u.read = .ok (f (t.cell h)) ∧ u.InRange ∧
      u.cursor = t.cursor ∧ u.capacity = t.capacity ∧ u.cells[t.cursor]? = some (f (t.cell h)) ∧
      ∀ i, i ≠ t.cursor → u.cells[i]? = t.cells[i]? := by
  have hu := h.modify_eq_ok use f
  have hrange := h.of_modify hu
  obtain ⟨hcursor, hcapacity, hothers⟩ := modify_keeps hu
  have hcell := Array.getElem?_set_self (v := f (t.cell h)) h
  refine ⟨_, hu, ?_, hrange, hcursor, hcapacity, hcell, hothers⟩
  rw [hrange.read_eq_ok, hrange.cell_eq hcell]

/-- Two changes of which the second one takes back the first leave the tape as it was. -/
theorem InRange.modify_undone {t : Tape} (h : t.InRange) (use use' : CellUse) {f g : UInt8 → UInt8}
    (hfg : ∀ value, g (f value) = value) :
    (t.modify use f).bind (·.modify use' g) = .ok t := by
  obtain ⟨u, hu, -, hrange, hcursor, -, hvalue, hothers⟩ := h.modify_seen use f
  obtain ⟨v, hv, -, -, hcursor', -, hvalue', hothers'⟩ := hrange.modify_seen use' g
  rw [hcursor] at hcursor' hvalue' hothers'
  rw [hrange.cell_eq (hcursor.symm ▸ hvalue), hfg] at hvalue'
  have hcells : v.cells = t.cells := by
    apply Array.ext_getElem?
    intro i
    by_cases hi : i = t.cursor
    · rw [hi, hvalue']
      exact (Array.getElem?_eq_getElem h).symm
    · rw [hothers' i hi, hothers i hi]
  obtain ⟨cells, cursor⟩ := v
  rw [hu, Except.bind, hv]
  cases hcells
  cases hcursor'
  rfl

end TapeInterpreter.Tape
