import Mathlib.Data.Int.ModEq
import TapeInterpreter.Tape.InRange

/-!
# Tapes by displacement

From cell 0 every displacement, to the right or to the left, leads round the ring to a cell. Seen
so, motion has no ends to wrap at, and displacements less than a lap apart lead to different cells.
-/
namespace TapeInterpreter.Tape
set_option autoImplicit false

/-- The cell to which `d` leads from cell 0, to the right or, if negative, to the left. -/
def index (t : Tape) (d : Int) : Nat := (d % t.capacity).toNat

/-- The value of the cell at displacement `d`. A tape without cells has none. -/
def at? (t : Tape) (d : Int) : Option UInt8 := t.cells[t.index d]?

/-- The cursor is where `d` leads from cell 0. -/
structure StandsAt (t : Tape) (d : Int) : Prop where
  pos : 0 < t.capacity
  cursor : t.cursor = t.index d

variable {t u : Tape} {d e : Int}

theorem coe_index (h : 0 < t.capacity) (d : Int) : (t.index d : Int) = d % t.capacity :=
  Int.toNat_of_nonneg (Int.emod_nonneg d (by omega))

theorem index_lt (h : 0 < t.capacity) (d : Int) : t.index d < t.capacity := by
  have hlt := Int.emod_lt_of_pos d (b := t.capacity) (by omega)
  rw [← coe_index h d] at hlt
  exact_mod_cast hlt

/-- Less than a lap apart two displacements lead to different cells. -/
theorem index_ne (h : 0 < t.capacity) (hne : d ≠ e) (hlt : |d - e| < t.capacity) :
    t.index d ≠ t.index e := by
  intro he
  have hmod : d % t.capacity = e % t.capacity := by rw [← coe_index h, ← coe_index h, he]
  have hdvd : (t.capacity : Int) ∣ d - e := Int.ModEq.dvd (Int.ModEq.symm hmod)
  exact hne (sub_eq_zero.mp (Int.eq_zero_of_abs_lt_dvd hdvd hlt))

theorem at?_blank (n : Nat) (d : Int) : (blank n).at? d = some 0 := by
  have hlt := index_lt (Nat.zero_lt_of_lt (inRange_blank n)) d
  rw [at?, Array.getElem?_eq_getElem hlt]
  simp only [Tape.blank, Array.getElem_replicate]

namespace StandsAt

theorem blank (n : Nat) : (blank n).StandsAt 0 :=
  ⟨Nat.zero_lt_of_lt (inRange_blank n), by simp [Tape.blank, index]⟩

theorem inRange (h : t.StandsAt d) : t.InRange := by
  rw [InRange, h.cursor]
  exact index_lt h.pos d

theorem advance (h : t.StandsAt d) : t.advance.StandsAt (d + 1) := by
  refine ⟨h.pos, ?_⟩
  have hcursor : (t.cursor : Int) = d % t.capacity := h.cursor ▸ coe_index h.pos d
  have hnext : ((t.advance.cursor : Nat) : Int) = (d + 1) % t.capacity := by
    change (((t.cursor + 1) % t.capacity : Nat) : Int) = _
    rw [Int.natCast_emod, Int.natCast_add, hcursor, Int.natCast_one, Int.emod_add_emod]
  have hindex := coe_index (t := t.advance) h.pos (d + 1)
  rw [capacity_advance] at hindex
  exact_mod_cast hnext.trans hindex.symm

theorem retreat (h : t.StandsAt d) : t.retreat.StandsAt (d - 1) := by
  refine ⟨h.pos, ?_⟩
  have hcursor : (t.cursor : Int) = d % t.capacity := h.cursor ▸ coe_index h.pos d
  have hpos := h.pos
  have hnext : ((t.retreat.cursor : Nat) : Int) = (d - 1) % t.capacity := by
    change (((t.cursor + t.capacity - 1) % t.capacity : Nat) : Int) = _
    rw [Int.natCast_emod, Nat.add_sub_assoc hpos, Int.natCast_add, Int.natCast_sub hpos, hcursor,
      Int.natCast_one, Int.emod_add_emod,
      show d + ((t.capacity : Int) - 1) = d - 1 + t.capacity by omega, Int.add_emod_right]
  have hindex := coe_index (t := t.retreat) h.pos (d - 1)
  rw [capacity_retreat] at hindex
  exact_mod_cast hnext.trans hindex.symm

/-- The current cell is the one at the displacement of the cursor. -/
theorem at?_eq (h : t.StandsAt d) : t.at? d = some (t.cell h.inRange) := by
  rw [at?, ← h.cursor]
  exact Array.getElem?_eq_getElem h.inRange

theorem read {byte : UInt8} (h : t.StandsAt d) (hbyte : t.at? d = some byte) :
    t.read = .ok byte := by
  rw [h.inRange.read_eq_ok, Option.some.inj (h.at?_eq.symm.trans hbyte)]

/-- A change to the current cell succeeds, moves nothing, and within a lap changes nothing else. -/
theorem modify {byte : UInt8} (h : t.StandsAt d) (hbyte : t.at? d = some byte) (use : CellUse)
    (f : UInt8 → UInt8) :
    ∃ u, t.modify use f = .ok u ∧ u.StandsAt d ∧ u.capacity = t.capacity ∧
      u.at? d = some (f byte) ∧ ∀ e, e ≠ d → |e - d| < t.capacity → u.at? e = t.at? e := by
  obtain ⟨u, hu, -, -, hcursor, hcapacity, hcell, hothers⟩ := h.inRange.modify_seen use f
  have hindex : ∀ e, u.index e = t.index e := fun e => by rw [index, index, hcapacity]
  refine ⟨u, hu, ⟨hcapacity ▸ h.pos, by rw [hcursor, hindex, h.cursor]⟩, hcapacity, ?_, ?_⟩
  · rw [at?, hindex, ← h.cursor, hcell, Option.some.inj (h.at?_eq.symm.trans hbyte)]
  · intro e hne hlt
    rw [at?, hindex, at?]
    exact hothers _ (h.cursor ▸ index_ne h.pos hne hlt)

end StandsAt

end TapeInterpreter.Tape
