import Mathlib.Data.List.DropRight
import TapeInterpreter.Proofs.Ring

/-!
# The history of a tape decides what it is

A history lists the operations performed on a blank tape, the oldest first. It alone says where the
cursor is and what each cell holds: the last value written there, and the increments and decrements
made there since. No operation that a history can go on with fails.
-/
namespace TapeInterpreter.Tape
set_option autoImplicit false

namespace Op

/-- The operation moves the cursor. Any other one is about the current cell. -/
def moves : Op → Bool
  | .advance | .retreat => true
  | _ => false

def motion : Op → Int
  | .advance => 1
  | .retreat => -1
  | _ => 0

/-- What the operation makes of the value of the current cell. -/
def change : Op → UInt8 → UInt8
  | .increment, value => value + 1
  | .decrement, value => value - 1
  | .write value, _ => value
  | _, value => value

def written? : Op → Option UInt8
  | .write value => some value
  | _ => none

end Op

/-- How far a history leads from cell 0: the advances, less the retreats. -/
def displacement (history : List Op) : Int := history.count .advance - history.count .retreat

/-- Those of `ops` that find the cursor on the cell `i` of a ring of `capacity` cells. In front of
them it is at displacement `d`. -/
def performedOn (capacity i : Nat) : Int → List Op → List Op
  | _, [] => []
  | d, op :: ops =>
    if d % capacity = i then op :: performedOn capacity i (d + op.motion) ops
    else performedOn capacity i (d + op.motion) ops

/-- The last value that is written, or else zero. -/
def lastWritten (ops : List Op) : UInt8 := (ops.filterMap Op.written?).getLastD 0

/-- The operations behind the last write, or else all. -/
def sinceWritten (ops : List Op) : List Op := ops.rtakeWhile fun op => op.written?.isNone

/-- The last value written, plus the increments since, minus the decrements since. -/
def balance (ops : List Op) : Int :=
  (lastWritten ops).toNat + (sinceWritten ops).count .increment -
    (sinceWritten ops).count .decrement

variable {t u : Tape} {op : Op} {ops history : List Op} {capacity i : Nat} {d : Int}

/-! ## Histories that grow by one operation -/

theorem displacement_append (ops ops' : List Op) :
    displacement (ops ++ ops') = displacement ops + displacement ops' := by
  simp only [displacement, List.count_append]
  omega

theorem displacement_singleton (op : Op) : displacement [op] = op.motion := by
  cases op <;> rfl

theorem performedOn_concat (capacity i : Nat) (d : Int) (ops : List Op) (op : Op) :
    performedOn capacity i d (ops ++ [op]) = performedOn capacity i d ops ++
      if (d + displacement ops) % capacity = i then [op] else [] := by
  induction ops generalizing d with
  | nil =>
    have hnil : displacement [] = 0 := rfl
    rw [List.nil_append, performedOn, performedOn, hnil, Int.add_zero, List.nil_append]
    split <;> rfl
  | cons o ops ih =>
    have hcons : displacement (o :: ops) = o.motion + displacement ops := by
      rw [← displacement_singleton, ← displacement_append, List.singleton_append]
    rw [List.cons_append, performedOn, performedOn, ih, hcons, Int.add_assoc]
    split <;> rfl

/-- A write is all that counts. -/
theorem balance_concat_write (ops : List Op) (value : UInt8) :
    balance (ops ++ [.write value]) = value.toNat := by
  have hlast : lastWritten (ops ++ [.write value]) = value := by
    simp [lastWritten, List.filterMap_append, Op.written?]
  have hsince : sinceWritten (ops ++ [.write value]) = [] :=
    List.rtakeWhile_concat_neg _ _ _ (by simp [Op.written?])
  rw [balance, hlast, hsince]
  simp

/-- Whatever is no write counts from the last write on. -/
theorem balance_concat (ops : List Op) (op : Op) (h : op.written? = none) :
    balance (ops ++ [op]) =
      balance ops + ([op].count .increment : Int) - ([op].count .decrement : Int) := by
  have hlast : lastWritten (ops ++ [op]) = lastWritten ops := by
    simp [lastWritten, List.filterMap_append, h]
  have hsince : sinceWritten (ops ++ [op]) = sinceWritten ops ++ [op] :=
    List.rtakeWhile_concat_pos _ _ _ (by simp [h])
  rw [balance, balance, hlast, hsince, List.count_append, List.count_append]
  omega

/-- A cell that holds its balance holds it still when an operation is performed on it. -/
theorem balance_change {value : UInt8} (h : (value.toNat : Int) = balance ops % 256) (op : Op) :
    ((op.change value).toNat : Int) = balance (ops ++ [op]) % 256 := by
  cases op with
  | write byte =>
    have hbyte : byte.toNat < 256 := byte.toNat_lt
    rw [balance_concat_write, Op.change]
    omega
  | increment =>
    have hadd : (value + 1).toNat = (value.toNat + 1) % 256 := UInt8.toNat_add value 1
    have hbalance : balance (ops ++ [.increment]) = balance ops + 1 := by
      simp [balance_concat ops .increment rfl]
    rw [Op.change, hadd, hbalance]
    omega
  | decrement =>
    have hsub : (value - 1).toNat = (256 - 1 + value.toNat) % 256 := UInt8.toNat_sub value 1
    have hbalance : balance (ops ++ [.decrement]) = balance ops - 1 := by
      simp [balance_concat ops .decrement rfl]
    rw [Op.change, hsub, hbalance]
    omega
  | advance => rw [balance_concat ops .advance rfl]; simpa [Op.change] using h
  | retreat => rw [balance_concat ops .retreat rfl]; simpa [Op.change] using h
  | read => rw [balance_concat ops .read rfl]; simpa [Op.change] using h

/-! ## Single operations -/

/-- No operation fails. Motion answers the new cursor and changes no cell; any other operation
answers the value of the current cell, and changes nothing but that cell. -/
theorem InRange.perform_seen (h : t.InRange) (op : Op) :
    ∃ answer u, t.perform op = .ok (answer, u) ∧ u.capacity = t.capacity ∧
      (op.moves = true → answer = .cursor u.cursor ∧ u.cells = t.cells) ∧
      (op.moves = false → u.cursor = t.cursor ∧ answer = .cell (op.change (t.cell h))) ∧
      (∀ d, t.StandsAt d → u.StandsAt (d + op.motion)) ∧
      u.cells[t.cursor]? = some (op.change (t.cell h)) ∧
      ∀ i, i ≠ t.cursor → u.cells[i]? = t.cells[i]? := by
  have hcell : t.cells[t.cursor]? = some (t.cell h) := Array.getElem?_eq_getElem h
  have hstay : ∀ u : Tape, u.cursor = t.cursor → u.capacity = t.capacity → op.motion = 0 →
      ∀ d, t.StandsAt d → u.StandsAt (d + op.motion) := by
    intro u hcursor hcapacity hmotion d hd
    rw [hmotion, Int.add_zero]
    exact ⟨hcapacity ▸ hd.pos, by rw [hcursor, hd.cursor, index, index, hcapacity]⟩
  cases op with
  | advance =>
    exact ⟨_, t.advance, rfl, rfl, fun _ => ⟨rfl, rfl⟩, by rintro ⟨⟩, fun d hd => hd.advance,
      hcell, fun i _ => rfl⟩
  | retreat =>
    exact ⟨_, t.retreat, rfl, rfl, fun _ => ⟨rfl, rfl⟩, by rintro ⟨⟩, fun d hd => hd.retreat,
      hcell, fun i _ => rfl⟩
  | read =>
    refine ⟨_, t, ?_, rfl, by rintro ⟨⟩, fun _ => ⟨rfl, rfl⟩, hstay t rfl rfl rfl, hcell,
      fun i _ => rfl⟩
    rw [perform, h.read_eq_ok]
    rfl
  | write value =>
    obtain ⟨u, hu, -, -, hcursor, hcapacity, hseen⟩ := h.modify_seen .setting fun _ => value
    refine ⟨_, u, ?_, hcapacity, by rintro ⟨⟩, fun _ => ⟨hcursor, rfl⟩,
      hstay u hcursor hcapacity rfl, hseen⟩
    rw [perform, write, hu]
    rfl
  | increment =>
    obtain ⟨u, hu, hread, -, hcursor, hcapacity, hseen⟩ := h.modify_seen .incrementing (· + 1)
    refine ⟨_, u, ?_, hcapacity, by rintro ⟨⟩, fun _ => ⟨hcursor, rfl⟩,
      hstay u hcursor hcapacity rfl, hseen⟩
    simp only [perform, increment, hu, bind, Except.bind, hread]
    rfl
  | decrement =>
    obtain ⟨u, hu, hread, -, hcursor, hcapacity, hseen⟩ := h.modify_seen .decrementing (· - 1)
    refine ⟨_, u, ?_, hcapacity, by rintro ⟨⟩, fun _ => ⟨hcursor, rfl⟩,
      hstay u hcursor hcapacity rfl, hseen⟩
    simp only [perform, decrement, hu, bind, Except.bind, hread]
    rfl

/-! ## Whole histories -/

/-- The cursor is where the history leads to, and each cell holds what was last written there,
changed by what was done there since. -/
structure Records (history : List Op) (t : Tape) : Prop where
  stands : t.StandsAt (displacement history)
  cells : ∀ i, i < t.capacity → ∃ value, t.cells[i]? = some value ∧
    (value.toNat : Int) = balance (performedOn t.capacity i 0 history) % 256

theorem records_blank (capacity : Nat) : (blank capacity).Records [] where
  stands := .blank capacity
  cells i hi := by
    refine ⟨0, ?_, rfl⟩
    rw [Array.getElem?_eq_getElem hi]
    simp only [blank, Array.getElem_replicate]

/-- The cell on which a history goes on is the current one. -/
theorem Records.performedOn_concat (h : t.Records history) (op : Op) (i : Nat) :
    performedOn t.capacity i 0 (history ++ [op]) =
      performedOn t.capacity i 0 history ++ if t.cursor = i then [op] else [] := by
  have hcursor := coe_index h.stands.pos (displacement history)
  rw [← h.stands.cursor] at hcursor
  rw [Tape.performedOn_concat, Int.zero_add, ← hcursor]
  simp only [Int.natCast_inj]

theorem Records.concat (h : t.Records history) (hcapacity : u.capacity = t.capacity)
    (hstands : ∀ d, t.StandsAt d → u.StandsAt (d + op.motion))
    (hcell : u.cells[t.cursor]? = some (op.change (t.cell h.stands.inRange)))
    (hothers : ∀ i, i ≠ t.cursor → u.cells[i]? = t.cells[i]?) : u.Records (history ++ [op]) := by
  constructor
  · rw [displacement_append, displacement_singleton]
    exact hstands _ h.stands
  · intro i hi
    rw [hcapacity] at hi ⊢
    rw [h.performedOn_concat]
    obtain ⟨value, hvalue, hbalance⟩ := h.cells i hi
    by_cases hcursor : t.cursor = i
    · subst hcursor
      rw [if_pos rfl]
      refine ⟨_, hcell, ?_⟩
      rw [h.stands.inRange.cell_eq hvalue]
      exact balance_change hbalance op
    · rw [if_neg hcursor, List.append_nil, hothers i (Ne.symm hcursor)]
      exact ⟨value, hvalue, hbalance⟩

theorem performAll_concat {v : Tape} {answers : List Answer} {answer : Answer}
    (h : t.performAll ops = .ok (answers, u)) (hop : u.perform op = .ok (answer, v)) :
    t.performAll (ops ++ [op]) = .ok (answers ++ [answer], v) := by
  induction ops generalizing t answers with
  | nil =>
    cases h
    simp only [List.nil_append, performAll, hop, bind, Except.bind]
    rfl
  | cons o ops ih =>
    simp only [performAll, bind, Except.bind] at h
    split at h
    · cases h
    · rename_i first hfirst
      split at h
      · cases h
      · rename_i rest hrest
        cases h
        simp only [List.cons_append, performAll, bind, Except.bind, hfirst, ih hrest]
        rfl

/-- No history fails, and the tape it leads to is the one it records. -/
theorem performAll_records (capacity : Nat) (history : List Op) :
    ∃ answers t, (blank capacity).performAll history = .ok (answers, t) ∧
      t.capacity = max capacity 1 ∧ t.Records history := by
  induction history using List.reverseRecOn with
  | nil => exact ⟨[], blank capacity, rfl, capacity_blank capacity, records_blank capacity⟩
  | append_singleton history op ih =>
    obtain ⟨answers, t, ht, hcapacity, hrecords⟩ := ih
    obtain ⟨answer, u, hu, hsame, -, -, hstands, hcell, hothers⟩ :=
      hrecords.stands.inRange.perform_seen op
    exact ⟨_, u, performAll_concat ht hu, hsame.trans hcapacity,
      hrecords.concat hsame hstands hcell hothers⟩

/-- A tape is a ring of bytes. No history of operations on a blank tape fails. It leads to the
cursor at the advances less the retreats, modulo the capacity, and leaves in each cell the last
value written there with the increments and decrements made there since, modulo 256. Motion answers
the new cursor and changes no cell; any other operation answers the value of the current cell and
changes nothing but that cell. So motions undo each other and changes by one do. The sums of the
motions fit in 64 bits if twice the capacity does. -/
theorem history_decides_the_tape (capacity : Nat) (history : List Op) :
    ∃ answers t, (blank capacity).performAll history = .ok (answers, t) ∧
      t.capacity = max capacity 1 ∧
      t.cursor < t.capacity ∧ (t.cursor : Int) = displacement history % t.capacity ∧
      (∀ i, i < t.capacity → ∃ value, t.cells[i]? = some value ∧
        (value.toNat : Int) = balance (performedOn t.capacity i 0 history) % 256) ∧
      (∀ op, ∃ answer u,
        (blank capacity).performAll (history ++ [op]) = .ok (answers ++ [answer], u) ∧
        u.capacity = t.capacity ∧
        (op.moves = true → answer = .cursor u.cursor ∧ u.cells = t.cells) ∧
        (op.moves = false → u.cursor = t.cursor ∧
          (∃ value, answer = .cell value ∧ u.cells[u.cursor]? = some value) ∧
          ∀ i, i ≠ t.cursor → u.cells[i]? = t.cells[i]?)) ∧
      t.advance.retreat = t ∧ t.retreat.advance = t ∧
      t.increment.bind decrement = .ok t ∧ t.decrement.bind increment = .ok t ∧
      (capacity < 2 ^ 63 → t.cursor + t.capacity < 2 ^ 64) := by
  obtain ⟨answers, t, ht, hcapacity, hrecords⟩ := performAll_records capacity history
  have hrange := hrecords.stands.inRange
  have hcursor : (t.cursor : Int) = displacement history % t.capacity := by
    rw [hrecords.stands.cursor]
    exact coe_index hrecords.stands.pos _
  refine ⟨answers, t, ht, hcapacity, hrange, hcursor, hrecords.cells, fun op => ?_,
    hrange.advance_retreat, hrange.retreat_advance,
    hrange.modify_undone _ _ fun value => by simp,
    hrange.modify_undone _ _ fun value => by simp, fun hfits => ?_⟩
  · obtain ⟨answer, u, hu, hsame, hmotion, hchange, -, hcell, hothers⟩ := hrange.perform_seen op
    refine ⟨answer, u, performAll_concat ht hu, hsame, hmotion, fun hop => ?_⟩
    obtain ⟨hstays, hanswer⟩ := hchange hop
    exact ⟨hstays, ⟨_, hanswer, by rw [hstays, hcell]⟩, hothers⟩
  · have hlt : t.cursor < t.capacity := hrange
    omega

/-- The write is to cell 0. Cell 2, one to the left of it on three cells, is incremented twice. -/
example :
    balance (performedOn 3 2 0 [.write 9, .retreat, .increment, .increment, .advance]) = 2 := by
  decide

end TapeInterpreter.Tape
