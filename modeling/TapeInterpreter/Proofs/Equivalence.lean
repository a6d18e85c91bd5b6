import TapeInterpreter.Proofs.Guards
import TapeInterpreter.Proofs.Simulation
import TapeInterpreter.Proofs.TreeSemantics

/-!
# Programs that come to the same

Where no step is refused or counted, a program may be replaced by one that comes to the same from
every memory it can be run from. What can be known of a memory is that its cursor is on a cell, and
behind a loop that the cell is zero. Such a replacement may take place anywhere in a tree, and the
characters may stand anywhere in a text.
-/
namespace TapeInterpreter
set_option autoImplicit false

/-- The cursor of the tape indexes a cell. -/
def Memory.OnCell (m : Memory) : Prop := m.tape.InRange

def Memory.OnZero (m : Memory) : Prop := m.tape.read = .ok 0

namespace Program

/-- From every memory of which `A` holds the two programs come to the same. -/
def Same (b : Behaviour) (A : Memory → Prop) (t t' : Program) : Prop :=
  ∀ m, A m → ∀ r m', t.Runs b none m r m' ↔ t'.Runs b none m r m'

/-- The same program on the characters to which `place` moves. -/
def relocate (place : Nat → Nat) : Program → Program
  | .done => .done
  | .command c position rest => .command c (place position) (rest.relocate place)
  | .loop opening body rest => .loop (place opening) (body.relocate place) (rest.relocate place)

theorem relocate_relocate {f g : Nat → Nat} (h : ∀ p, g (f p) = p) (t : Program) :
    (t.relocate f).relocate g = t := by
  induction t with
  | done => rfl
  | command c position rest ih => rw [relocate, relocate, h, ih]
  | loop opening body rest ihbody ihrest => rw [relocate, relocate, h, ihbody, ihrest]

end Program

/-- The command that takes back what another one has done to the tape. -/
def Command.undo? : Command → Option Command
  | .right => some .left
  | .left => some .right
  | .increment => some .decrement
  | .decrement => some .increment
  | .write | .read => none

variable {b : Behaviour} {control : Option Control} {m m' : Memory} {c : Command}
  {r : Except EvalError Unit} {t t' u u' : Program} {A B : Memory → Prop}

/-! ## Memories -/

theorem Memory.OnZero.onCell (h : m.OnZero) : m.OnCell := by
  simp only [OnZero, Tape.read] at h
  split at h
  · assumption
  · cases h

theorem Memory.onZero_initial (capacity : Nat) : (Memory.initial capacity).OnZero := by
  simp [OnZero, initial, Tape.read, Tape.blank]

theorem Memory.onCell_execute (h : m.OnCell) (b : Behaviour) (control : Option Control)
    (c : Command) (position : Nat) : (m.execute b control c position).2.OnCell := by
  unfold execute
  split
  · exact h
  · split
    · exact h
    · rename_i heffect
      obtain ⟨effect, heffect', hchanged⟩ := Tape.InRange.effect h c
      exact hchanged _ (Except.ok.inj (heffect'.symm.trans heffect))
    · exact h
    · dsimp only
      split
      · exact h
      · exact h
      · split
        · exact h
        · rename_i ht
          exact Tape.InRange.of_modify h ht

/-- Without a control a test is free. -/
theorem Memory.test_eq : m.test b none = (m.tape.read.mapError .outOfRange, m) := rfl

theorem Memory.test_of_ok {cell : UInt8} (h : m.test b none = (.ok cell, m')) :
    m' = m ∧ m.tape.read = .ok cell := by
  rw [test_eq] at h
  obtain ⟨hcell, rfl⟩ := Prod.mk.inj h
  cases hread : m.tape.read with
  | error e => rw [hread] at hcell; cases hcell
  | ok v => rw [hread] at hcell; cases hcell; exact ⟨rfl, rfl⟩

/-- A command and the one that undoes it leave a memory as it was. -/
theorem Memory.execute_undone {c' : Command} (hundo : c.undo? = some c') (h : m.OnCell)
    (p q : Nat) : ∃ m', m.execute b none c p = (.ok (), m') ∧
      m'.execute b none c' q = (.ok (), m) := by
  have hcell : ∀ (use use' : CellUse) (f g : UInt8 → UInt8), (∀ v, g (f v) = v) →
      ∃ tape, m.tape.modify use f = .ok tape ∧ tape.modify use' g = .ok m.tape := by
    intro use use' f g hfg
    obtain ⟨tape, htape, -⟩ := Tape.InRange.modify_seen h use f
    have hundone := Tape.InRange.modify_undone h use use' hfg
    rw [htape] at hundone
    exact ⟨tape, htape, hundone⟩
  cases c with
  | right =>
    cases hundo
    refine ⟨{ m with tape := m.tape.advance }, rfl, ?_⟩
    simp only [execute, charge, Command.effect, Tape.InRange.advance_retreat h]
  | left =>
    cases hundo
    refine ⟨{ m with tape := m.tape.retreat }, rfl, ?_⟩
    simp only [execute, charge, Command.effect, Tape.InRange.retreat_advance h]
  | increment =>
    cases hundo
    obtain ⟨tape, hup, hdown⟩ :=
      hcell .incrementing .decrementing (· + 1) (· - 1) fun v => UInt8.add_sub_cancel v 1
    refine ⟨{ m with tape := tape }, ?_, ?_⟩
    · simp only [execute, charge, Command.effect, Tape.increment, hup, Except.map]
    · simp only [execute, charge, Command.effect, Tape.decrement, hdown, Except.map]
  | decrement =>
    cases hundo
    obtain ⟨tape, hdown, hup⟩ :=
      hcell .decrementing .incrementing (· - 1) (· + 1) fun v => UInt8.sub_add_cancel v 1
    refine ⟨{ m with tape := tape }, ?_, ?_⟩
    · simp only [execute, charge, Command.effect, Tape.decrement, hdown, Except.map]
    · simp only [execute, charge, Command.effect, Tape.increment, hup, Except.map]
  | write => cases hundo
  | read => cases hundo

/-! ## Characters that move -/

/-- The same command elsewhere does the same, and its error is about its own place. -/
theorem Memory.execute_relocate (place : Nat → Nat) (p : Nat) :
    m.execute b control c (place p) =
      ((m.execute b control c p).1.mapError (.relocate place), (m.execute b control c p).2) := by
  unfold execute
  cases hcharge : charge control (b.cancelled m.calls) m.steps with
  | error e => rcases charge_error hcharge with rfl | ⟨limit, rfl⟩ <;> rfl
  | ok n =>
    cases c.effect m.tape with
    | error e => rfl
    | ok effect =>
      cases effect with
      | changed tape => rfl
      | written byte => dsimp only; cases b.write m.calls byte <;> rfl
      | wanted =>
        dsimp only
        rcases b.read m.calls with fault | _ | byte
        · rfl
        · rfl
        · dsimp only
          cases m.tape.write byte <;> rfl

/-- No error of a test is about a character. -/
theorem Memory.relocate_of_test {e : EvalError} (h : m.test b control = (.error e, m'))
    (place : Nat → Nat) : e.relocate place = e := by
  unfold test at h
  cases hcharge : charge control (b.cancelled m.calls) m.steps with
  | error e' =>
    rw [hcharge] at h
    cases h
    rcases charge_error hcharge with rfl | ⟨limit, rfl⟩ <;> rfl
  | ok n =>
    rw [hcharge] at h
    cases hread : m.tape.read <;> rw [hread] at h <;> cases h
    rfl

theorem Program.Runs.relocate (place : Nat → Nat) (h : t.Runs b control m r m') :
    (t.relocate place).Runs b control m (r.mapError (.relocate place)) m' := by
  induction h with
  | done => exact .done
  | refused h => exact .refused (by rw [Memory.execute_relocate, h]; rfl)
  | executed h _ ih => exact .executed (by rw [Memory.execute_relocate, h]; rfl) ih
  | @untested opening body rest m m' e h =>
    show Runs b control _ _ (.error (e.relocate place)) _
    rw [Memory.relocate_of_test h place]
    exact .untested h
  | left h _ ih => exact .left h ih
  | broken h hcell _ ih => exact .broken h hcell ih
  | repeated h hcell _ _ ihbody ihagain => exact .repeated h hcell ihbody ihagain

/-- A program that has moved ends only if it did so before. -/
theorem Program.Runs.of_relocate {f g : Nat → Nat} (hgf : ∀ p, g (f p) = p)
    (h : (t.relocate f).Runs b control m r m') :
    t.Runs b control m (r.mapError (.relocate g)) m' := by
  have hback := h.relocate g
  rwa [relocate_relocate hgf] at hback

/-! ## Replacements -/

theorem Program.Runs.onCell (h : t.Runs b none m r m') (hm : m.OnCell) : m'.OnCell := by
  induction h with
  | done => exact hm
  | @refused c p _ m m' _ h =>
    have hafter := Memory.onCell_execute hm b none c p
    rwa [h] at hafter
  | @executed c p _ m m' _ _ h _ ih =>
    have hafter := Memory.onCell_execute hm b none c p
    rw [h] at hafter
    exact ih hafter
  | untested h => rw [Memory.test_eq] at h; exact (Prod.mk.inj h).2 ▸ hm
  | left h _ ih => exact ih ((Memory.test_of_ok h).1 ▸ hm)
  | broken h _ _ ih => exact ih ((Memory.test_of_ok h).1 ▸ hm)
  | repeated h _ _ _ ihbody ihagain => exact ihagain (ihbody ((Memory.test_of_ok h).1 ▸ hm))

namespace Program.Same

theorem refl (t : Program) : t.Same b A t := fun _ _ _ _ => Iff.rfl

theorem symm (h : t.Same b A t') : t'.Same b A t := fun m hm r m' => (h m hm r m').symm

theorem mono (h : t.Same b A t') (hB : ∀ m, B m → A m) : t.Same b B t' := fun m hm =>
  h m (hB m hm)

/-- What comes behind a command may be replaced. -/
theorem command {p : Nat} (h : t.Same b Memory.OnCell t') :
    (Program.command c p t).Same b Memory.OnCell (.command c p t') := by
  have hstep : ∀ {t t' : Program}, t.Same b Memory.OnCell t' → ∀ m, m.OnCell → ∀ r m',
      (Program.command c p t).Runs b none m r m' → (Program.command c p t').Runs b none m r m' := by
    intro t t' h m hm r m' hruns
    have hafter := Memory.onCell_execute hm b none c p
    cases hruns with
    | refused he => exact .refused he
    | executed he hrest =>
      rw [he] at hafter
      exact .executed he ((h _ hafter _ _).mp hrest)
  exact fun m hm r m' => ⟨hstep h m hm r m', hstep h.symm m hm r m'⟩

/-- Each time the loop is run the new body does what the old one has done, and where the loop is
left its cell is zero. -/
theorem runs_loop {o o' : Nat} (hbody : t.Same b Memory.OnCell t')
    (hrest : u.Same b Memory.OnZero u') (hm : m.OnCell)
    (h : (Program.loop o t u).Runs b none m r m') : (Program.loop o' t' u').Runs b none m r m' := by
  generalize hl : Program.loop o t u = l at h
  induction h with
  | done => cases hl
  | refused => cases hl
  | executed => cases hl
  | untested h => cases hl; exact .untested h
  | left h hruns =>
    cases hl
    obtain ⟨rfl, hread⟩ := Memory.test_of_ok h
    exact .left h ((hrest _ hread _ _).mp hruns)
  | broken h hcell hruns =>
    cases hl
    obtain ⟨rfl, -⟩ := Memory.test_of_ok h
    exact .broken h hcell ((hbody _ hm _ _).mp hruns)
  | repeated h hcell hruns _ _ ihagain =>
    cases hl
    obtain ⟨rfl, -⟩ := Memory.test_of_ok h
    exact .repeated h hcell ((hbody _ hm _ _).mp hruns) (ihagain (hruns.onCell hm) rfl)

/-- The body of a loop may be replaced, and what comes behind it by what comes to the same on a
zero cell. -/
theorem loop {o o' : Nat} (hbody : t.Same b Memory.OnCell t') (hrest : u.Same b Memory.OnZero u') :
    (Program.loop o t u).Same b Memory.OnCell (.loop o' t' u') := fun _ hm _ _ =>
  ⟨runs_loop hbody hrest hm, runs_loop hbody.symm hrest.symm hm⟩

/-- A command and the one that undoes it may stand in front of a program. -/
theorem undone {c' : Command} (hundo : c.undo? = some c') (p q : Nat) (t : Program) :
    t.Same b Memory.OnCell (.command c p (.command c' q t)) := by
  intro m hm r m'
  obtain ⟨m₁, hdo, hback⟩ := Memory.execute_undone hundo hm p q
  constructor
  · intro h
    exact .executed hdo (.executed hback h)
  · intro h
    cases h with
    | refused he => cases hdo.symm.trans he
    | executed he hrest =>
      cases hdo.symm.trans he
      cases hrest with
      | refused he => cases hback.symm.trans he
      | executed he hrest => cases hback.symm.trans he; exact hrest

/-- On a zero cell any loop may stand in front of a program. -/
theorem unentered (o : Nat) (body t : Program) : t.Same b Memory.OnZero (.loop o body t) := by
  intro m hm r m'
  have htest : m.test b none = (.ok 0, m) := by
    rw [Memory.test_eq, show m.tape.read = .ok 0 from hm]
    rfl
  constructor
  · exact .left htest
  · intro h
    cases h with
    | untested he => cases htest.symm.trans he
    | left he hrest => cases htest.symm.trans he; exact hrest
    | broken he hcell => cases htest.symm.trans he; exact absurd rfl hcell
    | repeated he hcell => cases htest.symm.trans he; exact absurd rfl hcell

end Program.Same

/-! ## Evaluations -/

variable {settings : Settings} {outcome : Outcome} {calls : List Call} {stop : Nat}
  {f g : Nat → Nat}

/-- A program may be evaluated in place of one that comes to the same and stands elsewhere. -/
theorem Program.Evaluates.replaced (hcontrol : settings.control = none)
    (hsame : (t.relocate f).Same b A t') (hA : A (Memory.initial settings.capacity))
    (h : t.Evaluates b settings stop outcome calls) :
    t'.Evaluates b settings (f stop) (outcome.relocate f) calls := by
  obtain ⟨r, m, hruns, houtcome⟩ := h
  rw [hcontrol] at hruns
  have hruns' := (hsame _ hA _ _).mp (hruns.relocate f)
  refine ⟨r.mapError (.relocate f), m, by rw [hcontrol]; exact hruns', ?_⟩
  cases r with
  | error e =>
    obtain ⟨rfl, rfl⟩ := houtcome
    exact ⟨rfl, rfl⟩
  | ok u =>
    obtain ⟨rfl, rfl⟩ := houtcome
    refine ⟨?_, rfl⟩
    rw [Outcome.relocate]
    cases b.flush m.calls <;> rfl

/-- If it ends, so does the other one. -/
theorem Program.Evaluates.of_replaced (hcontrol : settings.control = none)
    (hgf : ∀ p, g (f p) = p) (hsame : (t.relocate f).Same b A t')
    (hA : A (Memory.initial settings.capacity)) (h : t'.Evaluates b settings stop outcome calls)
    (stop' : Nat) : ∃ outcome calls, t.Evaluates b settings stop' outcome calls := by
  obtain ⟨r, m, hruns, -⟩ := h
  rw [hcontrol] at hruns
  have hruns' := ((hsame _ hA _ _).mpr hruns).of_relocate hgf
  rw [← hcontrol] at hruns'
  exact hruns'.evaluates stop'

end TapeInterpreter
