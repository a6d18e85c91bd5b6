import TapeInterpreter.Evaluation

/-!
A longer patience never changes an outcome: a run that is over stays over, with the same halt and
the same effects. The facts are about consoles whose effects are a change of state.
-/
namespace TapeInterpreter
set_option autoImplicit false

variable {σ : Type} {machine : Machine} {console : Console (StateM σ)} {settings : Settings}
  {code : Source}

namespace Machine

theorem run_zero (s : State) (w : σ) : machine.run console 0 s w = (none, w) := rfl

theorem run_succ (n : Nat) (s : State) (w : σ) :
    machine.run console (n + 1) s w =
      match machine.advance console s w with
      | (.running t, v) => machine.run console n t v
      | (.halted halt, v) => (some halt, v) := by
  rw [run]
  simp only [bind, StateT.bind]
  rcases machine.advance console s w with ⟨_ | _, _⟩ <;> rfl

/-- A run with more patience goes on where the shorter one gave up. -/
theorem run_add (n k : Nat) (s : State) (w : σ) {halt : Halt} {v : σ}
    (h : machine.run console n s w = (some halt, v)) :
    machine.run console (n + k) s w = (some halt, v) := by
  induction n generalizing s w with
  | zero => cases h
  | succ n ih =>
    rw [Nat.add_right_comm]
    rw [run_succ] at h ⊢
    generalize machine.advance console s w = next at h ⊢
    obtain ⟨next | next, u⟩ := next
    · exact ih _ _ h
    · exact h

/-- An evaluation is a run from the initial state with a conclusion behind it. -/
theorem evaluate_eq (n : Nat) (w : σ) :
    machine.evaluate console settings code n w =
      match machine.run console n (State.initial settings.capacity code) w with
      | (none, v) => (none, v)
      | (some halt, v) =>
        match halt.conclude console code v with
        | (outcome, u) => (some outcome, u) := by
  simp only [evaluate, bind, StateT.bind]
  rcases machine.run console n (State.initial settings.capacity code) w with ⟨_ | _, _⟩ <;> rfl

/-- An evaluation that ends is a run that halts, with its conclusion. -/
theorem evaluate_eq_some_iff {n : Nat} {w : σ} {outcome : Outcome} {v : σ} :
    machine.evaluate console settings code n w = (some outcome, v) ↔
      ∃ halt u,
        machine.run console n (State.initial settings.capacity code) w = (some halt, u) ∧
        halt.conclude console code u = (outcome, v) := by
  rw [evaluate_eq]
  constructor
  · intro h
    rcases hrun : machine.run console n (State.initial settings.capacity code) w with ⟨_ | halt, u⟩
    · rw [hrun] at h
      cases h
    · rw [hrun] at h
      cases h
      exact ⟨halt, u, rfl, rfl⟩
  · rintro ⟨halt, u, hrun, hc⟩
    rw [hrun]
    simp only [hc]

/-- More patience than an evaluation needs gives the same outcome with the same effects. -/
theorem evaluate_add (n k : Nat) (w : σ) {outcome : Outcome} {v : σ}
    (h : machine.evaluate console settings code n w = (some outcome, v)) :
    machine.evaluate console settings code (n + k) w = (some outcome, v) := by
  rw [evaluate_eq] at h ⊢
  cases hrun : machine.run console n (State.initial settings.capacity code) w with
  | mk halt u =>
    rw [hrun] at h
    cases halt with
    | none => cases h
    | some halt => rw [run_add n k _ w hrun]; exact h

end Machine

end TapeInterpreter
