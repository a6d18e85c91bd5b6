import TapeInterpreter.Evaluation

/-!
# Evaluations on consoles that mirror each other

An evaluation has no other effects than the operations of its console. So whatever relates these
operations on two consoles, and is kept by returning and by sequencing, relates the evaluations.
-/
namespace TapeInterpreter
set_option autoImplicit false

/-- A relation between computations with effects of two kinds, kept by returning and sequencing. -/
structure Mirror (m n : Type → Type) [Monad m] [Monad n] where
  Rel {α : Type} : m α → n α → Prop
  pure {α : Type} (a : α) : Rel (Pure.pure a) (Pure.pure a)
  bind {α β : Type} {x : m α} {y : n α} {f : α → m β} {g : α → n β} :
    Rel x y → (∀ a, Rel (f a) (g a)) → Rel (x >>= f) (y >>= g)

variable {m n : Type → Type} [Monad m] [Monad n]

/-- Each operation of one console is related to that of the other. -/
structure Console.Mirrored (r : Mirror m n) (console : Console m) (console' : Console n) :
    Prop where
  read : r.Rel console.read console'.read
  write (byte : UInt8) : r.Rel (console.write byte) (console'.write byte)
  flush : r.Rel console.flush console'.flush
  cancelled : r.Rel console.cancelled console'.cancelled

namespace Console.Mirrored

variable {r : Mirror m n} {console : Console m} {console' : Console n}

theorem serve (h : console.Mirrored r console') (step : Step) :
    r.Rel (step.serve console) (step.serve console') := by
  cases step with
  | silent s => exact r.pure _
  | failed e s => exact r.pure _
  | finished p s => exact r.pure _
  | write byte p s =>
    refine r.bind (h.write byte) fun reply => ?_
    cases reply <;> exact r.pure _
  | read p s =>
    refine r.bind h.read fun reply => ?_
    rcases reply with _ | _ | _ <;> exact r.pure _

theorem run (h : console.Mirrored r console') (machine : Machine) (patience : Nat) (s : State) :
    r.Rel (machine.run console patience s) (machine.run console' patience s) := by
  induction patience generalizing s with
  | zero => exact r.pure _
  | succ patience ih =>
    refine r.bind (r.bind h.cancelled fun cancelled => h.serve (machine s cancelled)) ?_
    intro progress
    cases progress with
    | running t => exact ih t
    | halted halt => exact r.pure _

theorem conclude (h : console.Mirrored r console') (code : Source) (halt : Halt) :
    r.Rel (halt.conclude console code) (halt.conclude console' code) := by
  unfold Halt.conclude
  split
  · exact r.pure _
  · split
    · exact r.pure _
    · exact r.bind h.flush fun reply => r.pure _

/-- Evaluations on consoles that mirror each other are related as the consoles are. -/
theorem evaluate (h : console.Mirrored r console') (settings : Settings) (code : Source)
    (patience : Nat) :
    r.Rel (TapeInterpreter.evaluate console settings code patience)
      (TapeInterpreter.evaluate console' settings code patience) := by
  refine r.bind (h.run (.over settings code) patience _) fun halt? => ?_
  cases halt? with
  | none => exact r.pure _
  | some halt => exact r.bind (h.conclude code halt) fun outcome => r.pure _

end Console.Mirrored

namespace Mirror

variable {σ τ : Type}

/-- The second computation does to `f w` what the first one does to `w`. -/
def through (f : σ → τ) : Mirror (StateM σ) (StateM τ) where
  Rel x y := ∀ w, y (f w) = ((x w).1, f (x w).2)
  pure _ _ := rfl
  bind {α β x y g g'} hx hg w := by
    simp only [Bind.bind, StateT.bind]
    rw [hx w]
    exact hg (x w).1 (x w).2

/-- The first computation keeps `P`; the second one is not looked at. -/
def keeping (P : σ → Prop) : Mirror (StateM σ) (StateM σ) where
  Rel x _ := ∀ w, P w → P (x w).2
  pure _ _ h := h
  bind hx hg w h := hg _ _ (hx w h)

end Mirror

end TapeInterpreter
