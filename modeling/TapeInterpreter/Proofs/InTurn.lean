import Mathlib.Control.Monad.Basic
import TapeInterpreter.Launcher
import TapeInterpreter.Proofs.Mirror
import TapeInterpreter.Proofs.Run

/-!
# Expressions in turn

Expressions that are evaluated one after another on standard streams are a row of evaluations, each
on a tape and a count of its own. What one of them leaves of the input is what the next one is
given, and their outputs stand one behind the other.
-/
namespace TapeInterpreter
set_option autoImplicit false

/-- What standard input has still to reply, one reply for each read and then the end of the input,
and what has been written to standard output, flushed or not. -/
structure Feed where
  replies : List (Except Fault (Option UInt8))
  written : List UInt8
  deriving DecidableEq

namespace Feed

def next (f : Feed) : Except Fault (Option UInt8) × Feed :=
  match f.replies with
  | [] => (.ok none, f)
  | reply :: rest => (reply, { f with replies := rest })

def put (f : Feed) (byte : UInt8) : Feed := { f with written := f.written ++ [byte] }

/-- Standard streams whose output never fails, while nobody asks the run to stop. -/
def console : Console (StateM Feed) where
  read := next
  write := fun byte f => (.ok (), f.put byte)
  flush := fun f => (.ok (), f)
  cancelled := fun f => (false, f)

/-- The same feed, to which `earlier` was written first. -/
def behind (earlier : List UInt8) (f : Feed) : Feed := { f with written := earlier ++ f.written }

/-- With `replies` to come, evaluation with some patience ends in `outcome` and leaves `f`. -/
def Evaluates (settings : Settings) (code : Source) (replies : List (Except Fault (Option UInt8)))
    (outcome : Outcome) (f : Feed) : Prop :=
  ∃ patience, evaluate console settings code patience ⟨replies, []⟩ = (some outcome, f)

end Feed

/-- The text of an expression that failed, and how it failed. -/
structure FailedExpression where
  expression : String
  error : EvalError

/-- With `replies` to come, the expressions come to a verdict and leave a feed: they are evaluated
in order, up to the first that fails. -/
inductive InTurn (settings : Settings) :
    List String → List (Except Fault (Option UInt8)) → Except FailedExpression Unit → Feed → Prop
  | done {replies : List (Except Fault (Option UInt8))} :
      InTurn settings [] replies (.ok ()) ⟨replies, []⟩
  | passed {expression : String} {rest : List String} {outcome : Outcome} {f g : Feed}
      {replies : List (Except Fault (Option UInt8))} {verdict : Except FailedExpression Unit}
      (h : Feed.Evaluates settings (.ofString expression) replies outcome f)
      (hok : outcome.result = .ok ()) (hrest : InTurn settings rest f.replies verdict g) :
      InTurn settings (expression :: rest) replies verdict (g.behind f.written)
  | failed {expression : String} {rest : List String} {outcome : Outcome} {f : Feed}
      {replies : List (Except Fault (Option UInt8))} {error : EvalError}
      (h : Feed.Evaluates settings (.ofString expression) replies outcome f)
      (herror : outcome.result = .error error) :
      InTurn settings (expression :: rest) replies (.error ⟨expression, error⟩) f

/-- Rows of evaluations on consoles that mirror each other are related as the consoles are. -/
theorem Console.Mirrored.evaluateAll {m n : Type → Type} [Monad m] [Monad n] {r : Mirror m n}
    {console : Console m} {console' : Console n} (h : console.Mirrored r console')
    (settings : Settings) (patience : Nat) (expressions : List String) :
    r.Rel (TapeInterpreter.evaluateAll console settings patience expressions)
      (TapeInterpreter.evaluateAll console' settings patience expressions) := by
  induction expressions with
  | nil => exact r.pure _
  | cons expression rest ih =>
    refine r.bind (h.evaluate settings (.ofString expression) patience) fun outcome? => ?_
    rcases outcome? with _ | ⟨_ | _, tape, steps⟩
    · exact r.pure _
    · exact r.pure _
    · exact r.bind ih fun _ => r.pure _

/-- A verdict, with the text of the expression that failed in place of its index. -/
def told {expressions : List String} (verdict : Except (Failure expressions) Unit) :
    Except FailedExpression Unit :=
  verdict.mapError fun failure => ⟨expressions.get failure.index, failure.error⟩

variable {settings : Settings} {code : Source} {expression : String}
  {rest expressions : List String} {outcome : Outcome} {f g : Feed} {n : Nat}
  {replies : List (Except Fault (Option UInt8))}

theorem told_atFirst (error : EvalError) :
    told (.error (.atFirst error) : Except (Failure (expression :: rest)) Unit) =
      .error ⟨expression, error⟩ := rfl

/-- The index that counts one more expression in front selects the same text. -/
theorem told_behind (verdict : Except (Failure rest) Unit) :
    told (verdict.mapError .behind : Except (Failure (expression :: rest)) Unit) =
      told verdict := by
  cases verdict <;> rfl

namespace Feed

theorem quiet : console.Quiet := fun _ => rfl

/-- The operations of a feed do not look at what has been written. -/
theorem console_behind (earlier : List UInt8) :
    console.Mirrored (.through (behind earlier)) console where
  read f := by
    obtain ⟨_ | ⟨reply, rest⟩, written⟩ := f <;> rfl
  write byte f := by
    simp only [console, behind, put, List.append_assoc]
  flush _ := rfl
  cancelled _ := rfl

theorem behind_behind (a b : List UInt8) (f : Feed) :
    (f.behind b).behind a = f.behind (a ++ b) := by
  simp only [behind, List.append_assoc]

/-- An evaluation does the same on a feed to which nothing has been written. -/
theorem evaluate_eq (settings : Settings) (code : Source) (n : Nat) (f : Feed) :
    evaluate console settings code n f =
      ((evaluate console settings code n ⟨f.replies, []⟩).1,
        (evaluate console settings code n ⟨f.replies, []⟩).2.behind f.written) := by
  have h := (console_behind f.written).evaluate settings code n ⟨f.replies, []⟩
  rw [behind, List.append_nil] at h
  exact h

/-- An evaluation fails as its run did, or because the run stopped too early. -/
theorem stopped_of_conclude {halt : Halt} {error : EvalError}
    (h : (halt.conclude console code f).1.result = .error error) :
    halt.stopped = .error error ∨ ∃ p, error = .incompleteScan p := by
  obtain ⟨e | p, last⟩ := halt
  · cases h
    exact Or.inl rfl
  · simp only [Halt.conclude] at h
    split at h
    · cases h
      exact Or.inr ⟨p, rfl⟩
    · cases h

/-- Nobody asks a run on a feed to stop. -/
theorem Evaluates.result_ne_cancelled (h : Evaluates settings code replies outcome f) :
    outcome.result ≠ .error .cancelled := by
  intro hresult
  obtain ⟨n, hn⟩ := h
  obtain ⟨halt, g, hrun, hconclude⟩ := Machine.evaluate_eq_some_iff.mp hn
  have hconcluded : (halt.conclude console code g).1.result = .error .cancelled := by
    rw [hconclude]
    exact hresult
  rcases stopped_of_conclude hconcluded with hstopped | ⟨p, hp⟩
  · obtain ⟨u, steps, hcharge⟩ := Machine.charge_of_run quiet hrun hstopped (Or.inl rfl)
    exact charge_ne_cancelled settings.control steps hcharge
  · cases hp

end Feed

/-- The first expression decides whether there is a second turn. -/
theorem evaluateAll_cons (settings : Settings) (n : Nat) (expression : String) (rest : List String)
    (f : Feed) :
    evaluateAll Feed.console settings n (expression :: rest) f =
      match evaluate Feed.console settings (.ofString expression) n f with
      | (none, g) => (none, g)
      | (some outcome, g) =>
        match outcome.result with
        | .ok () =>
          let (verdict?, last) := evaluateAll Feed.console settings n rest g
          (verdict?.map (.mapError .behind), last)
        | .error error => (some (.error (.atFirst error)), g) := by
  rw [evaluateAll]
  simp only [bind, StateT.bind]
  rcases evaluate Feed.console settings (.ofString expression) n f with
    ⟨_ | ⟨_ | _, _, _⟩, _⟩ <;> rfl

/-- A verdict that is reached is the verdict of the expressions in turn. -/
theorem inTurn_of_evaluateAll {verdict : Except (Failure expressions) Unit}
    (h : evaluateAll Feed.console settings n expressions f = (some verdict, g)) :
    ∃ own, InTurn settings expressions f.replies (told verdict) own ∧
      g = own.behind f.written := by
  induction expressions generalizing f with
  | nil =>
    cases h
    exact ⟨_, .done, by rw [Feed.behind, List.append_nil]⟩
  | cons expression rest ih =>
    rw [evaluateAll_cons, Feed.evaluate_eq] at h
    rcases hown : evaluate Feed.console settings (.ofString expression) n ⟨f.replies, []⟩ with
      ⟨_ | ⟨error | _, tape, steps⟩, own⟩
    · rw [hown] at h
      cases h
    · rw [hown] at h
      cases h
      exact ⟨own, .failed ⟨n, hown⟩ rfl, rfl⟩
    · rw [hown] at h
      obtain ⟨hverdict, rfl⟩ := Prod.mk.inj h
      obtain ⟨verdict', hrest, rfl⟩ := Option.map_eq_some_iff.mp hverdict
      obtain ⟨later, hlater, hfeed⟩ := ih (Prod.ext hrest rfl)
      refine ⟨later.behind own.written, ?_, ?_⟩
      · rw [told_behind]
        exact .passed ⟨n, hown⟩ rfl hlater
      · rw [Feed.behind_behind]
        exact hfeed

/-- What the expressions come to in turn is reached with some patience, and with any longer one. The
index that is reached with a failure selects the text of the expression that fails. -/
theorem evaluateAll_of_inTurn {verdict : Except FailedExpression Unit}
    (h : InTurn settings expressions replies verdict g) :
    ∃ n reached, told reached = verdict ∧
      ∀ k earlier, evaluateAll Feed.console settings (n + k) expressions ⟨replies, earlier⟩ =
        (some reached, g.behind earlier) := by
  induction h with
  | done =>
    refine ⟨0, .ok (), rfl, fun k earlier => ?_⟩
    rw [Feed.behind, List.append_nil]
    rfl
  | @passed expression rest outcome f g replies verdict hfirst hok hrest ih =>
    obtain ⟨m, hm⟩ := hfirst
    obtain ⟨n, reached, rfl, hn⟩ := ih
    -- One patience has to do for the first expression and for the others.
    refine ⟨m + n, reached.mapError .behind, told_behind reached, fun k earlier => ?_⟩
    have hmore : evaluate Feed.console settings (.ofString expression) (m + n + k) ⟨replies, []⟩ =
        (some outcome, f) := by
      rw [Nat.add_assoc]
      exact Machine.evaluate_add m (n + k) _ hm
    rw [evaluateAll_cons, Feed.evaluate_eq]
    simp only [hmore, hok]
    rw [show m + n + k = n + (m + k) by omega, Feed.behind, hn, Feed.behind_behind]
    rfl
  | @failed expression rest outcome f replies error hfirst herror =>
    obtain ⟨m, hm⟩ := hfirst
    refine ⟨m, .error (.atFirst error), told_atFirst error, fun k earlier => ?_⟩
    have hmore : evaluate Feed.console settings (.ofString expression) (m + k) ⟨replies, []⟩ =
        (some outcome, f) := Machine.evaluate_add m k _ hm
    rw [evaluateAll_cons, Feed.evaluate_eq]
    simp only [hmore, herror]

/-- Evaluated one after another with some patience, the expressions come to what they come to in
turn, and what has been written before stays in front of it. -/
theorem evaluateAll_iff_inTurn {verdict : Except FailedExpression Unit} :
    (∃ n reached, evaluateAll Feed.console settings n expressions f = (some reached, g) ∧
      told reached = verdict) ↔
    ∃ own, InTurn settings expressions f.replies verdict own ∧ g = own.behind f.written := by
  constructor
  · rintro ⟨n, reached, h, rfl⟩
    exact inTurn_of_evaluateAll h
  · rintro ⟨own, h, rfl⟩
    obtain ⟨n, reached, htold, hn⟩ := evaluateAll_of_inTurn h
    exact ⟨n, reached, hn 0 f.written, htold⟩

/-- No expression fails because it is asked to stop. -/
theorem InTurn.error_ne_cancelled {failed : FailedExpression}
    (h : InTurn settings expressions replies (.error failed) g) : failed.error ≠ .cancelled := by
  generalize hverdict : Except.error failed = verdict at h
  induction h with
  | done => cases hverdict
  | passed _ _ _ ih => exact ih hverdict
  | failed hfirst herror =>
    cases hverdict
    intro he
    exact hfirst.result_ne_cancelled (he ▸ herror)

end TapeInterpreter
