import TapeInterpreter.Console.Recording
import TapeInterpreter.Proofs.Run

/-!
# Consoles that may behave in any way

A behaviour fixes every reply of a console by the calls made before it, so it can have any sequence
of outcomes, and the cancel flag may go up behind any call. The world of such a console is the list
of the calls, in order, with their replies.
-/
namespace TapeInterpreter
set_option autoImplicit false

/-- What a console replies, and whether the cancel flag is up, behind the calls made so far. -/
structure Behaviour where
  read : List Call → Except Fault (Option UInt8)
  write : List Call → UInt8 → Except Fault Unit
  flush : List Call → Except Fault Unit
  cancelled : List Call → Bool

/-- The console that behaves so and keeps a list of the calls. -/
def Behaviour.console (b : Behaviour) : Console (StateM (List Call)) where
  read := fun calls => (b.read calls, calls ++ [.read (b.read calls)])
  write := fun byte calls => (b.write calls byte, calls ++ [.write byte (b.write calls byte)])
  flush := fun calls => (b.flush calls, calls ++ [.flush (b.flush calls)])
  cancelled := fun calls => (b.cancelled calls, calls)

/-- No input, and output that never fails. -/
def Behaviour.mute : Behaviour where
  read _ := .ok none
  write _ _ := .ok ()
  flush _ := .ok ()
  cancelled _ := false

def Call.isFlush : Call → Bool
  | .flush _ => true
  | _ => false

/-- Evaluation with some patience ends in `outcome`, having made `calls`. -/
def Machine.Evaluates (machine : Machine) (b : Behaviour) (settings : Settings) (code : Source)
    (outcome : Outcome) (calls : List Call) : Prop :=
  ∃ patience, machine.evaluate b.console settings code patience [] = (some outcome, calls)

/-- The interpreter ends in `outcome`, having made `calls`. -/
def Evaluates (b : Behaviour) (settings : Settings) (code : Source) (outcome : Outcome)
    (calls : List Call) : Prop :=
  ∃ patience, evaluate b.console settings code patience [] = (some outcome, calls)

/-- Run on from `s` behind the calls `log`, with some patience, and conclude. -/
def Machine.scan (machine : Machine) (b : Behaviour) (code : Source) (patience : Nat) (s : State)
    (log : List Call) : Option Outcome × List Call :=
  match machine.run b.console patience s log with
  | (none, calls) => (none, calls)
  | (some halt, calls) =>
    (some (halt.conclude b.console code calls).1, (halt.conclude b.console code calls).2)

/-- The calls of an evaluation, of one that never ends too, begin with `calls`. -/
def Machine.Makes (machine : Machine) (b : Behaviour) (settings : Settings) (code : Source)
    (calls : List Call) : Prop :=
  ∃ patience, (machine.evaluate b.console settings code patience []).2 = calls

/-- The calls of the interpreter, on a source it never gets behind too, begin with `calls`. -/
def Makes (b : Behaviour) (settings : Settings) (code : Source) (calls : List Call) : Prop :=
  ∃ patience, (evaluate b.console settings code patience []).2 = calls

variable {b : Behaviour} {machine : Machine} {settings : Settings} {code : Source} {s t : State}
  {halt : Halt} {outcome : Outcome} {calls log : List Call}

theorem Behaviour.quiet (b : Behaviour) : b.console.Quiet := fun _ => rfl

theorem conclude_of_error {e : EvalError} (h : halt.stopped = .error e) :
    halt.conclude b.console code log = (halt.outcome (.error e), log) := by
  rw [Halt.conclude, h]; rfl

/-- Only a source that has been consumed entirely is followed by a flush. -/
theorem conclude_of_ok (h : halt.stopped = .ok code.size) :
    halt.conclude b.console code log =
      (halt.outcome ((b.flush log).mapError (.io code.size)), log ++ [.flush (b.flush log)]) := by
  rw [Halt.conclude, h]
  simp only [ne_eq, not_true_eq_false, if_false]
  rfl

/-- A conclusion makes no call or one flush. -/
theorem conclude_calls (b : Behaviour) (code : Source) (halt : Halt) (log : List Call) :
    (halt.conclude b.console code log).2 = log ∨
      ∃ reply, (halt.conclude b.console code log).2 = log ++ [.flush reply] := by
  obtain ⟨stopped, last⟩ := halt
  cases stopped with
  | error e => exact Or.inl rfl
  | ok p =>
    by_cases hp : p = code.size
    · subst hp
      rw [conclude_of_ok rfl]
      exact Or.inr ⟨_, rfl⟩
    · refine Or.inl ?_
      simp only [Halt.conclude, ne_eq, hp, not_false_eq_true, if_true]
      rfl

theorem calls_of_conclude (b : Behaviour) (code : Source) (halt : Halt) (log : List Call) :
    log <+: (halt.conclude b.console code log).2 := by
  rcases conclude_calls b code halt log with h | ⟨reply, h⟩
  · exact ⟨[], (List.append_nil log).trans h.symm⟩
  · exact ⟨_, h.symm⟩

/-- An error that is reported was met by the run, unless the source has not been consumed or the
flush behind it has failed. -/
theorem error_of_conclude {e : EvalError}
    (h : (halt.conclude b.console code log).1.result = .error e) :
    halt.stopped = .error e ∨ ∃ p, halt.stopped = .ok p ∧
      (p ≠ code.size ∧ e = .incompleteScan p ∨ ∃ fault, e = .io p fault) := by
  obtain ⟨stopped, last⟩ := halt
  cases stopped with
  | error e' =>
    cases h
    exact Or.inl rfl
  | ok p =>
    refine Or.inr ⟨p, rfl, ?_⟩
    by_cases hp : p = code.size
    · subst hp
      rw [conclude_of_ok rfl] at h
      simp only [Halt.outcome] at h
      cases hf : b.flush log with
      | ok u => rw [hf] at h; cases h
      | error fault => rw [hf] at h; cases h; exact Or.inr ⟨fault, rfl⟩
    · simp only [Halt.conclude, ne_eq, hp, not_false_eq_true, if_true] at h
      cases h
      exact Or.inl ⟨hp, rfl⟩

namespace Machine

theorem scan_of_halted {n : Nat} (h : machine.run b.console n s log = (some halt, calls)) :
    machine.scan b code n s log =
      (some (halt.conclude b.console code calls).1, (halt.conclude b.console code calls).2) := by
  rw [scan, h]

theorem scan_of_running {n : Nat} (h : machine.run b.console n s log = (none, calls)) :
    machine.scan b code n s log = (none, calls) := by
  rw [scan, h]

theorem scan_of_leads {m : Nat} (h : machine.Leads b.console m s log t calls) (n : Nat) :
    machine.scan b code (n + m) s log = machine.scan b code n t calls := by
  rw [scan, h, scan]

/-- An evaluation scans from the initial state. -/
theorem evaluate_eq_scan (n : Nat) :
    machine.evaluate b.console settings code n [] =
      machine.scan b code n (State.initial settings.capacity code) [] := by
  rw [evaluate_eq, scan]
  rcases machine.run b.console n (State.initial settings.capacity code) [] with ⟨_ | _, _⟩ <;> rfl

/-- An evaluation that ends is a run that halts, with its conclusion. -/
theorem evaluates_iff :
    machine.Evaluates b settings code outcome calls ↔
      ∃ n halt log,
        machine.run b.console n (State.initial settings.capacity code) [] = (some halt, log) ∧
        halt.conclude b.console code log = (outcome, calls) :=
  exists_congr fun _ => evaluate_eq_some_iff

/-- An evaluation ends in one way only. -/
theorem Evaluates.unique {outcome' : Outcome} {calls' : List Call}
    (h : machine.Evaluates b settings code outcome calls)
    (h' : machine.Evaluates b settings code outcome' calls') :
    outcome = outcome' ∧ calls = calls' := by
  obtain ⟨n, hn⟩ := h
  obtain ⟨k, hk⟩ := h'
  have hnk := evaluate_add n k [] hn
  rw [Nat.add_comm, evaluate_add k n [] hk] at hnk
  cases hnk
  exact ⟨rfl, rfl⟩

/-- A step makes at most one call, and it is no flush. -/
theorem advance_calls {progress : Progress} {v : List Call}
    (h : machine.advance b.console s log = (progress, v)) :
    ∃ new, v = log ++ new ∧ new.length ≤ 1 ∧ ∀ call ∈ new, call.isFlush = false := by
  have hserved := advance_served b.quiet h
  have hnone : ∃ new : List Call, log = log ++ new ∧ new.length ≤ 1 ∧
      ∀ call ∈ new, call.isFlush = false := ⟨[], by simp⟩
  have hone : ∀ call : Call, call.isFlush = false → log ++ [call] = v → ∃ new, v = log ++ new ∧
      new.length ≤ 1 ∧ ∀ call ∈ new, call.isFlush = false :=
    fun call hcall hv => ⟨[call], hv.symm, by simp [hcall]⟩
  generalize machine s _ = step at hserved
  cases hserved with
  | silent => exact hnone
  | failed => exact hnone
  | finished => exact hnone
  | written h => exact hone _ rfl (congrArg Prod.snd h)
  | unwritten h => exact hone _ rfl (congrArg Prod.snd h)
  | stored h => exact hone _ rfl (congrArg Prod.snd h)
  | misplaced h => exact hone _ rfl (congrArg Prod.snd h)
  | exhausted h => exact hone _ rfl (congrArg Prod.snd h)
  | unread h => exact hone _ rfl (congrArg Prod.snd h)

/-- The calls of a run are added behind those made before it, and none is a flush. -/
theorem run_calls (machine : Machine) (b : Behaviour) (n : Nat) (s : State) (log : List Call) :
    ∃ new, (machine.run b.console n s log).2 = log ++ new ∧ ∀ call ∈ new, call.isFlush = false := by
  induction n generalizing s log with
  | zero => exact ⟨[], (List.append_nil log).symm, by simp⟩
  | succ n ih =>
    rw [run_succ]
    rcases hs : machine.advance b.console s log with ⟨progress, v⟩
    obtain ⟨new, rfl, -, hnew⟩ := advance_calls hs
    cases progress with
    | halted halt => exact ⟨new, rfl, hnew⟩
    | running t =>
      obtain ⟨later, hrun, hlater⟩ := ih t (log ++ new)
      refine ⟨new ++ later, ?_, ?_⟩
      · rw [← List.append_assoc]
        exact hrun
      · intro call hc
        rcases List.mem_append.mp hc with hc | hc
        · exact hnew call hc
        · exact hlater call hc

theorem makes_of_running {k : Nat}
    (h : machine.run b.console k (State.initial settings.capacity code) [] = (none, calls)) :
    machine.Makes b settings code calls :=
  ⟨k, by rw [evaluate_eq_scan, scan_of_running h]⟩

/-- An evaluation goes on from the calls that its run has made at any time. -/
theorem calls_of_running {k : Nat}
    (hk : machine.run b.console k (State.initial settings.capacity code) [] = (none, log))
    (h : machine.Evaluates b settings code outcome calls) : log <+: calls := by
  obtain ⟨n, halt, v, hrun, hconclude⟩ := evaluates_iff.mp h
  obtain ⟨t, hreach⟩ := reaches_of_running hk
  obtain ⟨j, hleads⟩ := hreach.leads
  obtain ⟨new, hnew, -⟩ := run_calls machine b (n - j) t log
  rw [(hleads.run_sub hrun).2] at hnew
  obtain rfl : v = log ++ new := hnew
  have hcalls := calls_of_conclude b code halt (log ++ new)
  rw [hconclude] at hcalls
  exact (List.prefix_append log new).trans hcalls

end Machine

theorem evaluate_eq_scan (b : Behaviour) (settings : Settings) (code : Source) (n : Nat) :
    evaluate b.console settings code n [] =
      (Machine.over settings code).scan b code n (State.initial settings.capacity code) [] :=
  Machine.evaluate_eq_scan n

/-- The interpreter takes a step and the console answers it. -/
theorem advance_over (b : Behaviour) (settings : Settings) (code : Source) (s : State)
    (log : List Call) :
    (Machine.over settings code).advance b.console s log =
      (s.step .remembering settings code (b.cancelled log)).serve b.console log :=
  Machine.advance_eq b.quiet

/-- At a state behind which a run does not go on it halts. -/
theorem halts_of_next_eq_none (b : Behaviour) (log : List Call)
    (h : ∀ cancelled, (s.step .remembering settings code cancelled).next? = none) :
    ∃ halt v, (Machine.over settings code).advance b.console s log = (.halted halt, v) := by
  rcases hadvance : (Machine.over settings code).advance b.console s log with ⟨t | halt, v⟩
  · obtain ⟨u, hu, -⟩ := (Machine.advance_served b.quiet hadvance).next
    cases (h _).symm.trans hu
  · exact ⟨halt, v, rfl⟩

end TapeInterpreter
