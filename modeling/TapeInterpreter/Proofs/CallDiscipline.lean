import TapeInterpreter.Proofs.Behaviour

/-!
# The discipline of console calls

The calls of an evaluation are reads and writes that succeed, up to one last call that ends it.
Which call that is, if there is one, decides the result, and the result tells which one it was.
-/
namespace TapeInterpreter
set_option autoImplicit false

/-- The call has served the run, which goes on behind it. -/
def Call.served : Call → Bool
  | .read (.ok (some _)) | .write _ (.ok ()) => true
  | _ => false

/-- Only a call on the console can end in this error. -/
def EvalError.ofConsole : EvalError → Bool
  | .endOfInput _ | .io .. => true
  | _ => false

/-- The result of an evaluation that its last call has ended, or that has ended without one. -/
inductive Closes (code : Source) : Option Call → Except EvalError Unit → Prop
  | flushed : Closes code (some (.flush (.ok ()))) (.ok ())
  | unflushed {fault : Fault} :
      Closes code (some (.flush (.error fault))) (.error (.io code.size fault))
  | exhausted {p : Nat} (hp : code[p]? = some ',') :
      Closes code (some (.read (.ok none))) (.error (.endOfInput p))
  | unread {p : Nat} {fault : Fault} (hp : code[p]? = some ',') :
      Closes code (some (.read (.error fault))) (.error (.io p fault))
  | unwritten {p : Nat} {byte : UInt8} {fault : Fault} (hp : code[p]? = some '.') :
      Closes code (some (.write byte (.error fault))) (.error (.io p fault))
  | stopped {e : EvalError} (he : e.ofConsole = false) : Closes code none (.error e)

namespace Closes

variable {code : Source} {last : Option Call} {result : Except EvalError Unit}

theorem served_eq_false (h : Closes code last result) : ∀ call ∈ last, call.served = false := by
  rintro call rfl
  cases h <;> rfl

theorem ok_iff (h : Closes code last result) :
    result = .ok () ↔ last = some (.flush (.ok ())) := by
  cases h <;> simp

theorem endOfInput_iff (h : Closes code last result) :
    (∃ p, result = .error (.endOfInput p)) ↔ last = some (.read (.ok none)) := by
  cases h with
  | stopped he =>
    refine ⟨?_, by rintro ⟨⟩⟩
    rintro ⟨p, ⟨⟩⟩
    cases he
  | _ => simp

theorem io_iff (h : Closes code last result) (fault : Fault) :
    (∃ p, result = .error (.io p fault)) ↔
      last = some (.flush (.error fault)) ∨ last = some (.read (.error fault)) ∨
        ∃ byte, last = some (.write byte (.error fault)) := by
  cases h with
  | stopped he =>
    refine ⟨?_, by rintro (⟨⟨⟩⟩ | ⟨⟨⟩⟩ | ⟨_, ⟨⟩⟩)⟩
    rintro ⟨p, ⟨⟩⟩
    cases he
  | _ => simp

/-- A failed call is reported where it was made. -/
theorem position_of_io {p : Nat} {fault : Fault} (h : Closes code last (.error (.io p fault))) :
    (∀ reply, last = some (.flush reply) → p = code.size) ∧
      (∀ reply, last = some (.read reply) → code[p]? = some ',') ∧
      ∀ byte reply, last = some (.write byte reply) → code[p]? = some '.' := by
  cases h with
  | unflushed => simp
  | unread hp => simp [hp]
  | unwritten hp => simp [hp]
  | stopped he => cases he

theorem eq_none_iff (h : Closes code last result) :
    last = none ↔ ∃ e, result = .error e ∧ e.ofConsole = false := by
  cases h with
  | stopped he => exact ⟨fun _ => ⟨_, rfl, he⟩, fun _ => rfl⟩
  | flushed => simp
  | _ => simp [EvalError.ofConsole]

end Closes

/-- The character whose command asks the console for something, and where it is. -/
def Step.asking? : Step → Option (Nat × Char)
  | .write _ p _ => some (p, '.')
  | .read p _ => some (p, ',')
  | .silent _ | .failed .. | .finished .. => none

theorem Command.eq_write_of_effect {c : Command} {tape : Tape} {byte : UInt8}
    (h : c.effect tape = .ok (.written byte)) : c = .write := by
  cases c with
  | write => rfl
  | increment => rw [effect] at h; cases hr : tape.increment <;> rw [hr] at h <;> cases h
  | decrement => rw [effect] at h; cases hr : tape.decrement <;> rw [hr] at h <;> cases h
  | _ => cases h

theorem Command.eq_read_of_effect {c : Command} {tape : Tape} (h : c.effect tape = .ok .wanted) :
    c = .read := by
  cases c with
  | read => rfl
  | write => rw [effect] at h; cases hr : tape.read <;> rw [hr] at h <;> cases h
  | increment => rw [effect] at h; cases hr : tape.increment <;> rw [hr] at h <;> cases h
  | decrement => rw [effect] at h; cases hr : tape.decrement <;> rw [hr] at h <;> cases h
  | _ => cases h

namespace State

variable {s t : State} {resume : Resume} {settings : Settings} {code : Source} {cancelled : Bool}
  {asked : Nat × Char}

theorem asking_of_command {c : Command} (hg : code.glyph? s.position = some (.command c))
    (h : (s.command settings cancelled c).asking? = some asked) :
    code[asked.1]? = some asked.2 := by
  obtain ⟨char, hc, hg⟩ := Source.exists_of_glyph? hg
  rw [command_eq] at h
  split at h
  · cases h
  · split at h
    · cases h
    · cases h
    · rename_i heffect
      cases h
      rw [Command.eq_write_of_effect heffect] at hg
      rw [← Glyph.eq_of_char? hg rfl]
      exact hc
    · rename_i heffect
      cases h
      rw [Command.eq_read_of_effect heffect] at hg
      rw [← Glyph.eq_of_char? hg rfl]
      exact hc

theorem asking_of_test {zero nonzero : State → State} :
    (s.test settings cancelled zero nonzero).asking? = none := by
  rw [test_eq]
  split
  · rfl
  · split <;> rfl

/-- A byte is written for a `.` and read for a `,` only. -/
theorem char_of_asking (h : (s.step resume settings code cancelled).asking? = some asked) :
    code[asked.1]? = some asked.2 := by
  have hrule := s.rule resume settings code cancelled
  generalize s.step resume settings code cancelled = r at hrule h
  cases hrule with
  | executed hg => exact asking_of_command hg h
  | opened => rw [asking_of_test] at h; cases h
  | closed => rw [asking_of_test] at h; cases h
  | _ => cases h

end State

variable {b : Behaviour} {settings : Settings} {code : Source} {s t : State} {halt : Halt}
  {log calls : List Call} {outcome : Outcome}

theorem served_append {call : Call} (hlog : ∀ call ∈ log, call.served = true)
    (hcall : call.served = true) : ∀ call' ∈ log ++ [call], call'.served = true := by
  intro call' hmem
  rcases List.mem_append.mp hmem with hmem | hmem
  · exact hlog call' hmem
  · obtain rfl := List.mem_singleton.mp hmem
    exact hcall

/-- Where a run goes on every call has served it. -/
theorem served_of_advance (hlog : ∀ call ∈ log, call.served = true)
    (h : (Machine.over settings code).advance b.console s log = (.running t, calls)) :
    ∀ call ∈ calls, call.served = true := by
  have hserved := Machine.advance_served b.quiet h
  generalize Machine.over settings code s _ = step at hserved
  cases hserved with
  | silent => exact hlog
  | @written byte p t v hw =>
    obtain ⟨hreply, rfl⟩ := Prod.mk.inj hw
    exact served_append hlog (by rw [hreply]; rfl)
  | @stored p t v byte tape hr ht =>
    obtain ⟨hreply, rfl⟩ := Prod.mk.inj hr
    exact served_append hlog (by rw [hreply]; rfl)

/-- A step that fails makes no call. -/
theorem ofConsole_of_failed {resume : Resume} {cancelled : Bool} {e : EvalError}
    (h : s.step resume settings code cancelled = .failed e t) : e.ofConsole = false := by
  rcases State.step_failed h with hsyn | hcharge | ⟨access, rfl⟩
  · cases e <;> first | rfl | cases hsyn
  · rcases charge_error hcharge with rfl | ⟨limit, rfl⟩ <;> rfl
  · rfl

/-- A run that halts in front of the end has made calls that served it, and at most one more. -/
theorem closes_of_advance (hlog : ∀ call ∈ log, call.served = true)
    (h : (Machine.over settings code).advance b.console s log = (.halted halt, calls)) :
    (halt.stopped = .ok code.size ∧ ∀ call ∈ calls, call.served = true) ∨
      ∃ e served last, halt.stopped = .error e ∧ calls = served ++ last.toList ∧
        (∀ call ∈ served, call.served = true) ∧ Closes code last (.error e) := by
  have hserved := Machine.advance_served b.quiet h
  change Served b.console log (s.step .remembering settings code (b.cancelled log)) _ _ at hserved
  generalize hstep : s.step .remembering settings code (b.cancelled log) = step at hserved
  cases hserved with
  | finished =>
    obtain ⟨rfl, -⟩ := State.step_finished hstep
    exact Or.inl ⟨rfl, hlog⟩
  | failed =>
    exact Or.inr ⟨_, log, none, rfl, (List.append_nil log).symm, hlog,
      .stopped (ofConsole_of_failed hstep)⟩
  | @unwritten byte p t v fault hw =>
    obtain ⟨hreply, rfl⟩ := Prod.mk.inj hw
    have hchar : code[p]? = some '.' := State.char_of_asking (by rw [hstep]; rfl)
    exact Or.inr ⟨_, log, some _, rfl, rfl, hlog, by rw [hreply]; exact .unwritten hchar⟩
  | @misplaced p t v byte e hr =>
    obtain ⟨hreply, rfl⟩ := Prod.mk.inj hr
    exact Or.inr ⟨_, log ++ [_], none, rfl, (List.append_nil _).symm,
      served_append hlog (by rw [hreply]; rfl), .stopped rfl⟩
  | @exhausted p t v hr =>
    obtain ⟨hreply, rfl⟩ := Prod.mk.inj hr
    have hchar : code[p]? = some ',' := State.char_of_asking (by rw [hstep]; rfl)
    exact Or.inr ⟨_, log, some _, rfl, rfl, hlog, by rw [hreply]; exact .exhausted hchar⟩
  | @unread p t v fault hr =>
    obtain ⟨hreply, rfl⟩ := Prod.mk.inj hr
    have hchar : code[p]? = some ',' := State.char_of_asking (by rw [hstep]; rfl)
    exact Or.inr ⟨_, log, some _, rfl, rfl, hlog, by rw [hreply]; exact .unread hchar⟩

/-- Before an evaluation ends every call has served it. -/
theorem served_of_evaluate {n : Nat}
    (h : evaluate b.console settings code n [] = (none, calls)) :
    ∀ call ∈ calls, call.served = true := by
  rw [evaluate_eq_scan] at h
  rcases hrun : (Machine.over settings code).run b.console n
    (State.initial settings.capacity code) [] with ⟨_ | halt, log⟩
  · rw [Machine.scan_of_running hrun] at h
    cases h
    obtain ⟨t, hreach⟩ := Machine.reaches_of_running hrun
    exact hreach.preserves (P := fun _ log => ∀ call ∈ log, call.served = true)
      (fun _ _ _ _ hlog ha => served_of_advance hlog ha) (by simp)
  · rw [Machine.scan_of_halted hrun] at h
    cases h

/-- An evaluation closes with its last call. -/
theorem evaluates_closes (h : Evaluates b settings code outcome calls) :
    ∃ served last, calls = served ++ last.toList ∧ (∀ call ∈ served, call.served = true) ∧
      Closes code last outcome.result := by
  obtain ⟨n, halt, log, hrun, hconclude⟩ := Machine.evaluates_iff.mp h
  obtain ⟨t, u, hu, ha⟩ := Machine.run_halted
    (P := fun _ log => ∀ call ∈ log, call.served = true)
    (fun _ _ _ _ hlog ha => served_of_advance hlog ha) (by simp) hrun
  rcases closes_of_advance hu ha with
    ⟨hstop, hlog⟩ | ⟨e, served, last, hstop, rfl, hserved, hcloses⟩
  · rw [conclude_of_ok hstop] at hconclude
    cases hconclude
    refine ⟨log, some _, rfl, hlog, ?_⟩
    simp only [Halt.outcome]
    cases b.flush log with
    | ok u => exact .flushed
    | error fault => exact .unflushed
  · rw [conclude_of_error hstop] at hconclude
    cases hconclude
    exact ⟨served, last, rfl, hserved, hcloses⟩

/-- Console calls follow one discipline that decides the result. All of them serve the run but the
last one at most, which may be a read at the end of the input, a failed read or write, or the flush.
An evaluation succeeds exactly if its last call is a flush that does, it ends with the end of input
or a failure of the console exactly if its last call does, and it makes no such call exactly if it
ends in another way. The error of a failed call is about its character, or the end of the source. -/
theorem calls_decide_the_result (b : Behaviour) (settings : Settings) (code : Source) :
    (∀ n calls, evaluate b.console settings code n [] = (none, calls) →
      ∀ call ∈ calls, call.served = true) ∧
    ∀ outcome calls, Evaluates b settings code outcome calls →
      ∃ served last, calls = served ++ Option.toList last ∧ (∀ call ∈ served, call.served = true) ∧
        (∀ call ∈ last, call.served = false) ∧
        (outcome.result = .ok () ↔ last = some (.flush (.ok ()))) ∧
        ((∃ p, outcome.result = .error (.endOfInput p)) ↔ last = some (.read (.ok none))) ∧
        (∀ fault, (∃ p, outcome.result = .error (.io p fault)) ↔
          last = some (.flush (.error fault)) ∨ last = some (.read (.error fault)) ∨
            ∃ byte, last = some (.write byte (.error fault))) ∧
        ((∃ e, outcome.result = .error e ∧ e.ofConsole = false) ↔ last = none) ∧
        ∀ p fault, outcome.result = .error (.io p fault) →
          (∀ reply, last = some (.flush reply) → p = code.size) ∧
          (∀ reply, last = some (.read reply) → code[p]? = some ',') ∧
          ∀ byte reply, last = some (.write byte reply) → code[p]? = some '.' := by
  refine ⟨fun n calls h => served_of_evaluate h, fun outcome calls h => ?_⟩
  obtain ⟨served, last, hcalls, hserved, hcloses⟩ := evaluates_closes h
  refine ⟨served, last, hcalls, hserved, hcloses.served_eq_false, hcloses.ok_iff,
    hcloses.endOfInput_iff, hcloses.io_iff, hcloses.eq_none_iff.symm, fun p fault hresult => ?_⟩
  rw [hresult] at hcloses
  exact hcloses.position_of_io

end TapeInterpreter
