import TapeInterpreter.Proofs.Behaviour

/-!
# Runs that answer each other

Two machines, possibly over two sources, whose steps answer each other up to a change of positions
halt together, with results that differ by that change, and make the same calls on the way. Each
may glide on its own in between: the console does not notice.
-/
namespace TapeInterpreter
set_option autoImplicit false

/-- The same error about the characters to which `place` moves. -/
def EvalError.relocate (place : Nat → Nat) : EvalError → EvalError
  | .unexpectedCharacter c p => .unexpectedCharacter c (place p)
  | .unmatched bracket p => .unmatched bracket (place p)
  | .endOfInput p => .endOfInput (place p)
  | .io p fault => .io (place p) fault
  | .nestingTooDeep p limit => .nestingTooDeep (place p) limit
  | .incompleteScan p => .incompleteScan (place p)
  | .outOfRange access => .outOfRange access
  | .stepLimitExceeded limit => .stepLimitExceeded limit
  | .cancelled => .cancelled

/-- An outcome whose error, if there is one, is about other characters. -/
def Outcome.relocate (place : Nat → Nat) (o : Outcome) : Outcome :=
  { o with result := o.result.mapError (.relocate place) }

theorem EvalError.relocate_id (e : EvalError) : e.relocate id = e := by
  cases e <;> rfl

theorem Outcome.relocate_id (o : Outcome) : o.relocate id = o := by
  obtain ⟨result, tape, steps⟩ := o
  cases result with
  | error e => exact congrArg (fun e => (⟨.error e, tape, steps⟩ : Outcome)) e.relocate_id
  | ok u => rfl

/-- The results of two runs that end in the same way, one over `code` and the other over `code'`. -/
inductive Halt.Alike (place : Nat → Nat) (code code' : Source) : Halt → Halt → Prop
  | failed {e : EvalError} {s t : State} (htape : s.tape = t.tape) (hsteps : s.steps = t.steps) :
      Halt.Alike place code code' ⟨.error (e.relocate place), s⟩ ⟨.error e, t⟩
  | finished {s t : State} (htape : s.tape = t.tape) (hsteps : s.steps = t.steps) :
      Halt.Alike place code code' ⟨.ok code.size, s⟩ ⟨.ok code'.size, t⟩

/-- Two steps that ask the console for the same, and go on at states that `R` relates. -/
inductive Step.Alike (place : Nat → Nat) (code code' : Source) (R : State → State → Prop) :
    Step → Step → Prop
  | silent {s t : State} (h : R s t) : Step.Alike place code code' R (.silent s) (.silent t)
  | write {byte : UInt8} {p q : Nat} {s t : State} (hp : p = place q) (h : R s t)
      (htape : s.tape = t.tape) (hsteps : s.steps = t.steps) :
      Step.Alike place code code' R (.write byte p s) (.write byte q t)
  | read {p q : Nat} {s t : State} (hp : p = place q)
      (h : ∀ tape, R { s with tape := tape } { t with tape := tape }) (htape : s.tape = t.tape)
      (hsteps : s.steps = t.steps) : Step.Alike place code code' R (.read p s) (.read q t)
  | failed {e : EvalError} {s t : State} (htape : s.tape = t.tape) (hsteps : s.steps = t.steps) :
      Step.Alike place code code' R (.failed (e.relocate place) s) (.failed e t)
  | finished {s t : State} (htape : s.tape = t.tape) (hsteps : s.steps = t.steps) :
      Step.Alike place code code' R (.finished code.size s) (.finished code'.size t)

/-- Two runs that both go on, or both halt. -/
inductive Progress.Alike (R : State → State → Prop) (H : Halt → Halt → Prop) :
    Progress → Progress → Prop
  | running {s t : State} (h : R s t) : Progress.Alike R H (.running s) (.running t)
  | halted {a b : Halt} (h : H a b) : Progress.Alike R H (.halted a) (.halted b)

variable {σ : Type} {place : Nat → Nat} {code code' : Source} {R : State → State → Prop}
  {H : Halt → Halt → Prop} {console : Console (StateM σ)} {A B : Machine} {s t : State} {w : σ}

theorem Progress.Alike.refl (p : Progress) : Progress.Alike Eq Eq p p := by
  cases p with
  | running s => exact .running rfl
  | halted halt => exact .halted rfl

theorem Progress.Alike.symm {p q : Progress} (h : Progress.Alike R H p q) :
    Progress.Alike (fun t s => R s t) (fun b a => H a b) q p := by
  cases h with
  | running h => exact .running h
  | halted h => exact .halted h

/-- What else holds wherever the second run goes on may be added to the relation. -/
theorem Step.Alike.strengthen {a b : Step} {Q : State → Prop}
    (h : Step.Alike place code code' R a b)
    (hQ : ∀ t tape, b.next? = some t → Q { t with tape := tape }) :
    Step.Alike place code code' (fun s t => R s t ∧ Q t) a b := by
  cases h with
  | @silent s t h => exact .silent ⟨h, hQ t t.tape rfl⟩
  | @write byte p q s t hp h htape hsteps => exact .write hp ⟨h, hQ t t.tape rfl⟩ htape hsteps
  | @read p q s t hp h htape hsteps =>
    exact .read hp (fun tape => ⟨h tape, hQ t tape rfl⟩) htape hsteps
  | failed htape hsteps => exact .failed htape hsteps
  | finished htape hsteps => exact .finished htape hsteps

/-- The console answers alike steps alike. -/
theorem Step.Alike.serve {a b : Step} (h : Step.Alike place code code' R a b)
    (console : Console (StateM σ)) (w : σ) :
    ∃ p q v, a.serve console w = (p, v) ∧ b.serve console w = (q, v) ∧
      Progress.Alike R (Halt.Alike place code code') p q := by
  cases h with
  | silent h => exact ⟨_, _, w, rfl, rfl, .running h⟩
  | failed htape hsteps => exact ⟨_, _, w, rfl, rfl, .halted (.failed htape hsteps)⟩
  | finished htape hsteps => exact ⟨_, _, w, rfl, rfl, .halted (.finished htape hsteps)⟩
  | @write byte _ p s t hp h htape hsteps =>
    subst hp
    simp only [Step.serve, bind, StateT.bind]
    rcases console.write byte w with ⟨fault | _, v⟩
    · exact ⟨_, _, v, rfl, rfl, .halted (.failed (e := .io p fault) htape hsteps)⟩
    · exact ⟨_, _, v, rfl, rfl, .running h⟩
  | @read _ p s t hp h htape hsteps =>
    subst hp
    simp only [Step.serve, bind, StateT.bind]
    rcases console.read w with ⟨fault | _ | byte, v⟩
    · exact ⟨_, _, v, rfl, rfl, .halted (.failed (e := .io p fault) htape hsteps)⟩
    · exact ⟨_, _, v, rfl, rfl, .halted (.failed (e := .endOfInput p) htape hsteps)⟩
    · simp only [State.store, htape]
      cases t.tape.write byte with
      | ok tape => exact ⟨_, _, v, rfl, rfl, .running (h tape)⟩
      | error e => exact ⟨_, _, v, rfl, rfl, .halted (.failed (e := .outOfRange e) htape hsteps)⟩

namespace Machine

/-- From states that `R` relates both machines glide to where they answer each other. -/
def Answers (A B : Machine) (console : Console (StateM σ)) (R : State → State → Prop)
    (H : Halt → Halt → Prop) : Prop :=
  ∀ s t w, R s t → ∃ s' t', A.Glides s s' ∧ B.Glides t t' ∧
    ∃ p q v, A.advance console s' w = (p, v) ∧ B.advance console t' w = (q, v) ∧
      Progress.Alike R H p q

theorem Answers.symm (h : A.Answers B console R H) :
    B.Answers A console (fun t s => R s t) (fun b a => H a b) := by
  intro t s w hR
  obtain ⟨s', t', hs, ht, p, q, v, hp, hq, halike⟩ := h s t w hR
  exact ⟨t', s', ht, hs, q, p, v, hq, hp, halike.symm⟩

/-- Machines whose steps are alike do the same on every console. -/
theorem advance_alike (hquiet : console.Quiet)
    (h : ∀ cancelled, Step.Alike place code code' R (A s cancelled) (B t cancelled)) (w : σ) :
    ∃ p q v, A.advance console s w = (p, v) ∧ B.advance console t w = (q, v) ∧
      Progress.Alike R (Halt.Alike place code code') p q := by
  obtain ⟨p, q, v, hp, hq, hpq⟩ := (h (console.cancelled w).1).serve console w
  rw [← advance_eq hquiet] at hp hq
  exact ⟨p, q, v, hp, hq, hpq⟩

theorem answers_of_alike (hquiet : console.Quiet)
    (h : ∀ s t, R s t → ∃ s' t', A.Glides s s' ∧ B.Glides t t' ∧
      ∀ cancelled, Step.Alike place code code' R (A s' cancelled) (B t' cancelled)) :
    A.Answers B console R (Halt.Alike place code code') := by
  intro s t w hR
  obtain ⟨s', t', hs, ht, halike⟩ := h s t hR
  exact ⟨s', t', hs, ht, advance_alike hquiet halike w⟩

/-- However long one machine runs, the other gets as far: it has made the same calls, and it has
halted if and only if the first one has. -/
theorem Answers.run (h : A.Answers B console R H) (hquiet : console.Quiet) (n : Nat) (hR : R s t)
    (w : σ) :
    ∃ k v, (A.run console n s w = (none, v) ∧ B.run console k t w = (none, v)) ∨
      ∃ a b, A.run console n s w = (some a, v) ∧ B.run console k t w = (some b, v) ∧ H a b := by
  induction n using Nat.strongRecOn generalizing s t w with
  | ind n ih =>
    obtain ⟨s', t', hs, ht, p, q, v, hp, hq, halike⟩ := h s t w hR
    obtain ⟨j, hj⟩ := ht.leads hquiet w
    -- A run that is over within its glide has made no call, and no step has to answer it.
    rcases hs.run_eq hquiet n w with hn | ⟨_ | m, hm, hn⟩
    · exact ⟨0, w, Or.inl ⟨hn, rfl⟩⟩
    · exact ⟨0, w, Or.inl ⟨hn, rfl⟩⟩
    · rw [run_succ, hp] at hn
      cases halike with
      | halted hH =>
        exact ⟨1 + j, v, Or.inr ⟨_, _, hn, by rw [hj, run_succ, hq], hH⟩⟩
      | running hR' =>
        have hon : ∀ k, B.run console (k + 1 + j) t w = B.run console k _ v := fun k => by
          rw [hj, run_succ, hq]
        obtain ⟨k, u, hk⟩ := ih m hm hR' v
        refine ⟨k + 1 + j, u, ?_⟩
        rw [hn, hon]
        exact hk

/-- Two runs in worlds of their own that step abreast run as long as each other, unless the second
one halts where the first one is about to go on: `E` says how they stand to each other there. -/
theorem run_abreast {τ : Type} {console' : Console (StateM τ)} {R : State → σ → State → τ → Prop}
    {H : Halt → σ → Halt → τ → Prop} {E : State → σ → Halt → τ → Prop}
    (h : ∀ s w t v, R s w t v →
      (∃ p w' q v', A.advance console s w = (p, w') ∧ B.advance console' t v = (q, v') ∧
        Progress.Alike (R · w' · v') (H · w' · v') p q) ∨
      ∃ halt v', B.advance console' t v = (.halted halt, v') ∧ E s w halt v')
    (n : Nat) {s t : State} {w : σ} {v : τ} (hR : R s w t v) :
    ∃ w' v',
      (A.run console n s w = (none, w') ∧ B.run console' n t v = (none, v') ∧
        ∃ s' t', R s' w' t' v') ∨
      (∃ x y, A.run console n s w = (some x, w') ∧ B.run console' n t v = (some y, v') ∧
        H x w' y v') ∨
      ∃ m s' halt, A.Leads console m s w s' w' ∧ B.run console' n t v = (some halt, v') ∧
        E s' w' halt v' := by
  induction n generalizing s w t v with
  | zero => exact ⟨w, v, Or.inl ⟨rfl, rfl, s, t, hR⟩⟩
  | succ n ih =>
    rcases h s w t v hR with ⟨p, w', q, v', hp, hq, halike⟩ | ⟨halt, v', hq, hE⟩
    · cases halike with
      | halted hH =>
        exact ⟨w', v', Or.inr (Or.inl ⟨_, _, run_of_halts hp n, run_of_halts hq n, hH⟩)⟩
      | running hR' =>
        have hs := leads_of_advance hp
        have ht := leads_of_advance hq
        obtain ⟨x, y, hxy⟩ := ih hR'
        refine ⟨x, y, ?_⟩
        rw [hs n, ht n]
        exact hxy.imp_right fun hxy => hxy.imp_right fun ⟨m, s', halt, hm, hrun, hE⟩ =>
          ⟨m + 1, s', halt, hs.trans hm, hrun, hE⟩
    · exact ⟨w, v', Or.inr (Or.inr ⟨0, s, halt, .refl s w, run_of_halts hq n, hE⟩)⟩

/-- In one world a relation between the states is enough. -/
theorem run_until {E : State → Halt → Prop}
    (h : ∀ s t w, R s t →
      (∃ p q v, A.advance console s w = (p, v) ∧ B.advance console t w = (q, v) ∧
        Progress.Alike R H p q) ∨
      ∃ halt, B.advance console t w = (.halted halt, w) ∧ E s halt)
    (n : Nat) (hR : R s t) (w : σ) :
    ∃ v, (A.run console n s w = (none, v) ∧ B.run console n t w = (none, v)) ∨
      (∃ x y, A.run console n s w = (some x, v) ∧ B.run console n t w = (some y, v) ∧ H x y) ∨
      ∃ m s' halt, A.Leads console m s w s' v ∧ B.run console n t w = (some halt, v) ∧
        E s' halt := by
  have hstep : ∀ s w t v, R s t ∧ w = v →
      (∃ p w' q v', A.advance console s w = (p, w') ∧ B.advance console t v = (q, v') ∧
        Progress.Alike (fun s t => R s t ∧ w' = v') (fun x y => H x y ∧ w' = v') p q) ∨
      ∃ halt v', B.advance console t v = (.halted halt, v') ∧ E s halt ∧ w = v' := by
    rintro s w t v ⟨hR, rfl⟩
    rcases h s t w hR with ⟨p, q, v, hp, hq, halike⟩ | ⟨halt, hq, hE⟩
    · refine Or.inl ⟨p, v, q, v, hp, hq, ?_⟩
      cases halike with
      | running hR' => exact .running ⟨hR', rfl⟩
      | halted hH => exact .halted ⟨hH, rfl⟩
    · exact Or.inr ⟨halt, w, hq, hE, rfl⟩
  obtain ⟨v, v', hruns⟩ := run_abreast hstep n (⟨hR, rfl⟩ : R s t ∧ w = w)
  rcases hruns with ⟨ha, hb, -, -, -, rfl⟩ | ⟨x, y, ha, hb, hH, rfl⟩ |
    ⟨m, s', halt, hm, hb, hE, rfl⟩
  · exact ⟨v, Or.inl ⟨ha, hb⟩⟩
  · exact ⟨v, Or.inr (Or.inl ⟨x, y, ha, hb, hH⟩)⟩
  · exact ⟨v, Or.inr (Or.inr ⟨m, s', halt, hm, hb, hE⟩)⟩

end Machine

variable {b : Behaviour} {log : List Call}

/-- Runs that end in the same way are concluded in the same way. -/
theorem Halt.Alike.conclude {x y : Halt} (h : Halt.Alike place code code' x y)
    (hsize : place code'.size = code.size) (calls : List Call) :
    (x.conclude b.console code calls).1 = (y.conclude b.console code' calls).1.relocate place ∧
      (x.conclude b.console code calls).2 = (y.conclude b.console code' calls).2 := by
  cases h with
  | failed htape hsteps =>
    rw [conclude_of_error rfl, conclude_of_error rfl]
    simp only [Halt.outcome, Outcome.relocate, htape, hsteps, and_true]
    rfl
  | finished htape hsteps =>
    rw [conclude_of_ok rfl, conclude_of_ok rfl]
    simp only [Halt.outcome, Outcome.relocate, htape, hsteps, and_true]
    cases b.flush calls with
    | ok u => rfl
    | error fault => exact congrArg (fun p => (⟨.error (.io p fault), _, _⟩ : Outcome)) hsize.symm

namespace Machine

/-- Two runs of which both or none have halted, with the same calls, give the same scans. -/
theorem scan_eq_of_runs {n k : Nat} {v : List Call} (hsize : place code'.size = code.size)
    (h : (A.run b.console n s log = (none, v) ∧ B.run b.console k t log = (none, v)) ∨
      ∃ x y, A.run b.console n s log = (some x, v) ∧ B.run b.console k t log = (some y, v) ∧
        Halt.Alike place code code' x y) :
    A.scan b code n s log =
      ((B.scan b code' k t log).1.map (.relocate place), (B.scan b code' k t log).2) := by
  rcases h with ⟨ha, hb⟩ | ⟨x, y, ha, hb, hH⟩
  · rw [scan_of_running ha, scan_of_running hb]
    rfl
  · obtain ⟨houtcome, hcalls⟩ := hH.conclude (b := b) hsize v
    rw [scan_of_halted ha, scan_of_halted hb, houtcome, hcalls]
    rfl

/-- Machines that answer each other make the same calls and come to the same outcome, up to a
change of positions. -/
theorem Answers.evaluates {settings : Settings}
    (h : A.Answers B b.console R (Halt.Alike place code code'))
    (hsize : place code'.size = code.size)
    (hR : R (State.initial settings.capacity code) (State.initial settings.capacity code')) :
    (∀ outcome calls, A.Evaluates b settings code outcome calls ↔
      ∃ o, B.Evaluates b settings code' o calls ∧ outcome = o.relocate place) ∧
    ∀ calls, A.Makes b settings code calls ↔ B.Makes b settings code' calls := by
  have hforth : ∀ n, ∃ k, A.evaluate b.console settings code n [] =
      ((B.evaluate b.console settings code' k []).1.map (.relocate place),
        (B.evaluate b.console settings code' k []).2) := by
    intro n
    obtain ⟨k, v, hruns⟩ := h.run b.quiet n hR []
    refine ⟨k, ?_⟩
    rw [evaluate_eq_scan, evaluate_eq_scan]
    exact scan_eq_of_runs hsize hruns
  have hback : ∀ k, ∃ n, A.evaluate b.console settings code n [] =
      ((B.evaluate b.console settings code' k []).1.map (.relocate place),
        (B.evaluate b.console settings code' k []).2) := by
    intro k
    obtain ⟨n, v, hruns⟩ := h.symm.run b.quiet k hR []
    refine ⟨n, ?_⟩
    rw [evaluate_eq_scan, evaluate_eq_scan]
    apply scan_eq_of_runs (v := v) hsize
    rcases hruns with ⟨hb, ha⟩ | ⟨y, x, hb, ha, hH⟩
    · exact Or.inl ⟨ha, hb⟩
    · exact Or.inr ⟨x, y, ha, hb, hH⟩
  refine ⟨fun outcome calls => ⟨?_, ?_⟩, fun calls => ⟨?_, ?_⟩⟩
  · rintro ⟨n, hn⟩
    obtain ⟨k, hk⟩ := hforth n
    rw [hn] at hk
    obtain ⟨o, ho, rfl⟩ := Option.map_eq_some_iff.mp (congrArg Prod.fst hk).symm
    exact ⟨o, ⟨k, Prod.ext ho (congrArg Prod.snd hk).symm⟩, rfl⟩
  · rintro ⟨o, ⟨k, hk⟩, rfl⟩
    obtain ⟨n, hn⟩ := hback k
    rw [hk] at hn
    exact ⟨n, hn⟩
  · rintro ⟨n, rfl⟩
    obtain ⟨k, hk⟩ := hforth n
    exact ⟨k, by rw [hk]⟩
  · rintro ⟨k, rfl⟩
    obtain ⟨n, hn⟩ := hback k
    exact ⟨n, by rw [hn]⟩

end Machine

end TapeInterpreter
