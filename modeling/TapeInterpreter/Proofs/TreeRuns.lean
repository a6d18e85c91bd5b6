import TapeInterpreter.Proofs.DryPass
import TapeInterpreter.Proofs.TreeSemantics

/-!
# The scan runs the tree

A scan of a text that reads as a program runs that program: where it goes next, the position it
resumes at behind a loop too, is always the place of what the tree runs next. So a big step of the
tree is a stretch of the run, and a run that ends has come from a big step.
-/
namespace TapeInterpreter
set_option autoImplicit false

def State.memory (s : State) (calls : List Call) : Memory := ⟨s.tape, s.steps, calls⟩

/-- The scan is in front of the text of `tree`, or in front of the closing bracket of the loop that
`tree` starts with, about to test the cell again. -/
inductive Poised (code : Source) (outer : List Frame) (room stop : Nat) : Program → State → Prop
  | start {tree : Program} {s : State} (hframes : s.frames = outer)
      (hreads : code.Reads room s.position tree stop) : Poised code outer room stop tree s
  | again {inner : Nat} {f : Frame} {body rest : Program} {s : State}
      (hframes : s.frames = f :: outer) (hpass : f.pass = .running) (hroom : room = inner + 1)
      (hbody : code.Reads inner (f.opening + 1) body s.position)
      (hc : code.glyph? s.position = some .closing)
      (hrest : code.Reads room (s.position + 1) rest stop) :
      Poised code outer room stop (.loop f.opening body rest) s

/-- A run is about to run `tree`, which ends at `stop`, inside the loops `outer`. -/
structure Ready (settings : Settings) (code : Source) (outer : List Frame) (room stop : Nat)
    (tree : Program) (s : State) : Prop where
  consistent : s.Consistent code settings.maxDepth
  running : ∀ f ∈ outer, f.pass = .running
  depth : outer.length + room ≤ settings.maxDepth
  poised : Poised code outer room stop tree s

/-- A run has got to `stop` inside the loops `outer`. -/
structure Arrived (settings : Settings) (code : Source) (outer : List Frame) (stop : Nat)
    (s : State) : Prop where
  consistent : s.Consistent code settings.maxDepth
  frames : s.frames = outer
  position : s.position = stop

variable {b : Behaviour} {settings : Settings} {code : Source} {outer : List Frame}
  {room stop : Nat} {s t : State} {log v : List Call} {m m' : Memory} {e : EvalError} {halt : Halt}

/-! ## Single steps -/

/-- The interpreter runs a command as the tree does. -/
theorem advance_command (b : Behaviour) (settings : Settings) {c : Command}
    (hg : code.glyph? s.position = some (.command c))
    (hp : s.pass = .running) (log : List Call) :
    match (s.memory log).execute b settings.control c s.position with
    | (.ok (), m) => (Machine.over settings code).advance b.console s log =
        (.running { s with position := s.position + 1, tape := m.tape, steps := m.steps }, m.calls)
    | (.error e, m) => ∃ last, (Machine.over settings code).advance b.console s log =
        (.halted ⟨.error e, last⟩, m.calls) ∧ last.memory m.calls = m := by
  rw [advance_over, State.step_of_command hg hp, State.command_eq]
  simp only [Memory.execute, State.memory]
  cases charge settings.control (b.cancelled log) s.steps with
  | error e => exact ⟨s, rfl, rfl⟩
  | ok n =>
    cases c.effect s.tape with
    | error e => exact ⟨_, rfl, rfl⟩
    | ok effect =>
      cases effect with
      | changed tape => rfl
      | written byte =>
        simp only [Step.serve, bind, StateT.bind, Behaviour.console]
        cases b.write log byte with
        | error fault => exact ⟨_, rfl, rfl⟩
        | ok u => rfl
      | wanted =>
        simp only [Step.serve, bind, StateT.bind, Behaviour.console]
        rcases b.read log with fault | _ | byte
        · exact ⟨_, rfl, rfl⟩
        · exact ⟨_, rfl, rfl⟩
        · simp only [State.store]
          cases s.tape.write byte with
          | error e => exact ⟨_, rfl, rfl⟩
          | ok tape => rfl

/-- The interpreter tests a cell as the tree does. -/
theorem advance_test (b : Behaviour) {zero nonzero : State → State}
    (h : ∀ cancelled, Machine.over settings code s cancelled =
      s.test settings cancelled zero nonzero) (log : List Call) :
    match (s.memory log).test b settings.control with
    | (.ok cell, m) => (Machine.over settings code).advance b.console s log =
        (.running (if cell = 0 then zero { s with steps := m.steps }
          else nonzero { s with steps := m.steps }), m.calls) ∧
        m.calls = log ∧ m.tape = s.tape
    | (.error e, m) => ∃ last, (Machine.over settings code).advance b.console s log =
        (.halted ⟨.error e, last⟩, m.calls) ∧ last.memory m.calls = m := by
  rw [Machine.advance_eq b.quiet]
  change match (s.memory log).test b settings.control with
    | (.ok cell, m) =>
      (Machine.over settings code s (b.cancelled log)).serve b.console log = _ ∧ _
    | (.error e, m) => ∃ last,
      (Machine.over settings code s (b.cancelled log)).serve b.console log = _ ∧ _
  rw [h, State.test_eq]
  simp only [Memory.test, State.memory]
  cases charge settings.control (b.cancelled log) s.steps with
  | error e => exact ⟨s, rfl, rfl⟩
  | ok n =>
    cases s.tape.read with
    | error e => exact ⟨_, rfl, rfl⟩
    | ok cell => exact ⟨rfl, rfl, rfl⟩

/-- Blanks and comments are glided over. -/
theorem Source.Gap.glides {i j : Nat} (h : code.Gap i j) (hs : s.Consistent code settings.maxDepth)
    (hi : s.position = i) :
    (Machine.over settings code).Glides s (s.goto j) ∧
      (s.goto j).Consistent code settings.maxDepth := by
  induction h generalizing s with
  | refl =>
    subst hi
    exact ⟨.refl s, hs⟩
  | blank hg _ ih =>
    subst hi
    obtain ⟨hglides, hj⟩ := ih (hs.next hg (Or.inl rfl)) rfl
    exact ⟨.step (fun _ => State.step_of_blank hg) hglides, hj⟩
  | comment hg _ ih =>
    subst hi
    obtain ⟨hglides, hj⟩ := ih (hs.lineEnd hg) rfl
    exact ⟨.step (fun _ => State.step_of_comment hg) hglides, hj⟩

/-! ## Nodes of the tree -/

theorem pass_of_running (hframes : s.frames = outer) (h : ∀ f ∈ outer, f.pass = .running) :
    s.pass = .running := by
  unfold State.pass
  rw [hframes]
  cases outer with
  | nil => rfl
  | cons f outer => exact h f (List.mem_cons_self ..)

namespace Ready

/-- Inside a loop its body is next. -/
theorem inside {inner closing : Nat} {tree body : Program} {f : Frame}
    (h : Ready settings code outer room stop tree s) (hroom : room = inner + 1)
    (hpass : f.pass = .running) (ht : t.Consistent code settings.maxDepth)
    (hframes : t.frames = f :: outer) (hbody : code.Reads inner t.position body closing) :
    Ready settings code (f :: outer) inner closing body t where
  consistent := ht
  running := by
    intro g hg
    rcases List.mem_cons.mp hg with rfl | hg
    · exact hpass
    · exact h.running g hg
  depth := by
    have hdepth := h.depth
    rw [List.length_cons]
    omega
  poised := .start hframes hbody

/-- In front of its closing bracket a loop is next once more. -/
theorem again {inner closing : Nat} {tree body rest : Program} {f : Frame}
    (h : Ready settings code outer room stop tree s) (hroom : room = inner + 1)
    (hpass : f.pass = .running) (hbody : code.Reads inner (f.opening + 1) body closing)
    (hc : code.glyph? closing = some .closing) (hrest : code.Reads room (closing + 1) rest stop)
    (ht : Arrived settings code (f :: outer) closing t) :
    Ready settings code outer room stop (.loop f.opening body rest) t := by
  obtain ⟨hconsistent, hframes, rfl⟩ := ht
  exact ⟨hconsistent, h.running, h.depth, .again hframes hpass hroom hbody hc hrest⟩

/-- Nothing is left to run: the run glides to where the program ends. -/
theorem done (h : Ready settings code outer room stop .done s) (log : List Call) :
    ∃ t, (Machine.over settings code).Glides s t ∧ t.memory log = s.memory log ∧
      Arrived settings code outer stop t := by
  cases h.poised with
  | start hframes hreads =>
    cases hreads with
    | done hgap =>
      obtain ⟨hglides, hconsistent⟩ := hgap.glides h.consistent rfl
      exact ⟨_, hglides, rfl, hconsistent, hframes, rfl⟩

/-- The run glides to the command, and behind it the rest is next. -/
theorem command {c : Command} {position : Nat} {rest : Program}
    (h : Ready settings code outer room stop (.command c position rest) s) :
    (Machine.over settings code).Glides s (s.goto position) ∧
      code.glyph? position = some (.command c) ∧ s.pass = .running ∧
      ∀ tape n, Ready settings code outer room stop rest
        { s with position := position + 1, tape := tape, steps := n } := by
  cases h.poised with
  | start hframes hreads =>
    cases hreads with
    | command hgap hg hrest =>
      obtain ⟨hglides, hconsistent⟩ := hgap.glides h.consistent rfl
      refine ⟨hglides, hg, pass_of_running hframes h.running, fun tape n => ?_⟩
      exact ⟨(hconsistent.next hg (Or.inr ⟨c, rfl⟩)).withTape tape n, h.running, h.depth,
        .start hframes hrest⟩

/-- The run glides to where the loop tests the cell, for the first time or again. On zero it gets
behind the loop, and else to the body, behind which the same loop is next. -/
theorem loop {opening : Nat} {body rest : Program}
    (h : Ready settings code outer room stop (.loop opening body rest) s) :
    ∃ s' zero nonzero, (Machine.over settings code).Glides s s' ∧
      (∀ log, s'.memory log = s.memory log) ∧
      (∀ cancelled, Machine.over settings code s' cancelled =
        s'.test settings cancelled zero nonzero) ∧
      ∀ n,
        (∃ t, (Machine.over settings code).Glides (zero { s' with steps := n }) t ∧
          t.tape = s'.tape ∧ t.steps = n ∧ Ready settings code outer room stop rest t) ∧
        ∃ f inner closing, (nonzero { s' with steps := n }).tape = s'.tape ∧
          (nonzero { s' with steps := n }).steps = n ∧
          Ready settings code (f :: outer) inner closing body (nonzero { s' with steps := n }) ∧
          ∀ u, Arrived settings code (f :: outer) closing u →
            Ready settings code outer room stop (.loop opening body rest) u := by
  cases h.poised with
  | start hframes hreads =>
    cases hreads with
    | @loop inner _ _ c _ _ _ hgap ho hbody hc hrest =>
      obtain ⟨hglides, hconsistent⟩ := hgap.glides h.consistent rfl
      have hdepth : s.frames.length + (inner + 1) ≤ settings.maxDepth := hframes ▸ h.depth
      have hp : (s.goto opening).pass = .running := pass_of_running hframes h.running
      have hlevel : (s.goto opening).level < settings.maxDepth := by
        rw [hconsistent.level_eq]
        change s.frames.length < _
        omega
      have hm : code.Matches settings.maxDepth opening c := by
        refine Source.Reads.matches_of_loop hconsistent.context ho hbody hc ?_
        rw [List.length_map]
        change s.frames.length + inner < _
        omega
      refine ⟨s.goto opening, Resume.remembering.skip, (State.enter · .running), hglides,
        fun _ => rfl, fun cancelled => State.step_of_opening ho hlevel hp, fun n => ?_⟩
      have hcount := hconsistent.withTape s.tape n
      constructor
      · obtain ⟨htape, hsteps⟩ := Resume.remembering_sound.skip_keeps hcount.remembers
        rcases skip_glides Resume.remembering_sound hcount ho hlevel with
          ⟨c', hm', closings, hto, hbehind⟩ | ⟨hno, -⟩
        · obtain rfl := hm.unique hm'
          exact ⟨_, hto, htape, hsteps, hbehind, h.running, h.depth, .start hframes hrest⟩
        · exact absurd hm (hno c)
      · let f : Frame := ⟨opening, (s.goto opening).level + 1, .running⟩
        exact ⟨f, inner, c, rfl, rfl,
          h.inside rfl rfl (hcount.enter ho hlevel .running) (congrArg (f :: ·) hframes) hbody,
          fun u hu => h.again (f := f) rfl rfl hbody hc hrest hu⟩
  | @again inner f _ _ _ hframes hpass hroom hbody hc hrest =>
    refine ⟨s, (Resume.remembering.exit · f outer), (State.goto · (f.opening + 1)), .refl s,
      fun _ => rfl, fun cancelled => State.step_of_closing hc hframes hpass, fun n => ?_⟩
    have hcount := h.consistent.withTape s.tape n
    constructor
    · obtain ⟨closings, hto, hbehind⟩ := exit_glides Resume.remembering_sound hcount hc hframes
      exact ⟨_, hto, rfl, rfl, hbehind, h.running, h.depth, .start rfl hrest⟩
    · exact ⟨f, inner, s.position, rfl, rfl,
        h.inside hroom hpass (hcount.restart hc hframes) hframes hbody,
        fun u hu => h.again hroom hpass hbody hc hrest hu⟩

end Ready

/-! ## Whole programs -/

/-- From `s` a run gets to `stop` inside the loops `outer`, or it ends with an error, in the memory
that is named. -/
def EndsIn (b : Behaviour) (settings : Settings) (code : Source) (outer : List Frame) (stop : Nat)
    (s : State) (log : List Call) : Except EvalError Unit → Memory → Prop
  | .error e, m => ∃ k last, (Machine.over settings code).run b.console k s log =
      (some ⟨.error e, last⟩, m.calls) ∧ last.memory m.calls = m
  | .ok (), m => ∃ k t, (Machine.over settings code).Leads b.console k s log t m.calls ∧
      t.memory m.calls = m ∧ Arrived settings code outer stop t

variable {r : Except EvalError Unit} {k : Nat}

theorem EndsIn.after (h : EndsIn b settings code outer stop t v r m)
    (hk : (Machine.over settings code).Leads b.console k s log t v) :
    EndsIn b settings code outer stop s log r m := by
  cases r with
  | error e =>
    obtain ⟨l, last, hrun, hlast⟩ := h
    exact ⟨l + k, last, (hk l).trans hrun, hlast⟩
  | ok u =>
    obtain ⟨l, u, hl, hu⟩ := h
    exact ⟨l + k, u, hk.trans hl, hu⟩

theorem EndsIn.of_halted {last : State} (hlast : last.memory m.calls = m)
    (h : (Machine.over settings code).advance b.console s log =
      (.halted ⟨.error e, last⟩, m.calls)) :
    EndsIn b settings code outer stop s log (.error e) m :=
  ⟨1, last, Machine.run_of_halts h 0, hlast⟩

namespace Ready

variable {c : Command} {position opening : Nat} {body rest : Program} {cell : UInt8}

theorem refused (h : Ready settings code outer room stop (.command c position rest) s)
    (hm : (s.memory log).execute b settings.control c position = (.error e, m)) :
    EndsIn b settings code outer stop s log (.error e) m := by
  obtain ⟨hglides, hg, hp, -⟩ := h.command
  obtain ⟨k, hk⟩ := hglides.leads b.quiet log
  have hadvance := advance_command b settings (s := s.goto position) hg hp log
  simp only [show ((s.goto position).memory log).execute b settings.control c
    (s.goto position).position = _ from hm] at hadvance
  obtain ⟨last, hadvance, hlast⟩ := hadvance
  exact (EndsIn.of_halted hlast hadvance).after hk

theorem executed (h : Ready settings code outer room stop (.command c position rest) s)
    (hm : (s.memory log).execute b settings.control c position = (.ok (), m)) :
    ∃ k t, 0 < k ∧ (Machine.over settings code).Leads b.console k s log t m.calls ∧
      t.memory m.calls = m ∧ Ready settings code outer room stop rest t := by
  obtain ⟨hglides, hg, hp, hrest⟩ := h.command
  obtain ⟨k, hk⟩ := hglides.leads b.quiet log
  have hadvance := advance_command b settings (s := s.goto position) hg hp log
  simp only [show ((s.goto position).memory log).execute b settings.control c
    (s.goto position).position = _ from hm] at hadvance
  exact ⟨1 + k, _, by omega, hk.trans (Machine.leads_of_advance hadvance), rfl, hrest _ _⟩

theorem untested (h : Ready settings code outer room stop (.loop opening body rest) s)
    (hm : (s.memory log).test b settings.control = (.error e, m)) :
    EndsIn b settings code outer stop s log (.error e) m := by
  obtain ⟨s', zero, nonzero, hglides, hmemory, hstep, -⟩ := h.loop
  obtain ⟨k, hk⟩ := hglides.leads b.quiet log
  have hadvance := advance_test b hstep log
  simp only [hmemory, hm] at hadvance
  obtain ⟨last, hadvance, hlast⟩ := hadvance
  exact (EndsIn.of_halted hlast hadvance).after hk

/-- On zero a loop is over. -/
theorem left (h : Ready settings code outer room stop (.loop opening body rest) s)
    (hm : (s.memory log).test b settings.control = (.ok 0, m)) :
    ∃ k t, 0 < k ∧ (Machine.over settings code).Leads b.console k s log t m.calls ∧
      t.memory m.calls = m ∧ Ready settings code outer room stop rest t := by
  obtain ⟨s', zero, nonzero, hglides, hmemory, hstep, hnodes⟩ := h.loop
  obtain ⟨k, hk⟩ := hglides.leads b.quiet log
  have hadvance := advance_test b hstep log
  simp only [hmemory, hm, if_true] at hadvance
  obtain ⟨hadvance, hcalls, htape⟩ := hadvance
  obtain ⟨t, hbehind, httape, htsteps, hready⟩ := (hnodes m.steps).1
  obtain ⟨l, hl⟩ := hbehind.leads b.quiet m.calls
  refine ⟨l + (1 + k), t, by omega, (hk.trans (Machine.leads_of_advance hadvance)).trans hl, ?_,
    hready⟩
  rw [State.memory, httape, htsteps, ← htape]

/-- On any other value its body is run, and then the loop again. -/
theorem entered (h : Ready settings code outer room stop (.loop opening body rest) s)
    (hm : (s.memory log).test b settings.control = (.ok cell, m)) (hcell : cell ≠ 0) :
    ∃ k t f inner closing, 0 < k ∧
      (Machine.over settings code).Leads b.console k s log t m.calls ∧ t.memory m.calls = m ∧
      Ready settings code (f :: outer) inner closing body t ∧
      ∀ u, Arrived settings code (f :: outer) closing u →
        Ready settings code outer room stop (.loop opening body rest) u := by
  obtain ⟨s', zero, nonzero, hglides, hmemory, hstep, hnodes⟩ := h.loop
  obtain ⟨k, hk⟩ := hglides.leads b.quiet log
  have hadvance := advance_test b hstep log
  simp only [hmemory, hm, if_neg hcell] at hadvance
  obtain ⟨hadvance, hcalls, htape⟩ := hadvance
  obtain ⟨f, inner, closing, httape, htsteps, hready, hagain⟩ := (hnodes m.steps).2
  refine ⟨1 + k, _, f, inner, closing, by omega, hk.trans (Machine.leads_of_advance hadvance), ?_,
    hready, hagain⟩
  rw [State.memory, httape, htsteps, ← htape]

end Ready

/-- What a tree comes to, the run over its text comes to. -/
theorem Program.Runs.endsIn {tree : Program} (h : tree.Runs b settings.control m r m')
    (hs : Ready settings code outer room stop tree s) (hm : s.memory log = m) :
    EndsIn b settings code outer stop s log r m' := by
  induction h generalizing s log outer room stop with
  | done =>
    obtain ⟨t, hglides, ht, harrived⟩ := hs.done log
    obtain ⟨k, hk⟩ := hglides.leads b.quiet log
    subst hm
    exact ⟨k, t, hk, ht, harrived⟩
  | refused h => exact hs.refused (hm ▸ h)
  | executed h _ ih =>
    obtain ⟨k, t, -, hk, ht, hrest⟩ := hs.executed (hm ▸ h)
    exact (ih hrest ht).after hk
  | untested h => exact hs.untested (hm ▸ h)
  | left h _ ih =>
    obtain ⟨k, t, -, hk, ht, hrest⟩ := hs.left (hm ▸ h)
    exact (ih hrest ht).after hk
  | broken h hcell _ ih =>
    obtain ⟨k, t, f, inner, closing, -, hk, ht, hbody, -⟩ := hs.entered (hm ▸ h) hcell
    exact (ih hbody ht).after hk
  | repeated h hcell _ _ ihbody ihagain =>
    obtain ⟨k, t, f, inner, closing, -, hk, ht, hbody, hagain⟩ := hs.entered (hm ▸ h) hcell
    obtain ⟨l, u, hl, hu, harrived⟩ := ihbody hbody ht
    exact ((ihagain (hagain u harrived) hu).after hl).after hk

/-- A run that halts has come from a big step of the tree: the induction is on its length, and each
node of the tree takes part of it. -/
theorem exists_runs (n : Nat) {tree : Program} (hs : Ready settings code outer room stop tree s)
    (hrun : (Machine.over settings code).run b.console n s log = (some halt, v)) :
    ∃ r m, tree.Runs b settings.control (s.memory log) r m := by
  induction n using Nat.strongRecOn generalizing tree s log outer room stop with
  | ind n ih =>
  cases tree with
  | done => exact ⟨.ok (), _, .done⟩
  | command c position rest =>
    rcases hm : (s.memory log).execute b settings.control c position with ⟨e | _, m⟩
    · exact ⟨_, _, .refused hm⟩
    · obtain ⟨k, t, hpos, hk, ht, hrest⟩ := hs.executed hm
      obtain ⟨hle, hrun⟩ := hk.run_sub hrun
      obtain ⟨r, m', hruns⟩ := ih (n - k) (by omega) hrest hrun
      exact ⟨r, m', .executed hm (ht ▸ hruns)⟩
  | loop opening body rest =>
    rcases hm : (s.memory log).test b settings.control with ⟨e | cell, m⟩
    · exact ⟨_, _, .untested hm⟩
    · by_cases hcell : cell = 0
      · subst hcell
        obtain ⟨k, t, hpos, hk, ht, hrest⟩ := hs.left hm
        obtain ⟨hle, hrun⟩ := hk.run_sub hrun
        obtain ⟨r, m', hruns⟩ := ih (n - k) (by omega) hrest hrun
        exact ⟨r, m', .left hm (ht ▸ hruns)⟩
      · obtain ⟨k, t, f, inner, closing, hpos, hk, ht, hbody, hagain⟩ := hs.entered hm hcell
        obtain ⟨hle, hrun⟩ := hk.run_sub hrun
        obtain ⟨r, m', hruns⟩ := ih (n - k) (by omega) hbody hrun
        cases r with
        | error e => exact ⟨_, m', .broken hm hcell (ht ▸ hruns)⟩
        | ok u =>
          -- The body is over: the run is at the loop again, with less of it to come.
          obtain ⟨l, u, hl, hu, harrived⟩ := hruns.endsIn hbody rfl
          obtain ⟨hle', hrun⟩ := hl.run_sub hrun
          obtain ⟨r, m'', hrest⟩ := ih (n - k - l) (by omega) (hagain u harrived) hrun
          exact ⟨r, m'', .repeated hm hcell (ht ▸ hruns) (hu ▸ hrest)⟩

variable {tree : Program} {outcome : Outcome} {calls : List Call}

theorem Ready.initial (hreads : code.Reads settings.maxDepth 0 tree stop) :
    Ready settings code [] settings.maxDepth stop tree (State.initial settings.capacity code) where
  consistent := .initial settings.capacity
  running _ hf := by cases hf
  depth := Nat.le_of_eq (Nat.zero_add _)
  poised := .start rfl hreads

/-- What the tree evaluates to, the interpreter does. -/
theorem evaluates_of_tree (h : tree.Evaluates b settings code.size outcome calls)
    (hparses : code.Parses settings.maxDepth tree) : Evaluates b settings code outcome calls := by
  obtain ⟨stop, hstop, hreads⟩ := hparses
  obtain ⟨r, m, hruns, houtcome⟩ := h
  have hends : EndsIn b settings code [] stop (State.initial settings.capacity code) [] r m :=
    hruns.endsIn (Ready.initial hreads) rfl
  cases r with
  | error e =>
    obtain ⟨rfl, rfl⟩ := houtcome
    obtain ⟨k, last, hrun, hlast⟩ := hends
    refine Machine.evaluates_iff.mpr ⟨k, _, _, hrun, ?_⟩
    rw [conclude_of_error rfl, Halt.outcome, ← hlast]
    rfl
  | ok u =>
    obtain ⟨rfl, rfl⟩ := houtcome
    obtain ⟨k, t, hk, ht, harrived⟩ := hends
    have hstep : ∀ cancelled,
        t.step .remembering settings code cancelled = .finished code.size t := by
      intro cancelled
      rw [← harrived.position] at hstop
      rw [State.step_of_end (Array.getElem?_eq_none (Source.glyph?_eq_none_iff.mp hstop)),
        State.stop, harrived.frames]
    have hadvance : (Machine.over settings code).advance b.console t m.calls =
        (.halted ⟨.ok code.size, t⟩, m.calls) := by
      rw [advance_over, hstep]
      rfl
    refine Machine.evaluates_iff.mpr
      ⟨1 + k, _, _, (hk 1).trans (Machine.run_of_halts hadvance 0), ?_⟩
    rw [conclude_of_ok rfl, Halt.outcome, ← ht]
    rfl

/-- What the interpreter evaluates to, the tree does: the run has come from a big step. -/
theorem tree_of_evaluates (h : Evaluates b settings code outcome calls)
    (hparses : code.Parses settings.maxDepth tree) :
    tree.Evaluates b settings code.size outcome calls := by
  obtain ⟨n, halt, log, hrun, -⟩ := Machine.evaluates_iff.mp h
  obtain ⟨stop, -, hreads⟩ := id hparses
  obtain ⟨r, m, hruns⟩ := exists_runs n (Ready.initial hreads) hrun
  obtain ⟨outcome', calls', h'⟩ := hruns.evaluates code.size
  obtain ⟨rfl, rfl⟩ := Machine.Evaluates.unique h (evaluates_of_tree h' hparses)
  exact h'

/-- The interpreter implements the semantics of the tree. A source without a defect reads as exactly
one program, and on every console and under every control an evaluation of the source ends exactly
if a big step of this program does, with the same result, tape and count of steps and the same
calls. -/
theorem evaluates_iff_tree (settings : Settings) (code : Source)
    (hdefect : code.defect? settings.maxDepth = none) :
    ∃ tree, code.Parses settings.maxDepth tree ∧
      (∀ tree', code.Parses settings.maxDepth tree' → tree' = tree) ∧
      ∀ b outcome calls, Evaluates b settings code outcome calls ↔
        tree.Evaluates b settings code.size outcome calls := by
  obtain ⟨tree, hparses⟩ := Source.defect?_eq_none_iff.mp hdefect
  exact ⟨tree, hparses, fun tree' hparses' => hparses'.unique hparses, fun b outcome calls =>
    ⟨fun h => tree_of_evaluates h hparses, fun h => evaluates_of_tree h hparses⟩⟩

/-- A loop in a loop, with a comment that holds a bracket. -/
theorem nested_loops_evaluate_as_tree :
    (Source.ofString ",[>+[-]# ]\n<,]").defect? defaultMaxDepth = none ∧
    ∃ tree, (Source.ofString ",[>+[-]# ]\n<,]").Parses defaultMaxDepth tree ∧
      (∀ tree', (Source.ofString ",[>+[-]# ]\n<,]").Parses defaultMaxDepth tree' → tree' = tree) ∧
      ∀ b outcome calls,
        Evaluates b {} (Source.ofString ",[>+[-]# ]\n<,]") outcome calls ↔
          tree.Evaluates b {} (Source.ofString ",[>+[-]# ]\n<,]").size outcome calls :=
  ⟨by decide, evaluates_iff_tree {} _ (by decide)⟩

end TapeInterpreter
