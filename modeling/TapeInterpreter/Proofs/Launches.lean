import TapeInterpreter.Host.Memory
import TapeInterpreter.Proofs.InTurn

/-!
# What a launch shows

On a host whose output goes through, a launch without a timeout that nobody interrupts shows just
what its expressions come to in turn: the exit code, the bytes on standard output and the report on
standard error are functions of that.
-/
namespace TapeInterpreter
set_option autoImplicit false

section Orderly

variable {σ : Type} {feed : σ → Feed} {stderr : σ → String} {host : Host (StateM σ)} {w : σ}

/-- What is seen of a host, its standard input and output as a feed and its standard error as a
text, changes as it should: output goes through, nobody interrupts, and looking at variables and
files changes nothing. -/
structure Host.Orderly (host : Host (StateM σ)) (feed : σ → Feed) (stderr : σ → String) :
    Prop where
  environment : ∀ name w, (host.environment name w).2 = w
  load : ∀ path w, (host.load path w).2 = w
  interrupted : ∀ w, host.interrupted w = (false, w)
  read : ∀ w, ∃ v, host.streams.read w = ((feed w).next.1, v) ∧ feed v = (feed w).next.2 ∧
    stderr v = stderr w
  write : ∀ byte w, ∃ accepted v, host.streams.write byte w = (.ok (accepted + 1), v) ∧
    feed v = (feed w).put byte ∧ stderr v = stderr w
  flush : ∀ w, ∃ v, host.streams.flush w = (.ok (), v) ∧ feed v = feed w ∧ stderr v = stderr w
  complain : ∀ line w, ∃ v, host.complain line w = ((), v) ∧ feed v = feed w ∧
    stderr v = stderr w ++ (line ++ "\n")

/-! ## Variables and files -/

/-- Computations that leave the world `w` as it is. -/
def Mirror.unchanged (w : σ) : Mirror (StateM σ) (StateM σ) := .keeping (· = w)

theorem Host.Orderly.loadText (h : host.Orderly feed stderr) (path : String) :
    (Mirror.unchanged w).Rel (host.loadText path) (host.loadText path) :=
  (Mirror.unchanged w).bind (fun v hv => (h.load path v).trans hv) fun _ =>
    (Mirror.unchanged w).pure _

theorem Host.Orderly.resolveOn (h : host.Orderly feed stderr) (flags : Limits) :
    (Mirror.unchanged w).Rel (Limits.resolveOn host flags) (Limits.resolveOn host flags) := by
  have henvironment : ∀ name,
      (Mirror.unchanged w).Rel (host.environment name) (host.environment name) :=
    fun name v hv => (h.environment name v).trans hv
  have hconfig : (Mirror.unchanged w).Rel (Limits.configText? host) (Limits.configText? host) := by
    refine (Mirror.unchanged w).bind (henvironment _) fun configHome => ?_
    refine (Mirror.unchanged w).bind (henvironment _) fun home => ?_
    cases Limits.configPath? configHome home with
    | none => exact (Mirror.unchanged w).pure _
    | some path =>
      exact (Mirror.unchanged w).bind (h.loadText path) fun _ => (Mirror.unchanged w).pure _
  refine (Mirror.unchanged w).bind hconfig fun config => ?_
  refine (Mirror.unchanged w).bind (henvironment _) fun maxSteps => ?_
  exact (Mirror.unchanged w).bind (henvironment _) fun timeoutMs => (Mirror.unchanged w).pure _

/-! ## The terminal -/

/-- The computation on a terminal does to the feed of `w` what the other one does to that feed,
whether output is pending or not, and leaves standard error as it is. -/
def Mirror.terminal (feed : σ → Feed) (stderr : σ → String) :
    Mirror (StateT Bool (StateM σ)) (StateM Feed) where
  Rel x y := ∀ pending w, ∃ a pending' v, x pending w = ((a, pending'), v) ∧
    y (feed w) = (a, feed v) ∧ stderr v = stderr w
  pure a pending w := ⟨a, pending, w, rfl, rfl, rfl⟩
  bind {α β x y f g} hx hf pending w := by
    obtain ⟨a, pending', u, hxa, hya, hu⟩ := hx pending w
    obtain ⟨b, pending'', v, hxb, hyb, hv⟩ := hf a pending' u
    refine ⟨b, pending'', v, ?_, ?_, hv.trans hu⟩
    · simp only [Bind.bind, StateT.bind, hxa]
      exact hxb
    · simp only [Bind.bind, StateT.bind, hya]
      exact hyb

/-- The operations of a terminal are those of a feed: it may flush first, and nobody sees that. -/
theorem Host.Orderly.console_mirrored (h : host.Orderly feed stderr) :
    (Terminal.console host.streams (Launcher.stopping host none)).Mirrored
      (.terminal feed stderr) Feed.console where
  read pending w := by
    cases pending with
    | false =>
      obtain ⟨v, hread, hfeed, hstderr⟩ := h.read w
      refine ⟨(feed w).next.1, false, v, ?_, ?_, hstderr⟩
      · simp only [Terminal.console, Terminal.read, Bool.false_eq_true, if_false, bind, StateT.bind,
          hread]
        rfl
      · rw [hfeed]
        rfl
    | true =>
      obtain ⟨u, hflush, hfeed, hstderr⟩ := h.flush w
      obtain ⟨v, hread, hfeed', hstderr'⟩ := h.read u
      have hflushed : Terminal.flush host.streams true w = ((.ok (), false), u) := by
        simp only [Terminal.flush, bind, StateT.bind, hflush]
        rfl
      refine ⟨(feed u).next.1, false, v, ?_, ?_, hstderr'.trans hstderr⟩
      · simp only [Terminal.console, Terminal.read, if_true, bind, StateT.bind, hflushed, hread]
        rfl
      · rw [hfeed', hfeed]
        rfl
  write byte pending w := by
    obtain ⟨accepted, v, hwrite, hfeed, hstderr⟩ := h.write byte w
    refine ⟨.ok (), true, v, ?_, ?_, hstderr⟩
    · simp only [Terminal.console, Terminal.write, bind, StateT.bind, hwrite]
      rfl
    · rw [hfeed]
      rfl
  flush pending w := by
    obtain ⟨v, hflush, hfeed, hstderr⟩ := h.flush w
    refine ⟨.ok (), false, v, ?_, ?_, hstderr⟩
    · simp only [Terminal.console, Terminal.flush, bind, StateT.bind, hflush]
      rfl
    · rw [hfeed]
      rfl
  cancelled pending w := by
    refine ⟨false, pending, w, ?_, rfl, rfl⟩
    simp only [Terminal.console, Launcher.stopping, bind, StateT.bind, h.interrupted]
    rfl

namespace Launcher

/-! ## The report -/

def exitCode : Except FailedExpression Unit → UInt32
  | .ok () => 0
  | .error _ => 1

/-- What is told of a verdict on standard error: nothing, or the error and, if it is about a
character, the place of that in the expression that failed. -/
def report (program : String) : Except FailedExpression Unit → String
  | .ok () => ""
  | .error failed =>
    program ++ ": error: " ++ failed.error.message ++ "\n" ++
      match failed.error.position? with
      | none => ""
      | some position =>
        let (window, caret) := Diagnostic.context (Source.ofString failed.expression) position
        "  " ++ window ++ "\n" ++ "  " ++ caret ++ "\n"

/-- Lines that are complained of stand on standard error one behind the other. -/
theorem complain_all (h : host.Orderly feed stderr) (lines : List String) (w : σ) :
    ∃ v, lines.forM host.complain w = ((), v) ∧ feed v = feed w ∧
      stderr v = lines.foldl (fun text line => text ++ (line ++ "\n")) (stderr w) := by
  induction lines generalizing w with
  | nil => exact ⟨w, rfl, rfl, rfl⟩
  | cons line lines ih =>
    obtain ⟨u, hline, hfeed, hstderr⟩ := h.complain line w
    obtain ⟨v, hlines, hfeed', hstderr'⟩ := ih u
    refine ⟨v, ?_, hfeed'.trans hfeed, ?_⟩
    · simp only [List.forM, bind, StateT.bind, hline]
      exact hlines
    · rw [hstderr', hstderr]
      rfl

theorem foldl_failureLines (program expression : String) (error : EvalError) (text : String) :
    (failureLines program expression error).foldl (fun text line => text ++ (line ++ "\n")) text =
      text ++ report program (.error ⟨expression, error⟩) := by
  simp only [failureLines, errorLine, report]
  cases error.position? with
  | none => simp only [List.foldl_cons, List.foldl_nil, String.append_empty]
  | some position => simp only [List.foldl_cons, List.foldl_nil, String.append_assoc]

/-! ## The run -/

/-- On an orderly host the expressions come to what they come to on its feed. -/
theorem evaluateOn_eq (h : host.Orderly feed stderr) {limits : Limits}
    (htimeout : limits.timeoutMs = none) (expressions : List String) (patience : Nat) (w : σ) :
    ∃ verdict v, evaluateOn host limits expressions patience w = (verdict, v) ∧
      evaluateAll Feed.console { control := some ⟨limits.maxSteps⟩ } patience expressions (feed w) =
        (verdict, feed v) ∧ stderr v = stderr w := by
  obtain ⟨verdict, pending, v, hall, hfeed, hstderr⟩ :=
    h.console_mirrored.evaluateAll { control := some ⟨limits.maxSteps⟩ } patience expressions
      false w
  refine ⟨verdict, v, ?_, hfeed, hstderr⟩
  simp only [evaluateOn, htimeout, bind, StateT.bind]
  rw [hall]
  rfl

/-- The exit code and the report are functions of the verdict, told with the text of the expression
that failed. -/
theorem runAll_eq (h : host.Orderly feed stderr) (program : String) {flags limits : Limits}
    (hlimits : (Limits.resolveOn host flags w).1 = limits) (htimeout : limits.timeoutMs = none)
    (expressions : List String) (patience : Nat) :
    ∃ verdict v,
      runAll host program flags expressions patience w =
        (verdict.map fun reached => exitCode (told reached), v) ∧
      evaluateAll Feed.console { control := some ⟨limits.maxSteps⟩ } patience expressions (feed w) =
        (verdict, feed v) ∧
      stderr v = stderr w ++
        (verdict.map fun reached => report program (told reached)).getD "" := by
  have hresolve : Limits.resolveOn host flags w = (limits, w) :=
    Prod.ext hlimits (h.resolveOn flags w rfl)
  obtain ⟨verdict, u, heval, hall, hstderr⟩ := evaluateOn_eq h htimeout expressions patience w
  simp only [runAll, bind, StateT.bind, hresolve, heval]
  rcases verdict with _ | failure | _
  · refine ⟨none, u, rfl, hall, ?_⟩
    rw [hstderr, Option.map_none, Option.getD_none, String.append_empty]
  · obtain ⟨own, hturn, -⟩ := inTurn_of_evaluateAll hall
    have herror : failure.error ≠ .cancelled := hturn.error_ne_cancelled
    obtain ⟨v, hcomplain, hfeed, hstderr'⟩ :=
      complain_all h (failureLines program (expressions.get failure.index) failure.error) u
    refine ⟨some (.error failure), v, ?_, hfeed ▸ hall, ?_⟩
    · cases he : failure.error with
      | cancelled => exact absurd he herror
      | _ =>
        simp only [StateT.bind, hcomplain]
        rfl
    · rw [hstderr', hstderr, foldl_failureLines]
      rfl
  · refine ⟨some (.ok ()), u, rfl, hall, ?_⟩
    rw [hstderr]
    exact String.append_empty.symm

/-- The expressions that the arguments give on `host`: all that stand on the command line, or else
the text that is in UTF-8 in the file that is named there. -/
def expressions? (host : Host (StateM σ)) (arguments : Arguments) (w : σ) : Option (List String) :=
  match arguments.file, arguments.expressions with
  | none, expressions => some expressions
  | some path, [] =>
    ((host.load path w).1.toOption.bind String.fromUTF8?).map fun text => [text]
  | some _, _ :: _ => none

theorem launch_eq_runAll (h : host.Orderly feed stderr) (program : String) {arguments : Arguments}
    (hhelp : arguments.help = false) {expressions : List String}
    (hgiven : expressions? host arguments w = some expressions) (patience : Nat) :
    launch host program arguments patience w =
      runAll host program ⟨arguments.maxSteps, arguments.timeoutMs⟩ expressions patience w := by
  obtain ⟨file, maxSteps, timeoutMs, given, help⟩ := arguments
  obtain rfl : help = false := hhelp
  simp only [launch, Bool.false_eq_true, if_false]
  cases file with
  | none =>
    cases hgiven
    rfl
  | some path =>
    cases given with
    | cons _ _ => cases hgiven
    | nil =>
      obtain ⟨text, htext, rfl⟩ := Option.map_eq_some_iff.mp hgiven
      obtain ⟨bytes, hbytes, hdecoded⟩ := Option.bind_eq_some_iff.mp htext
      have hreply : (host.load path w).1 = .ok text.toUTF8 := by
        rw [Host.toOption_eq_some_iff.mp hbytes, Text.fromUTF8?_eq_some_iff.mp hdecoded]
      have hload : host.loadText path w = (.ok text, w) :=
        Prod.ext (Host.textOf_eq_ok_iff.mpr hreply) (h.loadText path w rfl)
      simp only [bind, StateT.bind, hload]

/-- What a launch shows is what its expressions come to in turn. It ends if and only if they do,
with exit code 0 or 1 as none of them failed or one did. Their output has then been added to
standard output, that of the failed one too, what they have not read is left on standard input, and
the report on the failed one, and nothing else, has been added to standard error. -/
theorem launch_shows_expressions_in_turn (h : host.Orderly feed stderr) (program : String)
    {arguments : Arguments} (hhelp : arguments.help = false) {limits : Limits}
    (hlimits : (Limits.resolveOn host ⟨arguments.maxSteps, arguments.timeoutMs⟩ w).1 = limits)
    (htimeout : limits.timeoutMs = none) {expressions : List String}
    (hgiven : expressions? host arguments w = some expressions) (code : UInt32) (f : Feed)
    (text : String) :
    (∃ patience v, launch host program arguments patience w = (some code, v) ∧ feed v = f ∧
      stderr v = text) ↔
    ∃ verdict own,
      InTurn { control := some ⟨limits.maxSteps⟩ } expressions (feed w).replies verdict own ∧
      code = exitCode verdict ∧ f = own.behind (feed w).written ∧
      text = stderr w ++ report program verdict := by
  have hrun := fun patience => runAll_eq h program hlimits htimeout expressions patience
  simp only [launch_eq_runAll h program hhelp hgiven]
  constructor
  · rintro ⟨patience, v, hv, rfl, rfl⟩
    obtain ⟨verdict?, u, hu, hall, hstderr⟩ := hrun patience
    obtain ⟨hcode, rfl⟩ := Prod.mk.inj (hu.symm.trans hv)
    obtain ⟨reached, rfl, rfl⟩ := Option.map_eq_some_iff.mp hcode
    obtain ⟨own, hturn, hfeed⟩ := inTurn_of_evaluateAll hall
    exact ⟨told reached, own, hturn, rfl, hfeed, hstderr⟩
  · rintro ⟨verdict, own, hturn, rfl, rfl, rfl⟩
    obtain ⟨patience, reached, hall, rfl⟩ := evaluateAll_iff_inTurn.mpr ⟨own, hturn, rfl⟩
    obtain ⟨verdict?, v, hv, hall', hstderr⟩ := hrun patience
    obtain ⟨rfl, hfeed⟩ := Prod.mk.inj (hall'.symm.trans hall)
    exact ⟨patience, v, hv, hfeed, hstderr⟩

end Launcher

end Orderly

/-! ## A host in memory -/

namespace MemoryHost

def feed (h : MemoryHost) : Feed :=
  ⟨h.stdin.map fun byte => .ok (some byte), h.stdout.data.toList⟩

/-- A host in memory is orderly, whatever it holds at the start. -/
theorem orderly : host.Orderly feed MemoryHost.stderr where
  environment _ _ := rfl
  load _ _ := rfl
  interrupted _ := rfl
  read h := by
    obtain ⟨files, environment, _ | ⟨byte, rest⟩, stdout, stderr, looks, pace⟩ := h
    · exact ⟨_, rfl, rfl, rfl⟩
    · exact ⟨_, rfl, rfl, rfl⟩
  write byte h := by
    refine ⟨0, { h with stdout := h.stdout.push byte }, rfl, ?_, rfl⟩
    have hpush : (h.stdout.push byte).data.toList = h.stdout.data.toList ++ [byte] :=
      Array.toList_push
    simp only [feed, Feed.put, hpush]
  flush h := ⟨h, rfl, rfl, rfl⟩
  complain line h := ⟨_, rfl, rfl, String.append_assoc ..⟩

end MemoryHost

/-- The second of three expressions fails. What the first one wrote is there, and the third one is
not evaluated. -/
theorem Launcher.second_failure_is_reported :
    ∃ patience v,
      launch MemoryHost.host "tapebf" { expressions := ["+.", "@", "++."] } patience {} =
        (some 1, v) ∧ v.feed = ⟨[], [1]⟩ ∧
      v.stderr = "tapebf: error: unexpected character <@> at position 0\n  @\n  ^\n" := by
  refine (launch_shows_expressions_in_turn MemoryHost.orderly "tapebf" rfl rfl rfl rfl 1 _ _).mpr ?_
  have hrun : (evaluate Feed.console { control := some ⟨none⟩ } (.ofString "+.") 3 ⟨[], []⟩).1.map
        Outcome.result = some (.ok ()) ∧
      (evaluate Feed.console { control := some ⟨none⟩ } (.ofString "+.") 3 ⟨[], []⟩).2 =
        ⟨[], [1]⟩ := by decide +kernel
  obtain ⟨outcome, houtcome, hok⟩ := Option.map_eq_some_iff.mp hrun.1
  exact ⟨.error ⟨"@", .unexpectedCharacter '@' 0⟩, _,
    .passed ⟨3, Prod.ext houtcome hrun.2⟩ hok (.failed ⟨1, rfl⟩ rfl), rfl, rfl, by decide +kernel⟩

end TapeInterpreter
