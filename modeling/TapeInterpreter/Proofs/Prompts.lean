import Mathlib.Data.List.Induction
import TapeInterpreter.Console.Terminal
import TapeInterpreter.Proofs.Mirror

/-!
# Prompts are visible before input is awaited

Standard output takes bytes in and puts them out later, at a flush that succeeds or when it likes
to, and any write or flush may fail. A terminal on such a stream keeps one flag. It says just
whether a byte has been accepted since output was last flushed, and while that is not so nothing is
held back.
-/
namespace TapeInterpreter.Terminal
set_option autoImplicit false

/-- What goes on at the standard streams. -/
inductive Event where
  /-- Input was awaited, and this is what came. -/
  | awaited (reply : Except Fault (Option UInt8))
  /-- A byte was offered. The reply counts the bytes accepted. -/
  | offered (byte : UInt8) (reply : Except Fault Nat)
  | flushed (reply : Except Fault Unit)
  /-- The stream put out so many of the bytes it held, or all if it held fewer. -/
  | drained (n : Nat)

/-- The byte that was accepted, if one was. -/
def Event.accepted? : Event → Option UInt8
  | .offered byte (.ok (_ + 1)) => some byte
  | _ => none

/-- The bytes that were accepted, in order. -/
def accepted (events : List Event) : List UInt8 := events.filterMap Event.accepted?

/-- The accepted bytes: those that are held back, and those that have come out. -/
structure Output where
  held : List UInt8
  delivered : List UInt8

def Output.observe (o : Output) : Event → Output
  | .offered byte (.ok (_ + 1)) => { o with held := o.held ++ [byte] }
  | .flushed (.ok ()) => ⟨[], o.delivered ++ o.held⟩
  | .drained n => ⟨o.held.drop n, o.delivered ++ o.held.take n⟩
  | _ => o

/-- Where the accepted bytes are behind these events. -/
def output (events : List Event) : Output := events.foldl Output.observe ⟨[], []⟩

/-- Whether a flush is due behind `event`, if it was so before or not. -/
def Event.due (before : Bool) : Event → Bool
  | .offered _ (.ok (_ + 1)) => true
  | .flushed (.ok ()) => false
  | _ => before

/-- Whether a byte has been accepted since output was last flushed. -/
def unflushed (events : List Event) : Bool := events.foldl Event.due false

/-- How the streams behave: what they reply, and how much of what it holds standard output puts out
by itself, behind the events so far. -/
structure Device where
  read : List Event → Except Fault (Option UInt8)
  write : List Event → UInt8 → Except Fault Nat
  flush : List Event → Except Fault Unit
  drain : List Event → Nat

namespace Device

/-- Something goes on, and then output may come out by itself. -/
def react (d : Device) (events : List Event) (event : Event) : List Event :=
  events ++ [event] ++ [.drained (d.drain (events ++ [event]))]

/-- The standard streams that behave so and keep a list of what goes on. -/
def streams (d : Device) : Streams (StateM (List Event)) where
  read := fun events => (d.read events, d.react events (.awaited (d.read events)))
  write := fun byte events =>
    (d.write events byte, d.react events (.offered byte (d.write events byte)))
  flush := fun events => (d.flush events, d.react events (.flushed (d.flush events)))

/-- The flag of a terminal and the events, behind any calls on a new terminal. -/
inductive Reached (d : Device) : Bool → List Event → Prop
  | new : Reached d false []
  | read {pending : Bool} {events : List Event} : Reached d pending events →
    Reached d (Terminal.read d.streams pending events).1.2 (Terminal.read d.streams pending events).2
  | write (byte : UInt8) {pending : Bool} {events : List Event} : Reached d pending events →
    Reached d (Terminal.write d.streams byte pending events).1.2
      (Terminal.write d.streams byte pending events).2
  | flush {pending : Bool} {events : List Event} : Reached d pending events →
    Reached d (Terminal.flush d.streams pending events).1.2
      (Terminal.flush d.streams pending events).2

/-- What a terminal promises, its flag being `pending` behind `events`. -/
structure KeepsPrompts (d : Device) (pending : Bool) (events : List Event) : Prop where
  /-- Whenever input was awaited, every byte accepted before had come out. -/
  visible : ∀ before reply after, events = before ++ .awaited reply :: after →
    (output before).delivered = accepted before
  /-- A read flushes first if a byte has been accepted since output was last flushed, and only
  then. -/
  flushesFirst : ∃ new, (Terminal.read d.streams pending events).2 = events ++ new ∧
    ((∃ reply more, new = .flushed reply :: more) ↔ unflushed events = true)
  /-- If that flush fails, no input is awaited, the error is returned, and a flush stays due until
  one succeeds. -/
  failedFlush : ∀ fault, unflushed events = true → d.flush events = .error fault →
    ∃ new, Terminal.read d.streams pending events = ((.error fault, pending), events ++ new) ∧
      (∀ reply, .awaited reply ∉ new) ∧
      ∀ more, .flushed (.ok ()) ∉ more → unflushed (events ++ new ++ more) = true
  /-- A write accepts its byte, or it fails and accepts nothing. -/
  writes : ∀ byte, ∃ reply pending' new,
    Terminal.write d.streams byte pending events = ((reply, pending'), events ++ new) ∧
      match d.write events byte with
      | .ok (_ + 1) => reply = .ok () ∧ accepted new = [byte]
      | .ok 0 => reply = .error refused ∧ accepted new = []
      | .error fault => reply = .error fault ∧ accepted new = []

end Device

/-- Evaluate sources one after another, each with its settings and its patience, whatever they come
to. -/
def evaluateEach {m : Type → Type} [Monad m] (console : Console m) :
    List (Settings × Source × Nat) → m Unit
  | [] => pure ()
  | (settings, code, patience) :: rest => do
    let _ ← evaluate console settings code patience
    evaluateEach console rest

variable {d : Device} {pending : Bool} {events more : List Event} {event : Event}

/-! ## The stream -/

theorem accepted_append (events more : List Event) :
    accepted (events ++ more) = accepted events ++ accepted more :=
  List.filterMap_append

theorem output_concat (events : List Event) (event : Event) :
    output (events ++ [event]) = (output events).observe event :=
  List.foldl_append

theorem unflushed_concat (events : List Event) (event : Event) :
    unflushed (events ++ [event]) = event.due (unflushed events) :=
  List.foldl_append

/-- No accepted byte is lost: it has come out, or it is held back. -/
theorem delivered_append_held (events : List Event) :
    (output events).delivered ++ (output events).held = accepted events := by
  induction events using List.reverseRecOn with
  | nil => rfl
  | append_singleton events event ih =>
    rw [output_concat, accepted_append, ← ih]
    rcases event with reply | ⟨byte, fault | _ | n⟩ | ⟨fault | _⟩ | n
    · exact (List.append_nil _).symm
    · exact (List.append_nil _).symm
    · exact (List.append_nil _).symm
    · exact (List.append_assoc ..).symm
    · exact (List.append_nil _).symm
    · rfl
    · simp only [Output.observe, List.append_assoc, List.take_append_drop]
      exact congrArg _ (List.append_nil _).symm

/-- While no flush is due, nothing is held back. -/
theorem held_eq_nil (h : unflushed events = false) : (output events).held = [] := by
  induction events using List.reverseRecOn with
  | nil => rfl
  | append_singleton events event ih =>
    rw [unflushed_concat] at h
    rw [output_concat]
    rcases event with reply | ⟨byte, fault | _ | n⟩ | ⟨fault | _⟩ | n
    · exact ih h
    · exact ih h
    · exact ih h
    · cases h
    · exact ih h
    · rfl
    · simp only [Output.observe, ih h, List.drop_nil]

theorem delivered_eq (h : unflushed events = false) :
    (output events).delivered = accepted events := by
  rw [← delivered_append_held, held_eq_nil h, List.append_nil]

/-- A flush stays due until one succeeds. -/
theorem unflushed_append (h : unflushed events = true) (hmore : .flushed (.ok ()) ∉ more) :
    unflushed (events ++ more) = true := by
  induction more using List.reverseRecOn with
  | nil => rwa [List.append_nil]
  | append_singleton more event ih =>
    rw [List.mem_append, not_or, List.mem_singleton] at hmore
    rw [← List.append_assoc, unflushed_concat, ih hmore.1]
    rcases event with reply | ⟨byte, fault | _ | n⟩ | ⟨fault | _⟩ | n
    · rfl
    · rfl
    · rfl
    · rfl
    · rfl
    · exact absurd rfl hmore.2
    · rfl

theorem unflushed_react (d : Device) (events : List Event) (event : Event) :
    unflushed (d.react events event) = event.due (unflushed events) := by
  rw [Device.react, unflushed_concat, unflushed_concat]
  rfl

/-! ## The terminal -/

/-- Whenever input was awaited, no flush was due. -/
def Prompted (events : List Event) : Prop :=
  ∀ before reply after, events = before ++ .awaited reply :: after → unflushed before = false

theorem Prompted.concat (h : Prompted events)
    (hevent : ∀ reply, event = .awaited reply → unflushed events = false) :
    Prompted (events ++ [event]) := by
  intro before reply after hsplit
  rcases List.eq_nil_or_concat after with rfl | ⟨rest, last, rfl⟩
  · obtain ⟨rfl, hlast⟩ := List.append_inj' hsplit rfl
    exact hevent reply (List.cons.inj hlast).1
  · rw [List.concat_eq_append, ← List.cons_append, ← List.append_assoc] at hsplit
    exact h before reply rest (List.append_inj' hsplit rfl).1

theorem Prompted.react (h : Prompted events)
    (hevent : ∀ reply, event = .awaited reply → unflushed events = false) (d : Device) :
    Prompted (d.react events event) :=
  (h.concat hevent).concat fun _ hreply => nomatch hreply

theorem read_of_settled (d : Device) (events : List Event) :
    Terminal.read d.streams false events =
      ((d.read events, false), d.react events (.awaited (d.read events))) := rfl

theorem flush_eq (d : Device) (pending : Bool) (events : List Event) :
    Terminal.flush d.streams pending events =
      ((d.flush events, match d.flush events with | .ok () => false | .error _ => pending),
        d.react events (.flushed (d.flush events))) := by
  simp only [Terminal.flush, bind, StateT.bind, Device.streams]
  cases d.flush events <;> rfl

theorem read_of_flushed (h : d.flush events = .ok ()) :
    Terminal.read d.streams true events =
      ((d.read (d.react events (.flushed (.ok ()))), false),
        d.react (d.react events (.flushed (.ok ())))
          (.awaited (d.read (d.react events (.flushed (.ok ())))))) := by
  simp only [Terminal.read, if_true, bind, StateT.bind, flush_eq, h]
  rfl

theorem read_of_unflushed {fault : Fault} (h : d.flush events = .error fault) :
    Terminal.read d.streams true events =
      ((.error fault, true), d.react events (.flushed (.error fault))) := by
  simp only [Terminal.read, if_true, bind, StateT.bind, flush_eq, h]
  rfl

theorem write_eq (d : Device) (byte : UInt8) (pending : Bool) (events : List Event) :
    Terminal.write d.streams byte pending events =
      (match d.write events byte with
        | .error fault => (.error fault, pending)
        | .ok 0 => (.error refused, pending)
        | .ok (_ + 1) => (.ok (), true),
        d.react events (.offered byte (d.write events byte))) := by
  simp only [Terminal.write, bind, StateT.bind, Device.streams]
  rcases d.write events byte with fault | _ | n <;> rfl

/-- The flag says whether a flush is due, and input was awaited only when none was. -/
structure Sound (pending : Bool) (events : List Event) : Prop where
  flag : pending = unflushed events
  prompted : Prompted events

theorem Sound.read (h : Sound pending events) (d : Device) :
    Sound (Terminal.read d.streams pending events).1.2
      (Terminal.read d.streams pending events).2 := by
  cases hpending : pending with
  | false =>
    have hsettled : unflushed events = false := h.flag.symm.trans hpending
    rw [read_of_settled]
    exact ⟨by rw [unflushed_react]; exact hsettled.symm, h.prompted.react (fun _ _ => hsettled) d⟩
  | true =>
    have hdue : unflushed events = true := h.flag.symm.trans hpending
    have hflushed : ∀ reply, Prompted (d.react events (.flushed reply)) := fun _ =>
      h.prompted.react (fun _ hawaited => by cases hawaited) d
    cases hflush : d.flush events with
    | error fault =>
      rw [read_of_unflushed hflush]
      exact ⟨by rw [unflushed_react]; exact hdue.symm, hflushed _⟩
    | ok u =>
      have hsettled : unflushed (d.react events (.flushed (.ok ()))) = false := by
        rw [unflushed_react]
        rfl
      rw [read_of_flushed hflush]
      exact ⟨by rw [unflushed_react]; exact hsettled.symm,
        (hflushed _).react (fun _ _ => hsettled) d⟩

theorem Sound.write (h : Sound pending events) (d : Device) (byte : UInt8) :
    Sound (Terminal.write d.streams byte pending events).1.2
      (Terminal.write d.streams byte pending events).2 := by
  have hprompted : Prompted (d.react events (.offered byte (d.write events byte))) :=
    h.prompted.react (fun _ hawaited => by cases hawaited) d
  rw [write_eq]
  refine ⟨?_, hprompted⟩
  rw [unflushed_react]
  rcases d.write events byte with fault | _ | n
  · exact h.flag
  · exact h.flag
  · rfl

theorem Sound.flush (h : Sound pending events) (d : Device) :
    Sound (Terminal.flush d.streams pending events).1.2
      (Terminal.flush d.streams pending events).2 := by
  have hprompted : Prompted (d.react events (.flushed (d.flush events))) :=
    h.prompted.react (fun _ hawaited => by cases hawaited) d
  rw [flush_eq]
  refine ⟨?_, hprompted⟩
  rw [unflushed_react]
  rcases d.flush events with fault | _
  · exact h.flag
  · rfl

theorem Device.Reached.sound (h : d.Reached pending events) : Sound pending events := by
  induction h with
  | new => exact ⟨rfl, fun before reply after hsplit => absurd hsplit (by simp)⟩
  | read _ ih => exact ih.read d
  | write byte _ ih => exact ih.write d byte
  | flush _ ih => exact ih.flush d

theorem react_eq (d : Device) (events : List Event) (event : Event) :
    d.react events event = events ++ [event, .drained (d.drain (events ++ [event]))] :=
  List.append_assoc ..

theorem Sound.keepsPrompts (h : Sound pending events) (d : Device) :
    d.KeepsPrompts pending events where
  visible before reply after hsplit := delivered_eq (h.prompted before reply after hsplit)
  flushesFirst := by
    rw [← h.flag]
    cases pending with
    | false =>
      rw [read_of_settled]
      refine ⟨_, react_eq .., iff_of_false ?_ Bool.false_ne_true⟩
      rintro ⟨reply, more, hnew⟩
      cases hnew
    | true =>
      cases hflush : d.flush events with
      | error fault =>
        rw [read_of_unflushed hflush]
        exact ⟨_, react_eq .., iff_of_true ⟨_, _, rfl⟩ rfl⟩
      | ok u =>
        rw [read_of_flushed hflush, react_eq d _ (.awaited _), react_eq d events, List.append_assoc]
        exact ⟨_, rfl, iff_of_true ⟨_, _, rfl⟩ rfl⟩
  failedFlush fault hdue hflush := by
    have hpending : pending = true := h.flag.trans hdue
    subst hpending
    rw [read_of_unflushed hflush, react_eq]
    refine ⟨_, rfl, fun reply hawaited => ?_, fun more hmore => unflushed_append ?_ hmore⟩
    · simp at hawaited
    · rw [← react_eq, unflushed_react]
      exact hdue
  writes byte := by
    rw [write_eq, react_eq]
    rcases d.write events byte with fault | _ | n
    · exact ⟨_, _, _, rfl, rfl, rfl⟩
    · exact ⟨_, _, _, rfl, rfl, rfl⟩
    · exact ⟨_, _, _, rfl, rfl, rfl⟩

/-! ## Evaluations -/

/-- Computations on a terminal that get only to where calls on it get. -/
def Device.reaching (d : Device) :
    Mirror (StateT Bool (StateM (List Event))) (StateT Bool (StateM (List Event))) where
  Rel x _ := ∀ pending events, d.Reached pending events →
    d.Reached (x pending events).1.2 (x pending events).2
  pure _ _ _ h := h
  bind hx hg pending events h := hg _ _ _ (hx pending events h)

theorem console_reaching (d : Device) (cancelled : List Event → Bool) :
    (console d.streams fun events => (cancelled events, events)).Mirrored d.reaching
      (console d.streams fun events => (cancelled events, events)) where
  read _ _ h := h.read
  write byte _ _ h := h.write byte
  flush _ _ h := h.flush
  cancelled _ _ h := h

theorem evaluateEach_reaching (d : Device) (cancelled : List Event → Bool)
    (series : List (Settings × Source × Nat)) :
    d.reaching.Rel
      (evaluateEach (console d.streams fun events => (cancelled events, events)) series)
      (evaluateEach (console d.streams fun events => (cancelled events, events)) series) := by
  induction series with
  | nil => exact d.reaching.pure ()
  | cons next rest ih =>
    obtain ⟨settings, code, patience⟩ := next
    exact d.reaching.bind ((console_reaching d cancelled).evaluate settings code patience)
      fun _ => ih

/-- Prompts are visible before input is awaited, however the streams behave. Behind any calls on a
new terminal, every byte accepted before input was awaited had come out by then. A read that finds a
byte accepted since output was last flushed flushes first. If that fails, it awaits no input and
returns the error, and the next one flushes first again, unless a flush has succeeded between them.
A write that fails or accepts nothing is an error and leaves no byte behind. Evaluations on the
terminal, one after another and whatever they come to, get only to where such calls get. -/
theorem prompts_are_visible_before_input (d : Device) :
    (∀ pending events, d.Reached pending events → d.KeepsPrompts pending events) ∧
    ∀ (cancelled : List Event → Bool) (series : List (Settings × Source × Nat)),
      let reached :=
        evaluateEach (console d.streams fun events => (cancelled events, events)) series false []
      d.Reached reached.1.2 reached.2 :=
  ⟨fun _ _ h => h.sound.keepsPrompts d,
    fun cancelled series => evaluateEach_reaching d cancelled series false [] .new⟩

end TapeInterpreter.Terminal
