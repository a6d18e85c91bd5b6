import TapeInterpreter.Session
import TapeInterpreter.Proofs.Mirror

/-!
# Evaluations of a session are isolated

What an evaluation does to a buffer depends on its unread input alone, and what has been written
before stays in front. So a session does what a row of new sessions does, each of which takes over
nothing but the settings, the cancel flag and the unread input.
-/
namespace TapeInterpreter
set_option autoImplicit false

namespace Buffer

/-- The same buffer, on which `earlier` was written first. -/
def behind (earlier : Array UInt8) (b : Buffer) : Buffer :=
  { b with written := earlier ++ b.written }

/-- Since the buffer was `start`, input was taken from the front and output added at the back. -/
structure Continues (start b : Buffer) : Prop where
  unread : b.unread <:+ start.unread
  written : start.written.toList <+: b.written.toList

theorem Continues.refl (b : Buffer) : b.Continues b := ⟨List.suffix_refl _, List.prefix_refl _⟩

theorem Continues.trans {a b c : Buffer} (h : a.Continues b) (h' : b.Continues c) :
    a.Continues c :=
  ⟨h'.unread.trans h.unread, h.written.trans h'.written⟩

theorem Continues.pop {start b : Buffer} (h : start.Continues b) : start.Continues b.pop.2 := by
  unfold Buffer.pop
  split
  · exact h
  · rename_i byte rest hb
    have hsuffix := h.unread
    rw [hb] at hsuffix
    exact ⟨(List.suffix_cons byte rest).trans hsuffix, h.written⟩

theorem Continues.push {start b : Buffer} (h : start.Continues b) (byte : UInt8) :
    start.Continues (b.push byte) := by
  refine ⟨h.unread, h.written.trans ?_⟩
  simp only [Buffer.push, Array.toList_push]
  exact List.prefix_append _ _

/-- The operations of a buffer do not look at what has been written. -/
theorem console_behind (cancelled : Bool) (earlier : Array UInt8) :
    (console cancelled).Mirrored (.through (behind earlier)) (console cancelled) where
  read b := by
    obtain ⟨_ | ⟨byte, rest⟩, written⟩ := b <;> rfl
  write byte b := by
    simp only [console, behind, push, Array.append_push]
  flush _ := rfl
  cancelled _ := rfl

theorem console_continues (cancelled : Bool) (start : Buffer) :
    (console cancelled).Mirrored (.keeping start.Continues) (console cancelled) where
  read _ h := h.pop
  write byte _ h := h.push byte
  flush _ h := h
  cancelled _ h := h

end Buffer

namespace Session

/-- What a session is, its output put aside. -/
structure Setup where
  settings : Settings
  cancelled : Bool
  unread : List UInt8

def setup (s : Session) : Setup := ⟨s.settings, s.cancelled, s.buffer.unread⟩

/-- A session started anew on the unread input and set up in the same way. -/
def Setup.session (x : Setup) : Session :=
  { start x.settings.capacity x.unread with settings := x.settings, cancelled := x.cancelled }

/-- What each of `actions` comes to and writes on a session of its own, and what is left behind the
last one. Each of these sessions is started on the setup that the one before has left. -/
def Setup.performEach (x : Setup) (patience : Nat) :
    List Action → List (Option Outcome × List UInt8) × Setup
  | [] => ([], x)
  | action :: actions =>
    let (outcome, s) := x.session.perform patience action
    let (done, y) := s.setup.performEach patience actions
    ((outcome, s.buffer.written.toList) :: done, y)

/-- The same session, whose buffer was written to before. -/
def behind (earlier : Array UInt8) (s : Session) : Session :=
  { s with buffer := s.buffer.behind earlier }

theorem eq_behind (s : Session) : s = s.setup.session.behind s.buffer.written := by
  obtain ⟨settings, cancelled, unread, written⟩ := s
  simp only [behind, Setup.session, setup, start, Buffer.behind, Buffer.ofInput, Array.append_empty]

@[simp] theorem setup_behind (earlier : Array UInt8) (s : Session) :
    (s.behind earlier).setup = s.setup := rfl

theorem evaluate_behind (earlier : Array UInt8) (s : Session) (code : Source) (patience : Nat) :
    (s.behind earlier).evaluate code patience =
      ((s.evaluate code patience).1, (s.evaluate code patience).2.behind earlier) := by
  have h := (Buffer.console_behind s.cancelled earlier).evaluate s.settings code patience s.buffer
  simp only [evaluate, behind, StateT.run]
  rw [h]
  rfl

theorem perform_behind (earlier : Array UInt8) (s : Session) (patience : Nat) (action : Action) :
    (s.behind earlier).perform patience action =
      ((s.perform patience action).1, (s.perform patience action).2.behind earlier) := by
  cases action with
  | evaluate code => exact evaluate_behind earlier s code patience
  | setMaxDepth maxDepth => rfl
  | setControl control => rfl
  | setCancelled cancelled => rfl

/-- An action does the same on a new session, except that nothing stands in front of its output. -/
theorem perform_eq (s : Session) (patience : Nat) (action : Action) :
    s.perform patience action =
      ((s.setup.session.perform patience action).1,
        (s.setup.session.perform patience action).2.behind s.buffer.written) := by
  have h := perform_behind s.buffer.written s.setup.session patience action
  rw [← s.eq_behind] at h
  exact h

/-- No action puts back input or takes back output. -/
theorem perform_continues (s : Session) (patience : Nat) (action : Action) :
    s.buffer.Continues (s.perform patience action).2.buffer := by
  cases action with
  | evaluate code =>
    exact (Buffer.console_continues s.cancelled s.buffer).evaluate s.settings code patience
      s.buffer (.refl s.buffer)
  | setMaxDepth maxDepth => exact .refl s.buffer
  | setControl control => exact .refl s.buffer
  | setCancelled cancelled => exact .refl s.buffer

theorem perform_capacity (s : Session) (patience : Nat) (action : Action) :
    (s.perform patience action).2.settings.capacity = s.settings.capacity := by
  cases action <;> rfl

/-- A session does what a row of new sessions does. -/
theorem performAll_eq (s : Session) (patience : Nat) (actions : List Action) :
    (s.performAll patience actions).1 = (s.setup.performEach patience actions).1.map Prod.fst ∧
      (s.performAll patience actions).2.buffer.written.toList =
        s.buffer.written.toList ++ (s.setup.performEach patience actions).1.flatMap Prod.snd ∧
      (s.performAll patience actions).2.setup = (s.setup.performEach patience actions).2 := by
  induction actions generalizing s with
  | nil => exact ⟨rfl, (List.append_nil _).symm, rfl⟩
  | cons action actions ih =>
    have hperform := s.perform_eq patience action
    simp only [performAll, Setup.performEach]
    rw [hperform]
    obtain ⟨houtcomes, hwritten, hsetup⟩ :=
      ih ((s.setup.session.perform patience action).2.behind s.buffer.written)
    rw [setup_behind] at houtcomes hwritten hsetup
    refine ⟨congrArg _ houtcomes, ?_, hsetup⟩
    rw [hwritten, List.flatMap_cons, ← List.append_assoc]
    simp only [behind, Buffer.behind, Array.toList_append]

theorem performAll_continues (s : Session) (patience : Nat) (actions : List Action) :
    s.buffer.Continues (s.performAll patience actions).2.buffer := by
  induction actions generalizing s with
  | nil => exact .refl s.buffer
  | cons action actions ih =>
    exact (s.perform_continues patience action).trans (ih (s.perform patience action).2)

theorem performAll_capacity (s : Session) (patience : Nat) (actions : List Action) :
    (s.performAll patience actions).2.settings.capacity = s.settings.capacity := by
  induction actions generalizing s with
  | nil => rfl
  | cons action actions ih =>
    exact (ih (s.perform patience action).2).trans (s.perform_capacity patience action)

/-- A session leaks nothing from one evaluation to the next. Every action comes to what it comes to
on a new session with the settings, the flag and the unread input that are current there, also
behind a failed evaluation. What has been written is the output of these sessions, in order. What is
unread is an end of the first input. Evaluations change neither the settings nor the flag, and no
action changes the capacity. -/
theorem session_is_a_row_of_new_sessions (s : Session) (patience : Nat) (actions : List Action) :
    (s.performAll patience actions).1 = (s.setup.performEach patience actions).1.map Prod.fst ∧
    (s.performAll patience actions).2.buffer.written.toList =
      s.buffer.written.toList ++ (s.setup.performEach patience actions).1.flatMap Prod.snd ∧
    (s.performAll patience actions).2.setup = (s.setup.performEach patience actions).2 ∧
    (s.performAll patience actions).2.buffer.unread <:+ s.buffer.unread ∧
    (s.performAll patience actions).2.settings.capacity = s.settings.capacity ∧
    ∀ code, (s.evaluate code patience).2.settings = s.settings ∧
      (s.evaluate code patience).2.cancelled = s.cancelled := by
  obtain ⟨houtcomes, hwritten, hsetup⟩ := s.performAll_eq patience actions
  exact ⟨houtcomes, hwritten, hsetup, (s.performAll_continues patience actions).unread,
    s.performAll_capacity patience actions, fun _ => ⟨rfl, rfl⟩⟩

end Session

end TapeInterpreter
