import TapeInterpreter.Host.FileTree

/-!
A host kept in memory. Its clock advances when it is looked at, at a fixed pace, so what a program
does on it is a function of what the host holds at the start.
-/
namespace TapeInterpreter
set_option autoImplicit false

structure MemoryHost where
  files : FileTree := .empty
  environment : List (String × String) := []
  stdin : List UInt8 := []
  stdout : ByteArray := .empty
  stderr : String := ""
  /-- How often the clock has been looked at. -/
  looks : Nat := 0
  /-- Looks per millisecond. -/
  pace : Nat := 1

namespace MemoryHost

@[inline] def read : StateM MemoryHost (Except Fault (Option UInt8)) := fun h =>
  match h.stdin with
  | [] => (.ok none, h)
  | byte :: rest => (.ok (some byte), { h with stdin := rest })

@[inline] def write (byte : UInt8) : StateM MemoryHost (Except Fault Nat) := fun h =>
  (.ok 1, { h with stdout := h.stdout.push byte })

/-- Streams that never fail. What is accepted comes out when the program ends at the latest. -/
@[inline] def streams : Streams (StateM MemoryHost) where
  read := read
  write := write
  flush := fun h => (.ok (), h)

@[inline] def expired (ms : Nat) : StateM MemoryHost Bool := fun h =>
  (ms * h.pace ≤ h.looks, { h with looks := h.looks + 1 })

@[inline] def host : Host (StateM MemoryHost) where
  streams := streams
  environment := fun name h => (h.environment.lookup name, h)
  load := fun path h => (h.files.load path, h)
  print := fun line h => ((), { h with stdout := h.stdout ++ (line ++ "\n").toUTF8 })
  complain := fun line h => ((), { h with stderr := h.stderr ++ line ++ "\n" })
  expired := expired
  interrupted := fun h => (false, h)

end MemoryHost

end TapeInterpreter
