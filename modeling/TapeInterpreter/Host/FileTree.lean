import TapeInterpreter.Host.Basic

/-!
Files and folders below a working folder, and how a path finds its way through them. What lies above
the working folder is there, but none of its entries is known.
-/
namespace TapeInterpreter
set_option autoImplicit false

inductive Entry where
  | file (content : ByteArray)
  | folder

/-- Entries by the names that lead to them. The folders on the way to an entry are there too. -/
structure FileTree where
  entries : List (List String × Entry)

namespace FileTree

/-- The most bytes of a name, and of a path with its end mark. -/
def maxNameBytes : Nat := 255
def maxPathBytes : Nat := 4096

def empty : FileTree := ⟨[]⟩

/-- Add `entry` at a path of plain names. -/
def add (tree : FileTree) (path : String) (entry : Entry) : FileTree :=
  ⟨(path.splitOn "/", entry) :: tree.entries⟩

/-- The entry that `names` lead to. -/
def entry? (tree : FileTree) (names : List String) : Option Entry :=
  if names.isEmpty then some .folder
  else match tree.entries.find? (fun e => e.1 = names) with
    | some (_, entry) => some entry
    | none =>
      if tree.entries.any (fun e => names.isPrefixOf e.1) then some .folder else none

/-- A place on the way along a path. -/
inductive Place where
  /-- Above the working folder. -/
  | above
  | at (names : List String) (entry : Entry)

/-- Go on from a place by one component of a path. -/
def walk (tree : FileTree) (place : Place) (component : String) : Except SystemError Place :=
  match place with
  | .at _ (.file _) => .error .notAFolder
  | .above =>
    if component = "" ∨ component = "." ∨ component = ".." then .ok .above
    else if maxNameBytes < component.utf8ByteSize then .error .nameTooLong
    else .error .noSuchFile
  | .at names .folder =>
    if component = "" ∨ component = "." then .ok place
    else if component = ".." then
      if names.isEmpty then .ok .above else .ok (.at names.dropLast .folder)
    else if maxNameBytes < component.utf8ByteSize then .error .nameTooLong
    else match tree.entry? (names ++ [component]) with
      | some entry => .ok (.at (names ++ [component]) entry)
      | none => .error .noSuchFile

/-- The place that `path` names. -/
def resolve (tree : FileTree) (path : String) : Except SystemError Place :=
  if path.isEmpty then .error .noSuchFile
  else if maxPathBytes ≤ path.utf8ByteSize then .error .nameTooLong
  else
    let start := if path.startsWith "/" then .above else .at [] .folder
    (path.splitOn "/").foldlM tree.walk start

/-- The content of the file that `path` names. -/
def load (tree : FileTree) (path : String) : Except SystemError ByteArray := do
  match ← tree.resolve path with
  | .at _ (.file content) => return content
  | .at _ .folder | .above => throw .isAFolder

end FileTree

end TapeInterpreter
