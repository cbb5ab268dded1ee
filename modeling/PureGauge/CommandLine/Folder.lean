/-
**A folder of files.**

The command line reads one file and writes another.  Here they lie in a single folder without
further folders in it, so that a path leads to a file only if all of it but the name stands for the
folder itself.  Outside of the folder there is the null device: it is empty, and what is written to
it is lost.

Main definitions:

* `PureGauge.Folder`, with `PureGauge.Folder.look` and `PureGauge.Folder.write?`.
-/

namespace PureGauge

/-- Files by their names. -/
structure Folder where
  files : List (String × String)

/-- What a path leads to. -/
inductive Entry where
  | file (content : String)
  | folder
  | missing
deriving DecidableEq

namespace Folder

/-- Where a path leads: to a folder, to a file of this folder, to the null device, or nowhere. -/
inductive Place where
  | folder
  | file (name : String)
  | nullDevice
  | nowhere
deriving DecidableEq

/-- The longest name of a file, in bytes. -/
def nameLimit : Nat := 255

/-- The longest path, in bytes. -/
def pathLimit : Nat := 4095

/-- Where a path leads.  Its parts lie between slashes; an empty part or a dot stands for the folder
it is reached from, and two dots for the one above it. -/
def place (path : String) : Place :=
  let parts := path.splitOn "/"
  if path = "" ∨ pathLimit < path.utf8ByteSize then .nowhere
  else if parts.all fun p => p = "" ∨ p = "." ∨ p = ".." then .folder
  else
    match parts.getLast?, parts.dropLast with
    | some name, before =>
        if before.head? = some "" ∧ name = "null"
            ∧ (before.filter fun p => p ≠ "" ∧ p ≠ ".") = ["dev"] then .nullDevice
        else if before.head? = some "" ∨ name = "" ∨ name = "." ∨ name = ".."
            ∨ nameLimit < name.utf8ByteSize ∨ before.any fun p => p ≠ "" ∧ p ≠ "." then .nowhere
        else .file name
    | none, _ => .nowhere

/-- What a path leads to. -/
def look (f : Folder) (path : String) : Entry :=
  match place path with
  | .folder => .folder
  | .nowhere => .missing
  | .nullDevice => .file ""
  | .file name =>
      match f.files.lookup name with
      | some content => .file content
      | none => .missing

/-- The folder with a file written, in place of one that had its name. -/
def write? (f : Folder) (path content : String) : Option Folder :=
  match place path with
  | .file name => some ⟨(name, content) :: f.files.filter fun e => e.1 ≠ name⟩
  | .nullDevice => some f
  | _ => none

end Folder

end PureGauge
