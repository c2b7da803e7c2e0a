/-!
# Files

What reading a file by its path gives: its text, or the reason why it cannot be read. A
`Disk` is a tree of files and directories in which paths are followed name by name, from the
root or from the current directory.
-/

namespace Kirchhoff

/-- Why a file cannot be read. -/
inductive FileError where
  | notFound
  /-- A file stands where the path needs a directory. -/
  | notDirectory
  /-- The path leads to a directory. -/
  | isDirectory
  | nameTooLong
  /-- The path holds the null character. -/
  | nullInName
  /-- The contents are no text. -/
  | notText
  | other (report : String)

/-- The report of a file error. -/
def FileError.message : FileError → String
  | .notFound => "No such file or directory (os error 2)"
  | .notDirectory => "Not a directory (os error 20)"
  | .isDirectory => "Is a directory (os error 21)"
  | .nameTooLong => "File name too long (os error 36)"
  | .nullInName => "file name contained an unexpected NUL byte"
  | .notText => "stream did not contain valid UTF-8"
  | .other report => report

/-- The contents of files. -/
abbrev Files := String → Except FileError String

/-! ### Trees of files -/

/-- A file, or a directory with its entries. -/
inductive FileTree where
  | file (text : String)
  | directory (entries : List (String × FileTree))

/-- A place in a tree: what stands there, and the directories above it, the nearest first. -/
structure FilePlace where
  here : FileTree
  above : List FileTree := []

namespace FilePlace

/-- The directory above a place. Above the root is the root. -/
def parent (p : FilePlace) : FilePlace :=
  match p.above with
  | [] => p
  | t :: ts => ⟨t, ts⟩

/-- The most bytes that a name may have. -/
def nameLimit : Nat := 255

/-- Follows one name of a path. Only a directory can be followed further; the empty name and
the dot stay in it, and two dots lead above it. -/
def follow (p : FilePlace) (name : String) : Except FileError FilePlace :=
  match p.here with
  | .file _ => .error .notDirectory
  | .directory entries =>
    if name = "" ∨ name = "." then .ok p
    else if name = ".." then .ok p.parent
    else if nameLimit < name.utf8ByteSize then .error .nameTooLong
    else
      match entries.lookup name with
      | some t => .ok ⟨t, p.here :: p.above⟩
      | none => .error .notFound

/-- Follows the names of a path. -/
def followAll (p : FilePlace) (names : List String) : Except FileError FilePlace :=
  names.foldlM follow p

end FilePlace

/-- A tree of files and the path of the current directory. -/
structure Disk where
  root : FileTree
  current : List String := []

namespace Disk

/-- The most bytes that a path may have. -/
def pathLimit : Nat := 4095

/-- The place that a path leads to. -/
def place (d : Disk) (path : String) : Except FileError FilePlace := do
  let root : FilePlace := { here := d.root }
  let start ← if path.startsWith "/" then .ok root else root.followAll d.current
  start.followAll (path.splitOn "/")

/-- The text of the file that a path leads to. -/
def read (d : Disk) : Files := fun path =>
  if path.toList.contains '\x00' then .error .nullInName
  else if path.isEmpty then .error .notFound
  else if pathLimit < path.utf8ByteSize then .error .nameTooLong
  else do
    match (← d.place path).here with
    | .file text => .ok text
    | .directory _ => .error .isDirectory

end Disk

end Kirchhoff
