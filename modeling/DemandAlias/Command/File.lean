/-!
# Files

Why a file cannot be read, and directories of which all files are known.

* `Directory.read`: the text of the file at a path.
-/

namespace DemandAlias.Command

/-- Why a file cannot be read. -/
inductive FileFault where
  /-- There is nothing at the path. -/
  | missing
  /-- Something on the path is no directory, but the path goes on. -/
  | notDirectory
  /-- The path leads to a directory. -/
  | isDirectory
  /-- The path, or a name on it, is too long. -/
  | nameTooLong
  | other (message : String)
  deriving DecidableEq, Inhabited

/-- The fault in words. -/
def FileFault.message : FileFault → String
  | .missing => "No such file or directory (os error 2)"
  | .notDirectory => "Not a directory (os error 20)"
  | .isDirectory => "Is a directory (os error 21)"
  | .nameTooLong => "File name too long (os error 36)"
  | .other message => message

/-- A directory, by the names and texts of the files in it. -/
structure Directory where
  files : List (String × String)
  deriving Inhabited

/-- Where a path leads to. -/
inductive Place where
  /-- The directory that is known. -/
  | inside
  /-- A directory above it, in which nothing else is known. -/
  | above
  /-- A file with this text. -/
  | file (text : String)
  deriving Inhabited

namespace Directory

/-- How many bytes a name may have. -/
def maxName : Nat := 255

/-- How many bytes a path may have. -/
def maxPath : Nat := 4095

/-- Where the next name of a path leads to. -/
def enter (d : Directory) : Place → String → Except FileFault Place
  | .file _, _ => .error .notDirectory
  | place, name =>
    if name = "" ∨ name = "." then .ok place
    else if name = ".." then .ok .above
    else if maxName < name.utf8ByteSize then .error .nameTooLong
    else match place, d.files.lookup name with
      | .inside, some text => .ok (.file text)
      | _, _ => .error .missing

/-- Where a path leads to. A path that begins with a slash begins above every directory. -/
def walk (d : Directory) (path : String) : Except FileFault Place :=
  if maxPath < path.utf8ByteSize then .error .nameTooLong
  else
    let names := path.splitOn "/"
    let place := if names.head? = some "" then .above else .inside
    names.foldlM d.enter place

/-- The text of the file at a path. -/
def read (d : Directory) (path : String) : Except FileFault String := do
  match ← d.walk path with
  | .file text => .ok text
  | _ => .error .isDirectory

end Directory

end DemandAlias.Command
