import ArenaLisp.Text.Utf8

/-!
# Files

The files a run can name. A path is followed from the directory the program runs in:
empty parts and `.` stay where they are, and a path that ends in one of these names a
directory.
-/

namespace ArenaLisp

/-- Why a file could not be read. -/
inductive FileError where
  | missing
  | denied
  | directory
  | notDirectory
deriving DecidableEq

namespace FileError

/-- A directory can be opened, and only reading it fails. -/
def message (name : String) : FileError → String
  | .missing => "open " ++ name ++ ": no such file or directory"
  | .denied => "open " ++ name ++ ": permission denied"
  | .directory => "read " ++ name ++ ": is a directory"
  | .notDirectory => "open " ++ name ++ ": not a directory"

end FileError

/-- The files of a run: the contents of a file, or why it cannot be read. -/
abbrev Files := String → Except FileError Bytes

/-- The files of a directory and of those below it, with their paths. -/
abbrev Directory := List (String × Bytes)

namespace Directory

/-- The names along a path that lead somewhere else. -/
def steps (path : String) : List String :=
  (path.splitOn "/").filter fun part => !(part == "" || part == ".")

/-- Does a path insist on a directory? -/
def endsInDirectory (path : String) : Bool :=
  match (path.splitOn "/").getLast? with
  | some part => part == "" || part == "."
  | none => false

/-- The contents of a file of the directory. -/
def read (d : Directory) (path : String) : Except FileError Bytes :=
  let names := steps path
  if path == "" then .error .missing
  else if names.isEmpty then .error .directory
  else if path.startsWith "/" then .error .missing
  else
    match d.find? fun file => steps file.1 == names with
    | some (_, text) => if endsInDirectory path then .error .notDirectory else .ok text
    | none =>
      if d.any fun file => names.isPrefixOf (steps file.1) then .error .directory
      else if d.any fun file => (steps file.1).isPrefixOf names then .error .notDirectory
      else .error .missing

end Directory

end ArenaLisp
