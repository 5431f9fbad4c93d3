import MacroAsm.Diagnostic
import MacroAsm.File.Path

/-!
# Files

What a run sees of the files around it. A view may be incomplete: an entry that was not read yet is told
apart from one that does not exist, so that it can be read and the run be started again.
-/

namespace MacroAsm

/-- What a path leads to. -/
inductive Entry where
  /-- A file. -/
  | file (content : Text)
  /-- A directory. -/
  | directory
  /-- Nothing, for a reason. -/
  | absent (reason : Text)
  /-- What it leads to is not known yet. -/
  | unread
deriving DecidableEq, Inhabited, Repr

namespace Entry

/-- The reason of a path that does not exist. -/
def noEntry : Text := "no such file or directory"

/-- The reason of a path that leads through a file. -/
def notDirectory : Text := "not a directory"

/-- The reason of a path that no file can have. -/
def invalid : Text := "invalid argument"

end Entry

/-- What every path leads to. -/
abbrev Files := Text → Entry

namespace Files

/-- The content of a file. -/
def read (files : Files) (path : Text) : Except Cause Text :=
  match files path with
  | .file content => .ok content
  | .directory => .error (.other ("read " ++ path ++ ": is a directory"))
  | .absent reason => .error (.other ("open " ++ path ++ ": " ++ reason))
  | .unread => .error (.unread path)

/-- Whether a path leads to a file. -/
def isFile (files : Files) (path : Text) : Except Cause Bool :=
  match files path with
  | .file _ => .ok true
  | .unread => .error (.unread path)
  | _ => .ok false

/-- Checks that a file can be written under a path: over a file, or in a directory that exists. -/
def checkWritable (files : Files) (path : Text) : Except Cause PUnit :=
  let refuse (reason : Text) := .error (.other ("open " ++ path ++ ": " ++ reason))
  match files path with
  | .file _ => .ok ⟨⟩
  | .directory => refuse "is a directory"
  | .unread => .error (.unread path)
  | .absent reason =>
    if path.isEmpty || reason != Entry.noEntry then refuse reason
    else
      match files (Path.dir path) with
      | .directory => .ok ⟨⟩
      | .unread => .error (.unread (Path.dir path))
      | _ => refuse reason

end Files

end MacroAsm
