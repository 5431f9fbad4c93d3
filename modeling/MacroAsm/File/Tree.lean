import MacroAsm.File.View

/-!
# File trees

Files in memory, below a current directory. The directories are those that the paths of the files pass
through.
-/

namespace MacroAsm

/-- Files by the components of their paths. -/
structure FileTree where
  /-- The files. -/
  files : List (List Text × Text)
deriving Inhabited

namespace FileTree

/-- The tree of files under relative paths. -/
def ofPaths (files : List (Text × Text)) : FileTree :=
  ⟨files.map fun (p, content) => (Path.components (Path.clean p), content)⟩

/-- Whether a file lies below a directory. -/
def hasDirectory (t : FileTree) (dir : List Text) : Bool :=
  t.files.any fun (p, _) => dir.isPrefixOf p && dir.length < p.length

/-- Follows the components of a path from a directory, which is given by its components. -/
def walk (t : FileTree) : List Text → List Text → Entry
  | _, [] => .directory
  | here, c :: rest =>
    if c.isEmpty || c == "." then walk t here rest
    else if c == ".." then
      if here.isEmpty then .absent Entry.noEntry else walk t here.dropLast rest
    else
      let there := here ++ [c]
      match t.files.lookup there with
      | some content => if rest.isEmpty then .file content else .absent Entry.notDirectory
      | none => if t.hasDirectory there then walk t there rest else .absent Entry.noEntry

/-- What a path leads to from the current directory. Nothing outside of it is known. -/
def view (t : FileTree) : Files := fun path =>
  if path.isEmpty || Path.isAbsolute path then .absent Entry.noEntry
  else if path.bytes.contains 0 then .absent Entry.invalid
  else walk t [] (Path.components path)

/-- The tree with a file written. -/
def write (t : FileTree) (path content : Text) : FileTree :=
  let there := Path.components (Path.clean path)
  ⟨(there, content) :: t.files.filter fun (p, _) => p != there⟩

end FileTree

end MacroAsm
