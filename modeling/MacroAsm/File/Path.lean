import MacroAsm.Text.Basic

/-!
# Paths

Paths with a slash between their components. A clean path has no empty component, no `.`, and no `..`
other than at its beginning.
-/

namespace MacroAsm

namespace Path

/-- The byte between components. -/
def slash : UInt8 := 47

/-- Whether a path starts at the root. -/
def isAbsolute (p : Text) : Bool := p.startsWith "/"

/-- The components of a path, empty ones included. -/
def components (p : Text) : List Text := p.splitOn slash

/-- Adds a component to the components of a clean path, the last one first. -/
def push (rooted : Bool) (stack : List Text) (c : Text) : List Text :=
  if c.isEmpty || c == "." then stack
  else if c == ".." then
    match stack with
    | [] => if rooted then [] else [c]
    | top :: below => if top == ".." then c :: stack else below
  else c :: stack

/-- The shortest path that names the same file, if no link is on the way. -/
def clean (p : Text) : Text :=
  let rooted := isAbsolute p
  let body := Text.join "/" ((components p).foldl (push rooted) []).reverse
  if rooted then "/" ++ body else if body.isEmpty then "." else body

/-- A path relative to a directory. An empty part is left out. -/
def join (dir p : Text) : Text :=
  if dir.isEmpty then if p.isEmpty then Text.empty else clean p else clean (dir ++ "/" ++ p)

/-- The directory of a path. -/
def dir (p : Text) : Text := clean (Text.join "/" ((components p).dropLast ++ [Text.empty]))

/-- Drops the components that two lists begin with in common. -/
def dropCommon : List Text → List Text → List Text × List Text
  | a :: as, b :: bs => if a == b then dropCommon as bs else (a :: as, b :: bs)
  | as, bs => (as, bs)

/-- The path from a directory to a file, if both start at the root. -/
def relative? (base target : Text) : Option Text :=
  if isAbsolute base && isAbsolute target then
    let parts (p : Text) := (components (clean p)).filter fun c => !c.isEmpty
    let (up, down) := dropCommon (parts base) (parts target)
    let steps := up.map (fun _ => (".." : Text)) ++ down
    some (if steps.isEmpty then "." else Text.join "/" steps)
  else none

end Path

end MacroAsm
