import MacroAsm.Assembly.Block
import MacroAsm.File.View
import MacroAsm.Loader.Query
import MacroAsm.Source.Statement

/-!
# Loaders

A loader turns a file into tokens. INCLUDE selects one by name, and may pass arguments to it in a query
after the name, as in `binary?offset=16`.
-/

namespace MacroAsm

/-- The ways to read a file. -/
inductive Loader where
  /-- The statements of a program. -/
  | program
  /-- The bytes of the file, or a range of them. -/
  | binary
deriving DecidableEq, Inhabited, Repr

namespace Loader

/-- The loaders by name, in order of the names. -/
def named : List (Text × Loader) := [("binary", .binary), ("json", .program)]

/-- The loader of an INCLUDE that names none. -/
def defaultName : Text := "json"

/-- The name and the query of the loader that an INCLUDE asks for. -/
def parseChoice? (choice : Text) : Option (Text × Query) :=
  if choice.isEmpty then some (defaultName, [])
  else
    match choice.cut 63 with
    | none => some (choice.trim.lower, [])
    | some (name, query) => (Query.parse? query).map fun q => (name.trim.lower, q)

/-- An argument that is a number and not negative. One that is missing or empty has a default. -/
def numberArgument (q : Query) (key : Text) (default : Int) : Except Cause Int :=
  let value := q.get key
  if value.isEmpty then .ok default
  else
    match value.announcedInt64? with
    | none => .error (.other ("invalid " ++ key ++ " " ++ value.quote))
    | some n =>
      if n < 0 then .error (.other (key ++ " must not be negative")) else .ok n.toInt

/-- The bytes of a file that the arguments select: all of them, or `length` many from an `offset`. -/
def selectBytes (q : Query) (content : Text) : Except Cause Text := do
  let size : Int := content.length
  let offset ← numberArgument q "offset" 0
  let length ← numberArgument q "length" (size - offset)
  if size < offset || length < 0 || size < offset + length then
    .error (.other ("range " ++ Text.ofInt offset ++ "+" ++ Text.ofInt length ++
      " is outside of the " ++ Text.ofInt size ++ " bytes of the file"))
  else return content.slice offset.toNat (offset + length).toNat

/-- The tokens of a file. -/
def load (l : Loader) (q : Query) (origin : Location) (content : Text) :
    Except Cause (List Token) :=
  match l with
  | .program =>
    match Source.parseProgram origin content with
    | .ok tokens => .ok tokens
    | .error e => .error (.other e.message)
  | .binary => do
    let bytes ← selectBytes q content
    return if bytes.isEmpty then [] else [.bytes origin bytes.bytes]

end Loader

namespace Files

/-- The first path of a list that leads to a file, if one does. -/
def findFirst (files : Files) : List Text → Except Cause (Option Text)
  | [] => .ok none
  | p :: rest => do if ← files.isFile p then return some p else findFirst files rest

/-- Finds an included file: next to the file that includes it, then in each directory of a list, and then
in the current directory. -/
def resolve (files : Files) (directories : List Text) (loc : Location) (path : Text) :
    Except Cause (Option Text) := do
  if Path.isAbsolute path then return if ← files.isFile path then some path else none
  else
    let beside := if loc.path.isEmpty then [] else [Path.join (Path.dir loc.path) path]
    let candidates := beside ++ directories.map (Path.join · path) ++ [path]
    return (← findFirst files candidates).map Path.clean

/-- The diagnostic of a file that cannot be included, for a cause. -/
def refusal (loc : Location) (text : Text) : Cause → Diagnostic
  | .unread path => { Diagnostic.fatal loc text with cause := some (.unread path) }
  | _ => .fatal loc text

/-- The tokens of the file that an INCLUDE names, after the dependency on it. They are located in the file,
which is included from the location of the INCLUDE. -/
def includer (files : Files) (directories : List Text) : Includer := fun loc path choice =>
  match Loader.parseChoice? choice with
  | none => .error (.fatal loc ("Cannot resolve loader: " ++ choice))
  | some (name, query) =>
    match Loader.named.lookup name with
    | none => .error (.fatal loc ("Cannot resolve loader: " ++ name))
    | some loader =>
      let missing := "Cannot find include file " ++ path
      match files.resolve directories loc path with
      | .error c => .error (refusal loc missing c)
      | .ok none => .error (.fatal loc missing)
      | .ok (some found) =>
        let origin := loc.included found name
        match files.read found >>= loader.load query origin with
        | .error c => .error (refusal loc ("Cannot load " ++ found ++ ": " ++ c.message) c)
        | .ok tokens => .ok (.dependency loc found :: tokens)

end Files

end MacroAsm
