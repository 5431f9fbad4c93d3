import MacroAsm.Cli.Console
import MacroAsm.InstructionSet.Builtin
import MacroAsm.InstructionSet.Document

/-!
# Settings

What a configuration file and the file of an instruction set say. Relative paths in a configuration file are
relative to it.
-/

namespace MacroAsm

namespace Cli

/-- What a configuration file says. -/
structure Settings where
  /-- The file of the instruction set, empty for the built-in one. -/
  table : Text
  /-- The definitions, each with the text of its value. -/
  defines : List (Text × Text)
  /-- The directories in which included files are looked for. -/
  includePaths : List Text
  /-- Whether a warning fails the run. -/
  strict : Bool
deriving Inhabited

namespace Settings

/-- The settings without a configuration file. -/
def empty : Settings := ⟨Text.empty, [], [], false⟩

/-- The shape of a configuration file. -/
def shape : Toml.Shape :=
  .record [("table", .text), ("defines", .dictionary), ("include_paths", .list .text),
    ("werror", .flag)]

/-- A path of a configuration file in a directory. -/
def resolve (dir path : Text) : Text := if Path.isAbsolute path then path else Path.join dir path

/-- The settings of a configuration file, given the path of the file. -/
def ofDocument (decode : Toml.Decoder) (path content : Text) : Except Cause Settings :=
  match decode shape content with
  | none => .error (.other "toml: invalid document")
  | some d =>
    let dir := Path.dir path
    let table := (d.get "table").asText
    .ok ⟨if table.isEmpty then table else resolve dir table,
      (d.get "defines").fields.map fun (name, value) => (name, value.describe),
      (d.get "include_paths").asTexts.map (resolve dir),
      (d.get "werror").asFlag⟩

/-- The settings of the configuration file at a path, or those without one if the path is empty. -/
def read (env : Environment) (path : Text) : Except Cause Settings :=
  if path.isEmpty then .ok empty else do ofDocument env.decode path (← env.files.read path)

end Settings

/-- The instruction set of the file at a path, or the built-in one if the path is empty. -/
def readTable (env : Environment) (path : Text) : Except Cause InstructionSet :=
  if path.isEmpty then .ok (.s1c88 env.similarity)
  else do
    let content ← env.files.read path
    match InstructionSet.ofDocument env.decode env.similarity content with
    | .ok t => return t
    | .error text => .error (.other (path ++ ": " ++ text))

end Cli

end MacroAsm
