import MacroAsm.Cli.Console

/-!
# Flags

A command takes flags in front of its arguments. A flag has one hyphen or two, and its value follows an equals
sign or is the next argument; a switch takes a value only after an equals sign. Two hyphens alone end the flags.
-/

namespace MacroAsm

namespace Cli

/-- What a flag takes. -/
inductive FlagKind where
  /-- A truth value, true if it is left out. -/
  | switch
  /-- A text, under a noun that usage texts show. -/
  | value (noun : Text)
deriving DecidableEq, Inhabited, Repr

/-- A flag that a command knows. -/
structure Flag where
  /-- The name. -/
  name : Text
  /-- What it takes. -/
  kind : FlagKind
  /-- What it does. -/
  usage : Text
deriving DecidableEq, Inhabited, Repr

namespace Flag

/-- The lines of a flag in a usage text. A switch of one letter takes one line. -/
def describe (f : Flag) : Text :=
  let head := match f.kind with
    | .switch => "  -" ++ f.name
    | .value noun => "  -" ++ f.name ++ " " ++ noun
  head ++ (if head.length ≤ 4 then "\t" else "\n    \t") ++ f.usage ++ "\n"

/-- The lines of the flags of a list, in order of their names. -/
def describeAll (flags : List Flag) : Text :=
  Text.concat ((flags.mergeSort fun a b => a.name.ble b.name).map describe)

end Flag

/-- Why flags cannot be read. -/
inductive FlagError where
  /-- The usage was asked for. -/
  | help
  /-- Anything else, in words. -/
  | wrong (text : Text)
deriving DecidableEq, Inhabited, Repr

/-- The flags that were given, in order, and the arguments after them. -/
structure Arguments where
  /-- The names and values of the flags. -/
  flags : List (Text × Text)
  /-- The arguments. -/
  rest : List Text
deriving DecidableEq, Inhabited, Repr

namespace Arguments

/-- The spellings of truth. -/
def trueWords : List Text := ["1", "t", "T", "true", "TRUE", "True"]

/-- The spellings of falsehood. -/
def falseWords : List Text := ["0", "f", "F", "false", "FALSE", "False"]

/-- An argument as a flag: its name, and its value after an equals sign. -/
inductive Shape where
  /-- Not a flag. -/
  | plain
  /-- The end of the flags. -/
  | terminator
  /-- A flag. -/
  | flag (name : Text) (value : Option Text)
  /-- Neither. -/
  | malformed

/-- The name of a flag and its value after an equals sign, which cannot come first. -/
def splitFlag (t : Text) : Shape :=
  match t.bytes with
  | [] => .malformed
  | b :: rest =>
    if b == 45 || b == 61 then .malformed
    else
      match (Text.mk rest).cut 61 with
      | none => .flag t none
      | some (name, value) => .flag (⟨[b]⟩ ++ name) (some value)

/-- How an argument reads. -/
def shapeOf (t : Text) : Shape :=
  match t.bytes with
  | [45, 45] => .terminator
  | 45 :: 45 :: rest => splitFlag ⟨rest⟩
  | 45 :: b :: rest => splitFlag ⟨b :: rest⟩
  | _ => .plain

/-- Reads flags up to the first argument that is none. -/
def parse (known : List Flag) : List Text → Except FlagError Arguments
  | [] => .ok ⟨[], []⟩
  | arg :: rest =>
    match shapeOf arg with
    | .plain => .ok ⟨[], arg :: rest⟩
    | .terminator => .ok ⟨[], rest⟩
    | .malformed => .error (.wrong ("bad flag syntax: " ++ arg))
    | .flag name value =>
      match known.find? fun f => f.name == name with
      | none =>
        if name == "help" || name == "h" then .error .help
        else .error (.wrong ("flag provided but not defined: -" ++ name))
      | some f =>
        match f.kind, value, rest with
        | .switch, value, rest => do
          let value := value.getD "true"
          if trueWords.contains value || falseWords.contains value then
            let more ← parse known rest
            return { more with flags := (name, value) :: more.flags }
          else
            .error (.wrong ("invalid boolean value " ++ value.quote ++ " for -" ++ name ++
              ": parse error"))
        | .value _, some value, rest => do
          let more ← parse known rest
          return { more with flags := (name, value) :: more.flags }
        | .value _, none, value :: rest => do
          let more ← parse known rest
          return { more with flags := (name, value) :: more.flags }
        | .value _, none, [] => .error (.wrong ("flag needs an argument: -" ++ name))

/-- Every value of a flag. -/
def values (a : Arguments) (name : Text) : List Text :=
  (a.flags.filter fun f => f.1 == name).map Prod.snd

/-- The last value of a flag, or the empty text. -/
def value (a : Arguments) (name : Text) : Text := (a.values name).getLastD Text.empty

/-- Whether a switch is on. -/
def isOn (a : Arguments) (name : Text) : Bool := trueWords.contains (a.value name)

end Arguments

/-- Reads the flags of a command. If they cannot be read, the command ends with the usage of its flags. -/
def readArguments (command : Text) (known : List Flag) (args : List Text) : Command Arguments := do
  let usage := "Usage of " ++ command ++ ":\n" ++ Flag.describeAll known
  match Arguments.parse known args with
  | .ok a => return a
  | .error .help =>
    Command.complain usage
    Command.exit 0
  | .error (.wrong text) =>
    Command.complain (text ++ "\n" ++ usage)
    Command.exit 2

end Cli

end MacroAsm
