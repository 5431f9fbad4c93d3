import MacroAsm.Eval.State
import MacroAsm.File.View
import MacroAsm.InstructionSet.Table
import MacroAsm.Toml.Datum

/-!
# Commands

A command prints, reads and writes files, and ends with an exit code. Commands are values: what a command does
is computed from what surrounds it, and carried out afterwards. One that needs a file or input that was not
read yet stops and tells so.
-/

namespace MacroAsm

namespace Cli

/-- What surrounds a command. -/
structure Environment where
  /-- The name the program was called by. -/
  program : Text
  /-- The files. -/
  files : Files
  /-- The path of the current directory, from the root. -/
  directory : Text
  /-- The home directory, if there is one. -/
  home : Option Text
  /-- The standard input, if it was read. -/
  input : Option Text
  /-- Whether diagnostics are printed in colour. -/
  colour : Bool
  /-- How blocks and labels are named. -/
  naming : Naming
  /-- How close mnemonics come to one another. -/
  similarity : Similarity
  /-- Reads the documents of settings and of instruction sets. -/
  decode : Toml.Decoder

/-- What a command did. -/
structure Console where
  /-- What was printed on the standard output, the last piece first. -/
  outReversed : List Text
  /-- What was printed on the standard error output, the last piece first. -/
  errReversed : List Text
  /-- The files that were written, the last one first. -/
  writesReversed : List (Text × Text)
deriving Inhabited

namespace Console

/-- The console before a command. -/
def start : Console := ⟨[], [], []⟩

/-- The standard output. -/
def out (c : Console) : Text := Text.concat c.outReversed.reverse

/-- The standard error output. -/
def err (c : Console) : Text := Text.concat c.errReversed.reverse

/-- The files that were written, with their contents, in order. -/
def writes (c : Console) : List (Text × Text) := c.writesReversed.reverse

end Console

/-- Why a command stops. -/
inductive Halt where
  /-- It ends with an exit code. -/
  | exit (code : Nat)
  /-- It needs a file that was not read. -/
  | needsFile (path : Text)
  /-- It needs the standard input, which was not read. -/
  | needsInput
deriving DecidableEq, Inhabited, Repr

/-- A command. -/
abbrev Command := ExceptT Halt (StateM Console)

namespace Command

/-- Prints on the standard output. -/
def print (t : Text) : Command PUnit :=
  modify fun c => { c with outReversed := t :: c.outReversed }

/-- Prints on the standard error output. -/
def complain (t : Text) : Command PUnit :=
  modify fun c => { c with errReversed := t :: c.errReversed }

/-- Ends with an exit code. -/
def exit {α : Type} (code : Nat) : Command α := throw (.exit code)

/-- Prints a line on the standard error output, and ends with a failure. -/
def fail {α : Type} (line : Text) : Command α := do
  complain (line ++ "\n")
  exit 1

/-- The result of a computation that needs files, or else its cause. -/
def attempt {α : Type} : Except Cause α → Command (Except Cause α)
  | .error (.unread path) => throw (.needsFile path)
  | result => return result

/-- The result of a computation that needs files. A failure is printed after a title, and ends the command. -/
def require {α : Type} (title : Text) (result : Except Cause α) : Command α := do
  match ← attempt result with
  | .ok a => return a
  | .error c => fail (title ++ ": " ++ c.message)

/-- Writes a file. -/
def write (path content : Text) : Command PUnit :=
  modify fun c => { c with writesReversed := (path, content) :: c.writesReversed }

end Command

/-- What a command did in the end. -/
structure Outcome where
  /-- The exit code. -/
  exit : Nat
  /-- The standard output. -/
  out : Text
  /-- The standard error output. -/
  err : Text
  /-- The files that were written, with their contents, in order. -/
  writes : List (Text × Text)
deriving Inhabited

/-- Why a command could not be carried out yet. -/
inductive Need where
  /-- A file was not read. -/
  | file (path : Text)
  /-- The standard input was not read. -/
  | input
deriving DecidableEq, Inhabited, Repr

/-- The outcome of a command, or what it needs. A command that does not end by itself ends with success. -/
def Command.outcome (c : Command PUnit) : Except Need Outcome :=
  let finish (console : Console) (code : Nat) : Outcome :=
    ⟨code, console.out, console.err, console.writes⟩
  match (ExceptT.run c).run Console.start with
  | (.ok _, console) => .ok (finish console 0)
  | (.error (.exit code), console) => .ok (finish console code)
  | (.error (.needsFile path), _) => .error (.file path)
  | (.error .needsInput, _) => .error .input

end Cli

end MacroAsm
