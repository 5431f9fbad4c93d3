import MacroAsm.Cli.History
import MacroAsm.Cli.Settings
import MacroAsm.Cli.Usage
import MacroAsm.Text.Blank

/-!
# The command that shows instructions

Shows the forms of mnemonics that are given as arguments or entered line by line.
-/

namespace MacroAsm

namespace Cli

/-- A text with blanks after it up to a width in characters. -/
def padRight (width : Nat) (t : Text) : Text :=
  t ++ ⟨List.replicate (width - t.runes.length) 32⟩

/-- The line of a form: its spelling, its code and its size. -/
def formLine (f : Form) : Text :=
  padRight 20 f.spelling ++ " " ++ padRight 10 (Text.mk f.code).hex.upper ++ " " ++
    Text.ofNat f.size ++ "\n"

/-- The lines of the forms of a mnemonic, or the cause if there are none. -/
def formLines (t : InstructionSet) (mnemonic : Text) : Except Cause Text :=
  match t.forms mnemonic with
  | [] => .error (.illegalInstruction mnemonic.upper (t.suggest mnemonic))
  | forms => .ok (Text.concat (forms.map formLine))

/-- Prints the forms of mnemonics. Gives whether each of them has one. -/
def printForms (t : InstructionSet) : List Text → Command Bool
  | [] => return true
  | m :: rest => do
    match formLines t m with
    | .ok lines =>
      Command.print lines
      printForms t rest
    | .error c =>
      Command.complain (c.message ++ "\n")
      let _ ← printForms t rest
      return false

/-- What is printed for a line that was entered. -/
def answer (t : InstructionSet) (line : Text) : Text :=
  Text.concat (line.words.map fun m =>
    match formLines t m with
    | .ok lines => lines
    | .error c => c.message ++ "\n")

/-- Answers lines one after the other, and gives the history after them. Blank lines are skipped. -/
def exploreLines (t : InstructionSet) : List Text → History → Command History
  | [], h => do
    Command.print "\n"
    return h
  | l :: rest, h => do
    let line := l.trim
    if line.isEmpty then exploreLines t rest h
    else
      Command.print (answer t line)
      exploreLines t rest (h.enter line)

/-- The file of the history in a home directory. -/
def historyPath (home : Text) : Text := Path.join home ".c88as_history"

/-- The history of earlier runs. -/
def readHistory (env : Environment) : Command History := do
  match env.home with
  | none => return History.empty
  | some home =>
    match ← Command.attempt (env.files.read (historyPath home)) with
    | .ok content => return History.ofText content
    | .error _ => return History.empty

/-- Keeps the history for later runs, if it can be written. -/
def writeHistory (env : Environment) (h : History) : Command PUnit := do
  match env.home with
  | none => return ⟨⟩
  | some home =>
    match ← Command.attempt (env.files.checkWritable (historyPath home)) with
    | .ok _ => Command.write (historyPath home) h.render
    | .error _ => return ⟨⟩

/-- Answers the lines of the standard input. -/
def explore (env : Environment) (t : InstructionSet) : Command PUnit := do
  match env.input with
  | none => throw .needsInput
  | some input =>
    let h ← readHistory env
    writeHistory env (← exploreLines t (inputLines input) h)

/-- Shows instructions. -/
def catalog (env : Environment) (args : List Text) : Command PUnit := do
  let a ← readArguments "table" tableFlags args
  if a.isOn "h" then
    Command.complain tableUsage
    Command.exit 0
  let t ← Command.require "error reading instruction table" (readTable env (a.value "table"))
  if a.isOn "i" then
    explore env t
    Command.exit 0
  let known ← printForms t (if a.rest.isEmpty then t.mnemonics else a.rest)
  Command.exit (if known then 0 else 1)

end Cli

end MacroAsm
