import MacroAsm.Cli.Assemble
import MacroAsm.Cli.Catalog

/-!
# The program

Selects a command by the first argument.
-/

namespace MacroAsm

namespace Cli

/-- The whole program. -/
def program (env : Environment) (args : List Text) : Command PUnit := do
  let a ← readArguments env.program [helpFlag] args
  match a.rest with
  | [] =>
    Command.complain usage
    Command.exit 0
  | command :: rest =>
    if a.isOn "h" then
      Command.complain usage
      Command.exit 0
    else if command == "assemble" then assemble env rest
    else if command == "table" then catalog env rest
    else if command == "version" then
      Command.print (version ++ "\n")
      Command.exit 0
    else
      Command.complain ("invalid command\n" ++ usage)
      Command.exit 1

/-- The outcome of the program, or what it needs. -/
def run (env : Environment) (args : List Text) : Except Need Outcome := (program env args).outcome

end Cli

end MacroAsm
