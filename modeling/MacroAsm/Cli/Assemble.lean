import MacroAsm.Cli.Export
import MacroAsm.Cli.Reporter
import MacroAsm.Cli.Settings
import MacroAsm.Cli.Usage
import MacroAsm.Define
import MacroAsm.Loader.Basic

/-!
# The command that assembles

Assembles files one after the other, reports what they say, and sums them up.
-/

namespace MacroAsm

namespace Cli

/-- What the output of a file amounts to. -/
structure Tally where
  /-- The number of assembled bytes. -/
  bytes : Nat
  /-- The number of tokens that are left to the linker. -/
  symbolic : Nat
  /-- The files that were included. -/
  dependencies : List Text
  /-- The diagnostics. -/
  messages : List Diagnostic
deriving Inhabited

namespace Tally

/-- The tally with one more token in front. -/
def cons (t : Token) (tally : Tally) : Tally :=
  match t with
  | .message d => { tally with messages := d :: tally.messages }
  | .dependency _ file => { tally with dependencies := file :: tally.dependencies }
  | .bytes _ data => { tally with bytes := tally.bytes + data.length }
  | _ => { tally with symbolic := tally.symbolic + 1 }

/-- The tally of the output of a file. -/
def ofTokens (ts : List Token) : Tally := ts.foldr cons ⟨0, 0, [], []⟩

/-- The file that was needed and not read, if there was one. -/
def unread? (t : Tally) : Option Text :=
  t.messages.findSome? fun d =>
    match d.cause with
    | some (.unread path) => some path
    | _ => none

end Tally

/-- What a run over several files has come to. -/
structure Progress where
  /-- The reporter of diagnostics. -/
  reporter : Reporter
  /-- The exported names. -/
  exports : Exports
  /-- The included files. -/
  dependencies : List Text

/-- Reports diagnostics, up to the first fatal one. -/
def reportAll : List Diagnostic → Reporter → Command Reporter
  | [], r => return r
  | d :: rest, r => do
    if r.fatal then return r
    else
      let (r, line) := r.report d
      Command.complain line
      reportAll rest r

/-- The lines that sum a file up. -/
def summary (path : Text) (tally : Tally) (names : List Text) (exports : Exports) : Text :=
  let line (name : Text) : Text :=
    "\texport " ++ name ++ (if (exports.weak? name).getD false then " (weak)\n" else "\n")
  path ++ ": " ++ Text.ofNat tally.bytes ++ " bytes, " ++ Text.ofNat tally.symbolic ++
    " symbolic tokens\n" ++ Text.concat (names.map line)

/-- Reads the program of a file. -/
def readProgram (files : Files) (path : Text) : Except Cause (List Token) := do
  let content ← files.read path
  Loader.program.load [] (Location.ofPath path) content

/-- Assembles a file, and reports on it. -/
def assembleFile (env : Environment) (a : Assembler) (defines : List Define) (path : Text)
    (p : Progress) : Command Progress := do
  let scope ← Command.require "invalid define" (Define.rootScope defines)
  let source ← Command.require "error reading token file" (readProgram env.files path)
  let assembly := a.assemble scope source
  let tally := Tally.ofTokens assembly.tokens
  match tally.unread? with
  | some path => throw (.needsFile path)
  | none =>
    let reporter ← reportAll tally.messages p.reporter
    let dependencies := p.dependencies ++ tally.dependencies
    if reporter.fatal then return { p with reporter, dependencies }
    else
      let (exports, names, clashes) := exportAll (exportedSymbols assembly.scope) p.exports
      let reporter ← reportAll clashes reporter
      Command.print (summary path tally names exports)
      return ⟨reporter, exports, dependencies⟩

/-- Assembles the files of a list, up to the first with a fatal diagnostic. -/
def assembleFiles (env : Environment) (a : Assembler) (defines : List Define) :
    List Text → Progress → Command Progress
  | [], p => return p
  | path :: rest, p => do
    let p ← assembleFile env a defines path p
    if p.reporter.fatal then return p else assembleFiles env a defines rest p

/-- The rule that lists files as what a file is made of, and an empty rule for each of them. -/
def dependencyRule (env : Environment) (target : Text) (files : List Text) : Text :=
  let list := Text.join " " (files.map fun f => (Path.relative? env.directory f).getD f)
  target ++ ": " ++ list ++ "\n" ++ if list.isEmpty then Text.empty else list ++ ":\n"

/-- Assembles files. -/
def assemble (env : Environment) (args : List Text) : Command PUnit := do
  let a ← readArguments "assemble" assembleFlags args
  if a.isOn "h" then
    Command.complain assembleUsage
    Command.exit 0
  if a.rest.isEmpty then
    Command.complain ("missing path to token file\n" ++ assembleUsage)
    Command.exit 1
  let settings ← Command.require "error reading config"
    (Settings.read env (a.value "config"))
  let defines ← Command.require "invalid define" (Define.collect settings.defines (a.values "D"))
  let tablePath := a.value "table"
  let table ← Command.require "error reading instruction table"
    (readTable env (if tablePath.isEmpty then settings.table else tablePath))
  let directories := a.values "I" ++ settings.includePaths
  let assembler : Assembler :=
    ⟨table, some (env.files.includer directories), 0, env.naming⟩
  let reporter : Reporter :=
    ⟨env.colour, a.isOn "v", a.isOn "Werror" || settings.strict, false, false⟩
  let p ← assembleFiles env assembler defines a.rest ⟨reporter, Exports.empty, []⟩
  if p.reporter.failed then Command.exit 1
  let target := a.value "d"
  if !target.isEmpty then
    Command.require "error writing dependencies" (env.files.checkWritable target)
    Command.write target (dependencyRule env target p.dependencies)
  Command.exit 0

end Cli

end MacroAsm
