import MacroAsm.Cli.Program

/-!
# The command line

Reads what the program needs, carries out what it does, and prints what it says.
-/

open MacroAsm

namespace MacroAsm.Main

/-- The bytes of a text. -/
def toBytes (t : Text) : ByteArray := ⟨t.bytes.toArray⟩

/-- The text of bytes. -/
def ofBytes (bs : ByteArray) : Text := ⟨bs.toList⟩

/-- What a path leads to. -/
def readEntry (path : Text) : IO Entry := do
  match path.toString? with
  | none => return .absent Entry.noEntry
  | some p =>
    try
      return .file (ofBytes (← IO.FS.readBinFile p))
    catch e =>
      match e with
      | .inappropriateType .. => return .directory
      | .noFileOrDirectory .. => return .absent Entry.noEntry
      | _ => return .absent (Text.ofString (toString e))

/-- Writes a file. Gives whether it could be written. -/
def writeFile (path content : Text) : IO Bool := do
  match path.toString? with
  | none => return false
  | some p =>
    try
      IO.FS.writeBinFile p (toBytes content)
      return true
    catch _ => return false

/-- The whole standard input. -/
partial def readInput (input : IO.FS.Stream) (before : ByteArray) : IO ByteArray := do
  let piece ← input.read 65536
  if piece.isEmpty then return before else readInput input (before ++ piece)

/-- Runs the program, reading what it needs until it needs nothing more. -/
partial def runWith (env : Cli.Environment) (known : List (Text × Entry)) (args : List Text) :
    IO Cli.Outcome := do
  let files : Files := fun path => (known.lookup path).getD .unread
  match Cli.run { env with files } args with
  | .ok outcome => return outcome
  | .error (.file path) => runWith env ((path, ← readEntry path) :: known) args
  | .error .input =>
    let input ← readInput (← IO.getStdin) ByteArray.empty
    runWith { env with input := some (ofBytes input) } known args

/-- Prints bytes. -/
def putText (stream : IO.FS.Stream) (t : Text) : IO PUnit := do
  stream.write (toBytes t)
  stream.flush

end MacroAsm.Main

/-- The program on a command line. -/
def main (args : List String) : IO UInt32 := do
  let stderr ← IO.getStderr
  let home := ((← IO.getEnv "HOME").filter fun h => !h.isEmpty).map Text.ofString
  let directory := Text.ofString (toString (← IO.currentDir))
  let env : Cli.Environment :=
    ⟨"c88as", fun _ => .unread, directory, home, none, ← stderr.isTty, .counted, .edits, Toml.decode?⟩
  let outcome ← MacroAsm.Main.runWith env [] (args.map Text.ofString)
  MacroAsm.Main.putText (← IO.getStdout) outcome.out
  MacroAsm.Main.putText stderr outcome.err
  for (path, content) in outcome.writes do
    let _ ← MacroAsm.Main.writeFile path content
  return outcome.exit.toUInt32
