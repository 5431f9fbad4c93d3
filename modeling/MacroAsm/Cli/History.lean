import MacroAsm.Text.Utf8

/-!
# Lines and history

The lines of an input and the history of the lines that were entered. Lines are read through a buffer of a
fixed size: a longer line of input comes in pieces, and a longer line of a history ends the reading of it.
-/

namespace MacroAsm

namespace Cli

/-- The number of bytes that are read at once. -/
def bufferSize : Nat := 4096

/-- A line without its end, and whether it has one. -/
structure RawLine where
  /-- The bytes of the line. -/
  bytes : List UInt8
  /-- Whether a line end follows. -/
  terminated : Bool
deriving DecidableEq, Inhabited, Repr

namespace RawLine

/-- The lines of a text. What follows the last line end is a line if it is not empty. -/
def ofText (t : Text) : List RawLine :=
  let pieces := t.splitOn 10
  pieces.dropLast.map (fun p => ⟨p.bytes, true⟩) ++
    ((pieces.getLast?.toList.filter fun p => !p.isEmpty).map fun p => ⟨p.bytes, false⟩)

/-- The text of a line. A carriage return in front of the line end belongs to it. -/
def text (l : RawLine) : Text :=
  ⟨if l.terminated && l.bytes.getLast? == some 13 then l.bytes.dropLast else l.bytes⟩

/-- The pieces in which a line is read. A carriage return at the end of a piece is left to the next. -/
def pieces : Nat → RawLine → List Text
  | 0, l => [l.text]
  | fuel + 1, l =>
    if l.bytes.length < bufferSize then [l.text]
    else
      let full := l.bytes.take bufferSize
      let piece := if full.getLast? == some 13 then full.dropLast else full
      ⟨piece⟩ :: pieces fuel ⟨l.bytes.drop piece.length, l.terminated⟩

end RawLine

/-- The lines of an input, long ones in pieces. -/
def inputLines (t : Text) : List Text :=
  (RawLine.ofText t).flatMap fun l => l.pieces l.bytes.length

/-- Lines that were entered, the oldest first. -/
structure History where
  /-- The lines. -/
  lines : List Text
deriving DecidableEq, Inhabited, Repr

namespace History

/-- The number of lines that are kept. -/
def limit : Nat := 1000

/-- No lines. -/
def empty : History := ⟨[]⟩

/-- The history with one more line. The oldest ones make room for it. -/
def push (h : History) (line : Text) : History :=
  let lines := h.lines ++ [line]
  ⟨lines.drop (lines.length - limit)⟩

/-- The history after a line was entered. A line that repeats the last one is not entered. -/
def enter (h : History) (line : Text) : History :=
  if h.lines.getLast? == some line then h else h.push line

/-- Reads lines up to the first that is too long or not well-formed. -/
def readFrom : List RawLine → History → History
  | [], h => h
  | l :: rest, h =>
    if bufferSize ≤ l.bytes.length || !l.text.isUtf8 then h else readFrom rest (h.push l.text)

/-- The history that a file holds. -/
def ofText (t : Text) : History := readFrom (RawLine.ofText t) empty

/-- The content of the file of a history. -/
def render (h : History) : Text := Text.concat (h.lines.map fun l => l ++ "\n")

end History

end Cli

end MacroAsm
