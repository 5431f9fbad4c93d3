import MacroAsm.Toml.Lexeme

/-!
# Reading documents

The grammar of values, assignments and headers. Reading takes at least a byte for every unit of fuel but
one, so the length of the input is fuel enough.
-/

namespace MacroAsm

namespace Toml

/-- Reads a byte that has to come next. -/
def expect? (b : UInt8) : List UInt8 → Option (List UInt8)
  | c :: rest => if c == b then some rest else none
  | [] => none

/-- Drops blanks, comments and line ends. -/
def skipLines? : Nat → List UInt8 → Option (List UInt8)
  | 0, bs => some bs
  | fuel + 1, bs => do
    let rest ← match skipBlanks bs with
      | 35 :: rest => comment? rest
      | rest => some rest
    if atLineEnd rest then skipLines? fuel (← lineEnd? rest) else return rest

mutual

/-- Reads a value. -/
def value? : Nat → List UInt8 → Option (Value × List UInt8)
  | 0, _ => none
  | fuel + 1, bs =>
    match bs with
    | 34 :: rest => (string? basicQuote rest).map fun (t, rest) => (.string t, rest)
    | 39 :: rest => (string? literalQuote rest).map fun (t, rest) => (.string t, rest)
    | 116 :: _ =>
      if (Text.mk bs).startsWith "true" then some (.bool true, bs.drop 4) else none
    | 102 :: _ =>
      if (Text.mk bs).startsWith "false" then some (.bool false, bs.drop 5) else none
    | 91 :: rest => (items? fuel true rest).map fun (vs, rest) => (.array vs, rest)
    | 123 :: rest => (entries? fuel true rest).map fun (es, rest) => (.table es, rest)
    | _ => numberOrMoment? bs

/-- Reads the elements of an array up to its end. A comma may follow the last one. -/
def items? : Nat → Bool → List UInt8 → Option (List Value × List UInt8)
  | 0, _, _ => none
  | fuel + 1, first, bs => do
    match ← skipLines? bs.length bs with
    | 93 :: rest => return ([], rest)
    | 44 :: rest =>
      if first then none
      else
        match ← skipLines? rest.length rest with
        | 93 :: rest => return ([], rest)
        | rest =>
          let (v, rest) ← value? fuel rest
          let (vs, rest) ← items? fuel false rest
          return (v :: vs, rest)
    | rest =>
      if first then
        let (v, rest) ← value? fuel rest
        let (vs, rest) ← items? fuel false rest
        return (v :: vs, rest)
      else none

/-- Reads the assignments of an inline table up to its end. -/
def entries? : Nat → Bool → List UInt8 → Option (List Assignment × List UInt8)
  | 0, _, _ => none
  | fuel + 1, first, bs => do
    match skipBlanks bs with
    | 125 :: rest => return ([], rest)
    | rest =>
      let rest ← if first then some rest else (expect? 44 rest).map skipBlanks
      let (e, rest) ← assignment? fuel rest
      let (es, rest) ← entries? fuel false rest
      return (e :: es, rest)

/-- Reads an assignment. -/
def assignment? : Nat → List UInt8 → Option (Assignment × List UInt8)
  | 0, _ => none
  | fuel + 1, bs => do
    let (key, rest) ← key? bs.length bs
    let rest ← expect? 61 (skipBlanks rest)
    let (v, rest) ← value? fuel (skipBlanks rest)
    return (.mk key v, rest)

end

/-- Reads a header. -/
def header? (bs : List UInt8) : Option (Header × List UInt8) :=
  match bs with
  | 91 :: 91 :: rest => do
    let (key, rest) ← key? rest.length (skipBlanks rest)
    let rest ← expect? 93 (skipBlanks rest)
    return (.element key, ← expect? 93 rest)
  | 91 :: rest => do
    let (key, rest) ← key? rest.length (skipBlanks rest)
    return (.table key, ← expect? 93 (skipBlanks rest))
  | _ => none

/-- What a line holds. -/
inductive Line where
  /-- Nothing but blanks and a comment. -/
  | blank
  /-- A header. -/
  | header (h : Header)
  /-- An assignment. -/
  | assignment (a : Assignment)

/-- Reads what stands on a line, without its end. A value may extend over several lines. -/
def line? (bs : List UInt8) : Option (Line × List UInt8) := do
  match skipBlanks bs with
  | [] => return (.blank, [])
  | 35 :: rest => return (.blank, ← comment? rest)
  | b :: rest =>
    if atLineEnd (b :: rest) then return (.blank, b :: rest)
    else
      let (line, rest) ← if b == 91 then (header? (b :: rest)).map fun (h, r) => (Line.header h, r)
        else (assignment? (2 * rest.length + 4) (b :: rest)).map fun (a, r) => (.assignment a, r)
      match skipBlanks rest with
      | 35 :: rest => return (line, ← comment? rest)
      | rest => return (line, rest)

/-- Reads the lines of a document. A line end stands between two of them. -/
def lines? : Nat → List UInt8 → Option (List Line)
  | 0, _ => none
  | fuel + 1, bs => do
    let (line, rest) ← line? bs
    match rest with
    | [] => return [line]
    | rest => return line :: (← lines? fuel (← lineEnd? rest))

/-- Groups lines by the header they follow. -/
def sections (header : Header) (before : List Assignment) : List Line → List Section
  | [] => [⟨header, before.reverse⟩]
  | .blank :: rest => sections header before rest
  | .header h :: rest => ⟨header, before.reverse⟩ :: sections h [] rest
  | .assignment a :: rest => sections header (a :: before) rest

/-- Reads a document. The first section has no header. -/
def parse? (t : Text) : Option (List Section) :=
  (lines? (t.length + 1) t.bytes).map (sections .root [])

end Toml

end MacroAsm
