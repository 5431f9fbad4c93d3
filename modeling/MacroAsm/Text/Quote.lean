import MacroAsm.Text.Numeral
import MacroAsm.Text.Printable

/-!
# Quoted texts

A quoted text stands between double quotes. Printable characters stand for themselves, a quote and a
backslash are written after a backslash, some control characters have a letter, and anything else is
written by its code: `\x` for a byte or an ASCII control, `\u` or `\U` for a character. Reading
accepts these forms and three octal digits.
-/

namespace MacroAsm

namespace Quote

/-- The control characters that are written by a letter. -/
def letters : List (Char × Char) :=
  [(Char.ofNat 7, 'a'), (Char.ofNat 8, 'b'), (Char.ofNat 12, 'f'), ('\n', 'n'), ('\r', 'r'),
   ('\t', 't'), (Char.ofNat 11, 'v')]

/-- How one rune is written inside quotes. -/
def encodeRune : Rune → Text
  | .stray b => "\\x" ++ Text.ofNatPadded 16 2 b.toNat
  | .char c =>
    if c == '"' || c == '\\' then "\\" ++ Text.ofChars [c]
    else if isPrintable c then Text.ofChars [c]
    else
      match letters.lookup c with
      | some l => "\\" ++ Text.ofChars [l]
      | none =>
        let n := c.toNat
        if n < 32 || n == 127 then "\\x" ++ Text.ofNatPadded 16 2 n
        else if n < 0x10000 then "\\u" ++ Text.ofNatPadded 16 4 n
        else "\\U" ++ Text.ofNatPadded 16 8 n

/-- The value of `n` digits in a base at the head of a sequence of runes, with what follows. -/
def takeDigits (base : Nat) : Nat → List Rune → Nat → Option (Nat × List Rune)
  | 0, rest, acc => some (acc, rest)
  | n + 1, .char c :: rest, acc =>
    if c.toNat < 128 then
      match Numeral.digit? c.toNat.toUInt8 with
      | some d => if d < base then takeDigits base n rest (acc * base + d) else none
      | none => none
    else none
  | _ + 1, _, _ => none

/-- Reads the escape after a backslash: the bytes it stands for, and what follows. -/
def decodeEscape : List Rune → Option (List UInt8 × List Rune)
  | .char c :: rest =>
    let character (width : Nat) : Option (List UInt8 × List Rune) := do
      let (n, more) ← takeDigits 16 width rest 0
      if n < 0xD800 || (0xE000 ≤ n && n < 0x110000) then
        some (String.utf8EncodeChar (Char.ofNat n), more)
      else none
    if c == '\\' || c == '"' then some (String.utf8EncodeChar c, rest)
    else if c == 'x' then (takeDigits 16 2 rest 0).map fun (n, more) => ([n.toUInt8], more)
    else if c == 'u' then character 4
    else if c == 'U' then character 8
    else if '0' ≤ c && c ≤ '7' then do
      let (n, more) ← takeDigits 8 3 (.char c :: rest) 0
      if n < 256 then some ([n.toUInt8], more) else none
    else
      match letters.find? (·.2 == c) with
      | some (control, _) => some (String.utf8EncodeChar control, rest)
      | none => none
  | _ => none

/-- Reads up to the closing quote, which must be the last rune. Each step takes at least one rune, so
the number of runes bounds the steps. -/
def decodeBody : Nat → List Rune → Option (List UInt8)
  | 0, _ => none
  | _ + 1, [] => none
  | fuel + 1, r :: rest =>
    match r with
    | .char '"' => if rest.isEmpty then some [] else none
    | .char '\n' => none
    | .char '\\' => do
      let (bytes, more) ← decodeEscape rest
      let tail ← decodeBody fuel more
      some (bytes ++ tail)
    | _ => do
      let tail ← decodeBody fuel rest
      some (String.utf8EncodeChar r.toChar ++ tail)

end Quote

namespace Text

/-- A text between quotes. -/
def quote (t : Text) : Text := "\"" ++ concat (t.runes.map Quote.encodeRune) ++ "\""

/-- The text a quoted text stands for. -/
def unquote? (t : Text) : Option Text :=
  match t.runes with
  | .char '"' :: rest => (Quote.decodeBody (rest.length + 1) rest).map Text.mk
  | _ => none

end Text

end MacroAsm
