import MacroAsm.Json.Basic
import MacroAsm.Text.Quote

/-!
# Except JsonError (JSON × List UInt8)

The grammar of RFC 8259 over bytes. A byte of a string that is not part of a well-formed character,
and an escape for half a surrogate pair, are read as U+FFFD. Values nested too deeply are refused.
-/

namespace MacroAsm

/-- Why a document is not JSON. -/
inductive JsonError where
  /-- The document ends inside of a value. -/
  | unexpectedEnd
  /-- A character that the grammar does not allow where it stands. -/
  | invalidCharacter (c : Rune) (place : Text)
  /-- Too many enclosing arrays and objects. -/
  | tooDeep
deriving DecidableEq, Inhabited, Repr

namespace JsonError

/-- A character as it is shown in a message. -/
def renderRune (r : Rune) : Text :=
  match r.toChar with
  | '\'' => "'\\''"
  | '"' => "'\"'"
  | c => "'" ++ Quote.encodeRune (.char c) ++ "'"

/-- The wording of an error. -/
def message : JsonError → Text
  | .unexpectedEnd => "unexpected end of JSON input"
  | .invalidCharacter c place => "invalid character " ++ renderRune c ++ " " ++ place
  | .tooDeep => "exceeded max depth"

end JsonError

namespace Json

/-- The greatest number of arrays and objects around a value. -/
def maxDepth : Nat := 10000

/-- Refuses the character at the front. -/
def refuse {α : Type} (place : Text) (bs : List UInt8) : Except JsonError α :=
  match Text.runesOf 0 (bs.take 4) with
  | [] => .error .unexpectedEnd
  | r :: _ => .error (.invalidCharacter r place)

/-- Whether a byte is white space between tokens. -/
def isSpace (b : UInt8) : Bool := b == 32 || b == 9 || b == 10 || b == 13

/-- The document after leading white space. -/
def skipSpace (bs : List UInt8) : List UInt8 := bs.dropWhile isSpace

/-- Whether a byte is a decimal digit. -/
def isDigit (b : UInt8) : Bool := 48 ≤ b && b ≤ 57

/-- A piece of a string: a byte that stands for itself, or an escaped UTF-16 unit. -/
inductive Piece where
  /-- A byte. -/
  | byte (b : UInt8)
  /-- A UTF-16 unit. -/
  | unit (n : Nat)
deriving Inhabited, Repr

/-- The value of four hexadecimal digits. -/
def hex4? (a b c d : UInt8) : Option Nat := do
  let digits ← [a, b, c, d].mapM fun x => (Numeral.digit? x).filter (· < 16)
  return digits.foldl (fun acc x => acc * 16 + x) 0

/-- The byte that a one-letter escape stands for. -/
def escape? (b : UInt8) : Option UInt8 :=
  if b == 34 || b == 92 || b == 47 then some b
  else if b == 98 then some 8
  else if b == 102 then some 12
  else if b == 110 then some 10
  else if b == 114 then some 13
  else if b == 116 then some 9
  else none

/-- Reads the rest of a string, up to and with its closing quote, onto the pieces read so far. -/
def readPieces : List UInt8 → List Piece → Except JsonError (List Piece × List UInt8)
  | [], _ => .error .unexpectedEnd
  | 34 :: rest, acc => .ok (acc.reverse, rest)
  | [92], _ => .error .unexpectedEnd
  | 92 :: 117 :: a :: b :: c :: d :: rest, acc =>
    match hex4? a b c d with
    | some n => readPieces rest (.unit n :: acc)
    | none => refuse "in \\u hexadecimal character escape"
        ([a, b, c, d].dropWhile fun x => ((Numeral.digit? x).filter (· < 16)).isSome)
  | 92 :: 117 :: short, _ =>
    refuse "in \\u hexadecimal character escape"
      (short.dropWhile fun x => ((Numeral.digit? x).filter (· < 16)).isSome)
  | 92 :: b :: rest, acc =>
    match escape? b with
    | some c => readPieces rest (.byte c :: acc)
    | none => refuse "in string escape code" (b :: rest)
  | b :: rest, acc =>
    if b < 32 then refuse "in string literal" (b :: rest)
    else readPieces rest (.byte b :: acc)

/-- The character of a UTF-16 surrogate pair. -/
def pair (high low : Nat) : Char := Char.ofNat (0x10000 + (high - 0xD800) * 1024 + (low - 0xDC00))

/-- The bytes of a sequence of pieces. `high` is the first half of a surrogate pair that waits for the
second. -/
def joinPieces : Option Nat → List Piece → List UInt8
  | none, [] => []
  | some _, [] => String.utf8EncodeChar Rune.replacement
  | none, .byte b :: rest => b :: joinPieces none rest
  | some _, .byte b :: rest =>
    String.utf8EncodeChar Rune.replacement ++ b :: joinPieces none rest
  | none, .unit n :: rest =>
    if 0xD800 ≤ n && n < 0xDC00 then joinPieces (some n) rest
    else if 0xDC00 ≤ n && n < 0xE000 then
      String.utf8EncodeChar Rune.replacement ++ joinPieces none rest
    else String.utf8EncodeChar (Char.ofNat n) ++ joinPieces none rest
  | some high, .unit n :: rest =>
    if 0xDC00 ≤ n && n < 0xE000 then
      String.utf8EncodeChar (pair high n) ++ joinPieces none rest
    else if 0xD800 ≤ n && n < 0xDC00 then
      String.utf8EncodeChar Rune.replacement ++ joinPieces (some n) rest
    else
      String.utf8EncodeChar Rune.replacement ++
        (String.utf8EncodeChar (Char.ofNat n) ++ joinPieces none rest)

/-- Reads a string after its opening quote. -/
def readString (bs : List UInt8) : Except JsonError (Text × List UInt8) := do
  let (pieces, rest) ← readPieces bs []
  return (Text.ofChars (Text.mk (joinPieces none pieces)).chars, rest)

/-- Reads one or more digits. -/
def readDigits (bs : List UInt8) (place : Text) : Except JsonError (List UInt8 × List UInt8) :=
  match bs.takeWhile isDigit with
  | [] => refuse place bs
  | digits => .ok (digits, bs.dropWhile isDigit)

/-- Reads the integer part of a number: a zero, or digits that do not begin with one. -/
def readInteger : List UInt8 → Except JsonError (List UInt8 × List UInt8)
  | 48 :: rest => .ok ([48], rest)
  | bs => readDigits bs "in numeric literal"

/-- Reads the fraction of a number, if there is one. -/
def readFraction : List UInt8 → Except JsonError (List UInt8 × List UInt8)
  | 46 :: rest => do
    let (digits, rest) ← readDigits rest "after decimal point in numeric literal"
    return (46 :: digits, rest)
  | bs => .ok ([], bs)

/-- Reads the exponent of a number, if there is one. -/
def readExponent : List UInt8 → Except JsonError (List UInt8 × List UInt8)
  | e :: s :: rest =>
    if e == 101 || e == 69 then
      if s == 43 || s == 45 then do
        let (digits, rest) ← readDigits rest "in exponent of numeric literal"
        return (e :: s :: digits, rest)
      else do
        let (digits, rest) ← readDigits (s :: rest) "in exponent of numeric literal"
        return (e :: digits, rest)
    else .ok ([], e :: s :: rest)
  | [e] => if e == 101 || e == 69 then .error .unexpectedEnd else .ok ([], [e])
  | [] => .ok ([], [])

/-- Reads a number. -/
def readNumber (bs : List UInt8) : Except JsonError (Text × List UInt8) := do
  let (sign, unsigned) := match bs with
    | 45 :: rest => ([(45 : UInt8)], rest)
    | bs => ([], bs)
  let (whole, rest) ← readInteger unsigned
  let (fraction, rest) ← readFraction rest
  let (exponent, rest) ← readExponent rest
  return (⟨sign ++ whole ++ fraction ++ exponent⟩, rest)

/-- Reads the rest of a literal word. -/
def readWord (word : Text) (value : Json) : List UInt8 → List UInt8 → Except JsonError (Json × List UInt8)
  | [], bs => .ok (value, bs)
  | w :: more, b :: rest =>
    if b == w then readWord word value more rest
    else refuse ("in literal " ++ word ++ " (expecting '" ++ ⟨[w]⟩ ++ "')") (b :: rest)
  | _ :: _, [] => .error .unexpectedEnd

mutual

/-- Reads a value inside of `depth` arrays and objects. Every call takes a byte, so the length of the
document bounds the fuel that is needed. -/
def readValue : Nat → Nat → List UInt8 → Except JsonError (Json × List UInt8)
  | 0, _, _ => .error .tooDeep
  | fuel + 1, depth, bs =>
    match bs with
    | [] => .error .unexpectedEnd
    | 34 :: rest => do
      let (s, rest) ← readString rest
      return (.string s, rest)
    | 123 :: rest =>
      if maxDepth ≤ depth then .error .tooDeep
      else
        match skipSpace rest with
        | 125 :: rest => .ok (.object ⟨bs, rest⟩ [], rest)
        | inner => do
          let (members, rest) ← readMembers fuel (depth + 1) inner []
          return (.object ⟨bs, rest⟩ members, rest)
    | 91 :: rest =>
      if maxDepth ≤ depth then .error .tooDeep
      else
        match skipSpace rest with
        | 93 :: rest => .ok (.array ⟨bs, rest⟩ [], rest)
        | inner => do
          let (items, rest) ← readItems fuel (depth + 1) inner []
          return (.array ⟨bs, rest⟩ items, rest)
    | 110 :: rest => readWord "null" .null [117, 108, 108] rest
    | 116 :: rest => readWord "true" (.bool true) [114, 117, 101] rest
    | 102 :: rest => readWord "false" (.bool false) [97, 108, 115, 101] rest
    | b :: _ =>
      if b == 45 || isDigit b then do
        let (digits, rest) ← readNumber bs
        return (.number digits, rest)
      else refuse "looking for beginning of value" bs

/-- Reads the items of an array that is not empty, and its closing bracket. -/
def readItems : Nat → Nat → List UInt8 → List Json → Except JsonError (List Json × List UInt8)
  | 0, _, _, _ => .error .tooDeep
  | fuel + 1, depth, bs, acc => do
    let (item, rest) ← readValue fuel depth bs
    match skipSpace rest with
    | 44 :: rest => readItems fuel depth (skipSpace rest) (item :: acc)
    | 93 :: rest => .ok ((item :: acc).reverse, rest)
    | rest => refuse "after array element" rest

/-- Reads the members of an object that is not empty, and its closing brace. -/
def readMembers : Nat → Nat → List UInt8 → List Member → Except JsonError (List Member × List UInt8)
  | 0, _, _, _ => .error .tooDeep
  | fuel + 1, depth, bs, acc =>
    match bs with
    | 34 :: rest => do
      let (key, rest) ← readString rest
      match skipSpace rest with
      | 58 :: rest => do
        let (value, rest) ← readValue fuel depth (skipSpace rest)
        match skipSpace rest with
        | 44 :: rest => readMembers fuel depth (skipSpace rest) (.mk key value :: acc)
        | 125 :: rest => .ok ((.mk key value :: acc).reverse, rest)
        | rest => refuse "after object key:value pair" rest
      | rest => refuse "after object key" rest
    | bs => refuse "looking for beginning of object key string" bs

end

/-- The value a document spells. -/
def parse (t : Text) : Except JsonError Json := do
  let (value, rest) ← readValue (2 * t.length + 2) 0 (skipSpace t.bytes)
  match skipSpace rest with
  | [] => return value
  | rest => refuse "after top-level value" rest

end Json

end MacroAsm
