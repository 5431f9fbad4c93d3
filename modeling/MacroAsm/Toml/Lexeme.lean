import MacroAsm.Text.Numeral
import MacroAsm.Toml.Basic

/-!
# The words of a document

Strings, keys, comments, and the extent of numbers and dates. A function that reads a word gives what it
stands for and the input after it.
-/

namespace MacroAsm

namespace Toml

/-- Whether a byte is a control character that may not occur. Tabs and line ends may. -/
def isForbidden (b : UInt8) : Bool :=
  b < 9 || b == 11 || b == 12 || (14 ≤ b && b < 32) || b == 127

/-- Whether bytes are well-formed text without forbidden characters. -/
def isProper (bs : List UInt8) : Bool := (Text.mk bs).isUtf8 && !bs.any isForbidden

/-- The part of the input that was read, given what is left of it. -/
def readPart (input rest : List UInt8) : List UInt8 := input.take (input.length - rest.length)

/-- Drops blanks and tabs. -/
def skipBlanks (bs : List UInt8) : List UInt8 := bs.dropWhile fun b => b == 32 || b == 9

/-- Reads a line end. -/
def lineEnd? : List UInt8 → Option (List UInt8)
  | 10 :: rest => some rest
  | 13 :: 10 :: rest => some rest
  | _ => none

/-- Whether the input starts with a line end, complete or not. -/
def atLineEnd : List UInt8 → Bool
  | 10 :: _ | 13 :: _ => true
  | _ => false

/-- Reads a comment up to the end of its line. -/
def comment? (bs : List UInt8) : Option (List UInt8) :=
  let body := bs.takeWhile fun b => b != 10 && b != 13
  let rest := bs.drop body.length
  let ended := match rest with
    | 13 :: 10 :: _ => true
    | 13 :: _ => false
    | _ => true
  if isProper body && ended then some (rest.dropWhile (· == 13)) else none

/-- The bytes of the character that hexadecimal digits spell. -/
def codePoint? (digits : List UInt8) (count : Nat) : Option (List UInt8) := do
  let digits := digits.take count
  if digits.length == count then
    let n ← Numeral.readDigits 16 digits 0
    if n.isValidChar then some (String.utf8EncodeChar (Char.ofNat n)) else none
  else none

/-- What an escape stands for, given the input after the backslash, and how many bytes it takes. -/
def escape? : List UInt8 → Option (List UInt8 × Nat)
  | 34 :: _ => some ([34], 1)
  | 92 :: _ => some ([92], 1)
  | 98 :: _ => some ([8], 1)
  | 101 :: _ => some ([27], 1)
  | 102 :: _ => some ([12], 1)
  | 110 :: _ => some ([10], 1)
  | 114 :: _ => some ([13], 1)
  | 116 :: _ => some ([9], 1)
  | 117 :: rest => (codePoint? rest 4).map fun bs => (bs, 5)
  | 85 :: rest => (codePoint? rest 8).map fun bs => (bs, 9)
  | _ => none

/-- Reads a string on one line up to its quote, after dropping `skip` bytes. -/
def lineBody? (quote : UInt8) (escapes : Bool) :
    Nat → List UInt8 → Option (List UInt8 × List UInt8)
  | _, [] => none
  | skip + 1, _ :: rest => lineBody? quote escapes skip rest
  | 0, b :: rest =>
    if b == quote then some ([], rest)
    else if b == 10 || b == 13 then none
    else if b == 92 && escapes then do
      let (spelled, n) ← escape? rest
      let (body, rest) ← lineBody? quote escapes n rest
      return (spelled ++ body, rest)
    else do
      let (body, rest) ← lineBody? quote escapes 0 rest
      return (b :: body, rest)

/-- The number of bytes of blanks and line ends that the input starts with. -/
def blankCount : List UInt8 → Nat
  | 32 :: rest | 9 :: rest | 10 :: rest => blankCount rest + 1
  | 13 :: 10 :: rest => blankCount rest + 2
  | _ => 0

/-- How many bytes a backslash at the end of a line takes with it: the rest of the line, which is blank, and
the blanks and line ends after it. -/
def continuation? : List UInt8 → Option Nat
  | 10 :: rest => some (blankCount rest + 1)
  | 13 :: 10 :: rest => some (blankCount rest + 2)
  | 32 :: rest | 9 :: rest => (continuation? rest).map (· + 1)
  | _ => none

/-- Reads a string of several lines up to three quotes, after dropping `skip` bytes. One or two more quotes
in front of them belong to the string. -/
def linesBody? (quote : UInt8) (escapes : Bool) :
    Nat → List UInt8 → Option (List UInt8 × List UInt8)
  | _, [] => none
  | skip + 1, _ :: rest => linesBody? quote escapes skip rest
  | 0, b :: rest =>
    let quotes := ((b :: rest).takeWhile (· == quote)).length
    if 6 ≤ quotes then none
    else if 3 ≤ quotes then some (List.replicate (quotes - 3) quote, rest.drop (quotes - 1))
    else if b == 92 && escapes then
      match continuation? rest with
      | some n => linesBody? quote escapes n rest
      | none => do
        let (spelled, n) ← escape? rest
        let (body, rest) ← linesBody? quote escapes n rest
        return (spelled ++ body, rest)
    else if b == 13 && rest.head? != some 10 then none
    else do
      let (body, rest) ← linesBody? quote escapes 0 rest
      return (b :: body, rest)

/-- The quote of strings with escapes. -/
def basicQuote : UInt8 := 34

/-- The quote of strings without escapes. -/
def literalQuote : UInt8 := 39

/-- Reads a string on one line, given the input after its first quote. -/
def lineString? (quote : UInt8) (bs : List UInt8) : Option (Text × List UInt8) := do
  let (body, rest) ← lineBody? quote (quote == basicQuote) 0 bs
  if isProper (readPart bs rest) then some (⟨body⟩, rest) else none

/-- Reads a string, given the input after its first quote. A line end right after three quotes does not belong
to it. -/
def string? (quote : UInt8) (bs : List UInt8) : Option (Text × List UInt8) :=
  match bs with
  | a :: b :: rest =>
    if a == quote && b == quote then do
      let start := (lineEnd? rest).getD rest
      let (body, rest) ← linesBody? quote (quote == basicQuote) 0 start
      if isProper (readPart start rest) then some (⟨body⟩, rest) else none
    else lineString? quote bs
  | _ => lineString? quote bs

/-- Whether a byte may stand in a key without quotes. -/
def isKeyByte (b : UInt8) : Bool :=
  (97 ≤ b && b ≤ 122) || (65 ≤ b && b ≤ 90) || (48 ≤ b && b ≤ 57) || b == 45 || b == 95

/-- Reads one part of a key. -/
def keyPart? : List UInt8 → Option (Text × List UInt8)
  | [] => none
  | b :: rest =>
    if b == basicQuote || b == literalQuote then lineString? b rest
    else if isKeyByte b then
      some (⟨(b :: rest).takeWhile isKeyByte⟩, (b :: rest).dropWhile isKeyByte)
    else none

/-- Reads the parts of a key, which have points between them. The fuel bounds the number of parts. -/
def key? : Nat → List UInt8 → Option (List Text × List UInt8)
  | 0, _ => none
  | fuel + 1, bs => do
    let (part, rest) ← keyPart? bs
    match skipBlanks rest with
    | 46 :: rest =>
      let (parts, rest) ← key? fuel (skipBlanks rest)
      return (part :: parts, rest)
    | rest => return ([part], rest)

/-- Whether a byte is a decimal digit. -/
def isDigit (b : UInt8) : Bool := 48 ≤ b && b ≤ 57

/-- Whether a byte is a digit of a base, or separates digits. -/
def isBaseByte (base : Nat) (b : UInt8) : Bool :=
  b == 95 || ((Numeral.digit? b).map (decide <| · < base)).getD false

/-- Whether the input starts with `inf` or `nan`. -/
def atSpecial (bs : List UInt8) : Bool :=
  (Text.mk bs).startsWith "inf" || (Text.mk bs).startsWith "nan"

/-- The number of which the digits were read, the last one first, and what follows it. -/
def numberBefore? (isFloat : Bool) (before rest : List UInt8) : Option (Value × List UInt8) :=
  if before.isEmpty then none
  else some (if isFloat then .float ⟨before.reverse⟩ else .integer ⟨before.reverse⟩, rest)

/-- Reads the extent of a number in base ten: what was read before comes last first. -/
def decimalExtent? (isFloat : Bool) (before : List UInt8) : List UInt8 → Option (Value × List UInt8)
  | b :: rest =>
    if isDigit b || b == 43 || b == 45 || b == 95 then decimalExtent? isFloat (b :: before) rest
    else if b == 46 || b == 101 || b == 69 then decimalExtent? true (b :: before) rest
    else if b == 105 || b == 110 then
      if atSpecial (b :: rest) then
        some (.float ⟨before.reverse ++ (b :: rest).take 3⟩, (b :: rest).drop 3)
      else none
    else numberBefore? isFloat before (b :: rest)
  | [] => numberBefore? isFloat before []

/-- Reads a number in the base that the letter after its zero announces. -/
def baseExtent (base : Nat) (bs : List UInt8) : Value × List UInt8 :=
  let digits := (bs.drop 2).takeWhile (isBaseByte base)
  (.integer ⟨bs.take 2 ++ digits⟩, bs.drop (2 + digits.length))

/-- Reads the extent of a number. -/
def number? (bs : List UInt8) : Option (Value × List UInt8) :=
  match bs with
  | 48 :: b :: _ :: _ =>
    if b == 46 || b == 101 || b == 69 then decimalExtent? false [] bs
    else if b == 120 then some (baseExtent 16 bs)
    else if b == 111 then some (baseExtent 8 bs)
    else if b == 98 then some (baseExtent 2 bs)
    else some (.integer "0", bs.drop 1)
  | _ => decimalExtent? false [] bs

/-- What was seen of a date or a time. -/
structure MomentSigns where
  /-- A hyphen. -/
  date : Bool
  /-- A colon, a point or the letter between a date and a time. -/
  time : Bool
  /-- An offset. -/
  offset : Bool
  /-- A blank between a date and a time. -/
  blank : Bool
deriving Inhabited

/-- The kind of a date or a time. -/
def MomentSigns.kind (s : MomentSigns) : MomentKind :=
  if s.time then
    if s.date then if s.offset then .offsetDateTime else .dateTime else .time
  else .date

/-- The number of bytes of a date or a time and what was seen of it, given the position in it, after dropping
`skip` bytes. -/
def momentExtent : Nat → Nat → MomentSigns → List UInt8 → Nat × MomentSigns
  | _, i, s, [] => (i, s)
  | skip + 1, i, s, _ :: rest => momentExtent skip (i + 1) s rest
  | 0, i, s, b :: rest =>
    if isDigit b then momentExtent 0 (i + 1) s rest
    else if b == 45 then
      momentExtent 0 (i + 1) { s with date := true, offset := s.offset || 8 ≤ i } rest
    else if b == 84 || b == 116 || b == 58 || b == 46 then
      momentExtent 0 (i + 1) { s with time := true } rest
    else if b == 43 || b == 90 || b == 122 then
      momentExtent 0 (i + 1) { s with offset := true } rest
    else if b == 32 && !s.blank && (rest.head?.map isDigit).getD false then
      momentExtent 2 (i + 1) { s with time := true, blank := true } rest
    else (i, s)

/-- Whether the input starts like a date or a time: two digits and a colon, or four digits and a hyphen. -/
def atMoment (bs : List UInt8) : Bool :=
  3 ≤ bs.length &&
    match bs.dropWhile isDigit, (bs.takeWhile isDigit).length with
    | 58 :: _, 2 => true
    | 45 :: _, 4 => true
    | _, _ => false

/-- Reads the extent of a date or a time. -/
def moment (bs : List UInt8) : Value × List UInt8 :=
  let (n, signs) := momentExtent 0 0 ⟨false, false, false, false⟩ bs
  (.moment signs.kind ⟨bs.take n⟩, bs.drop n)

/-- Reads the extent of a number, a date or a time. -/
def numberOrMoment? (bs : List UInt8) : Option (Value × List UInt8) :=
  match bs with
  | [] => none
  | b :: _ =>
    if b == 105 || b == 110 then
      if atSpecial bs then some (.float ⟨bs.take 3⟩, bs.drop 3) else none
    else if atMoment bs then some (moment bs)
    else number? bs

end Toml

end MacroAsm
