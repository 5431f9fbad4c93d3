import MacroAsm.Text.Basic

/-!
# Reading texts as characters

A text is read character by character as UTF-8. A byte that does not begin a well-formed sequence
stands alone as a stray byte, and reading goes on after it.
-/

namespace MacroAsm

/-- One step of reading a text: a character, or a byte that belongs to none. -/
inductive Rune where
  /-- A well-formed character. -/
  | char (c : Char)
  /-- A byte outside of any well-formed sequence. -/
  | stray (b : UInt8)
deriving DecidableEq, Inhabited, Repr

namespace Rune

/-- The character that stands for a stray byte where one is required. -/
def replacement : Char := Char.ofNat 0xFFFD

/-- The character read, with `replacement` for a stray byte. -/
def toChar : Rune → Char
  | .char c => c
  | .stray _ => replacement

/-- The bytes read. -/
def bytes : Rune → List UInt8
  | .char c => String.utf8EncodeChar c
  | .stray b => [b]

end Rune

namespace Text

/-- The six low bits of the byte `b`, if it lies in the range of `low` to `high`. -/
private def lowBits? (low high : Nat) (b : UInt8) : Option Nat :=
  let n := b.toNat
  if low ≤ n && n ≤ high then some (n % 64) else none

/-- The six low bits of a continuation byte. -/
private def continuation (b : UInt8) : Option Nat := lowBits? 0x80 0xBF b

/-- The character that begins with the byte `b` and goes on into `rest`, with the number of bytes
it takes from `rest`. Overlong forms, surrogates and codes above U+10FFFF are refused. -/
def decodeChar? (b : UInt8) (rest : List UInt8) : Option (Char × Nat) :=
  let n := b.toNat
  if n < 0x80 then some (Char.ofNat n, 0)
  else if n < 0xC2 then none
  else if n < 0xE0 then
    match rest with
    | b1 :: _ => do
      let c1 ← continuation b1
      some (Char.ofNat ((n % 32) * 64 + c1), 1)
    | _ => none
  else if n < 0xF0 then
    match rest with
    | b1 :: b2 :: _ => do
      let c1 ← lowBits? (if n = 0xE0 then 0xA0 else 0x80) (if n = 0xED then 0x9F else 0xBF) b1
      let c2 ← continuation b2
      some (Char.ofNat (((n % 16) * 64 + c1) * 64 + c2), 2)
    | _ => none
  else if n < 0xF5 then
    match rest with
    | b1 :: b2 :: b3 :: _ => do
      let c1 ← lowBits? (if n = 0xF0 then 0x90 else 0x80) (if n = 0xF4 then 0x8F else 0xBF) b1
      let c2 ← continuation b2
      let c3 ← continuation b3
      some (Char.ofNat ((((n % 8) * 64 + c1) * 64 + c2) * 64 + c3), 3)
    | _ => none
  else none

/-- The runes of a byte sequence after passing over `skip` bytes already read. -/
def runesOf : Nat → List UInt8 → List Rune
  | _, [] => []
  | skip + 1, _ :: rest => runesOf skip rest
  | 0, b :: rest =>
    match decodeChar? b rest with
    | some (c, n) => .char c :: runesOf n rest
    | none => .stray b :: runesOf 0 rest

/-- The runes of a text, first to last. -/
def runes (t : Text) : List Rune := runesOf 0 t.bytes

/-- The characters of a text, a stray byte read as `Rune.replacement`. -/
def chars (t : Text) : List Char := t.runes.map Rune.toChar

/-- The text whose characters are given. -/
def ofChars (cs : List Char) : Text := ⟨cs.flatMap String.utf8EncodeChar⟩

/-- Whether every byte belongs to a well-formed character. -/
def isUtf8 (t : Text) : Bool :=
  t.runes.all fun
    | .char _ => true
    | .stray _ => false

/-- The character string a text encodes, if it is well-formed. -/
def toString? (t : Text) : Option String :=
  if t.isUtf8 then some (String.ofList t.chars) else none

end Text

end MacroAsm
