import MacroAsm.Text.Utf8

/-!
# White space

The characters with the Unicode property White_Space, and the operations that drop or split at
them.
-/

namespace MacroAsm

/-- The characters of the property White_Space. -/
def isBlank (c : Char) : Bool :=
  let n := c.toNat
  (9 ≤ n && n ≤ 13) || n == 0x20 || n == 0x85 || n == 0xA0 || n == 0x1680 ||
    (0x2000 ≤ n && n ≤ 0x200A) || n == 0x2028 || n == 0x2029 || n == 0x202F || n == 0x205F ||
    n == 0x3000

/-- Whether a rune is a white space character; a stray byte never is. -/
def Rune.isBlank : Rune → Bool
  | .char c => MacroAsm.isBlank c
  | .stray _ => false

namespace Text

/-- The text of a sequence of runes. -/
def ofRunes (rs : List Rune) : Text := ⟨rs.flatMap Rune.bytes⟩

/-- A text without the white space at its two ends. -/
def trim (t : Text) : Text :=
  let inner := t.runes.dropWhile Rune.isBlank
  ofRunes ((inner.reverse.dropWhile Rune.isBlank).reverse)

/-- The maximal pieces of a sequence of runes that hold no white space. -/
def wordsOf : List Rune → List (List Rune)
  | [] => []
  | r :: rest =>
    if r.isBlank then wordsOf rest
    else
      match rest, wordsOf rest with
      | next :: _, word :: more => if next.isBlank then [r] :: word :: more else (r :: word) :: more
      | _, words => [r] :: words

/-- The words of a text: its maximal pieces without white space. -/
def words (t : Text) : List Text := (wordsOf t.runes).map ofRunes

end Text

end MacroAsm
