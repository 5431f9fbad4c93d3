import MacroAsm.Text.Numeral

/-!
# Queries

A query is a list of `key=value` pairs with ampersands between them. A plus stands for a blank, and a
percent sign for the byte that two hexadecimal digits after it spell.
-/

namespace MacroAsm

/-- The pairs of a query in order. -/
abbrev Query := List (Text × Text)

namespace Query

/-- The bytes that a part of a pair stands for. -/
def unescape : List UInt8 → Option (List UInt8)
  | [] => some []
  | 37 :: a :: b :: rest => do
    let spelled ← Text.unhexBytes [a, b]
    return spelled ++ (← unescape rest)
  | 37 :: _ => none
  | 43 :: rest => do return 32 :: (← unescape rest)
  | b :: rest => do return b :: (← unescape rest)

/-- Reads a part of a pair. -/
def part? (t : Text) : Option Text := (unescape t.bytes).map Text.mk

/-- Reads a pair. The value may be missing. -/
def pair? (t : Text) : Option (Text × Text) := do
  let (key, value) := (t.cut 61).getD (t, Text.empty)
  return (← part? key, ← part? value)

/-- Reads a query. Empty pairs are left out, and a semicolon is refused. -/
def parse? (t : Text) : Option Query :=
  if t.bytes.contains 59 then none
  else ((t.splitOn 38).filter fun p => !p.isEmpty).mapM pair?

/-- The first value of a key, or the empty text. -/
def get (q : Query) (key : Text) : Text := (q.lookup key).getD Text.empty

end Query

end MacroAsm
