import MacroAsm.Decimal.Double
import MacroAsm.Toml.Lexeme

/-!
# Numbers of a document

The values of integers and floating-point numbers as they are written. A single underscore may stand between
two digits.
-/

namespace MacroAsm

namespace Toml

/-- Whether underscores stand between digits only, given whether a digit stands right before. -/
def isSeparated : Bool → List UInt8 → Bool
  | afterDigit, [] => afterDigit
  | afterDigit, b :: rest => if b == 95 then afterDigit && isSeparated false rest else isSeparated true rest

/-- The digits without the underscores between them. -/
def digits? (bs : List UInt8) : Option (List UInt8) :=
  if isSeparated false bs then some (bs.filter (· != 95)) else none

/-- Whether a number of several digits starts with a zero. -/
def hasLeadingZero : List UInt8 → Bool
  | 48 :: b :: _ => isDigit b
  | _ => false

/-- Reads an integer in base ten. -/
def decimalInteger? (bs : List UInt8) : Option Int64 := do
  let (negative, digits) := Numeral.splitSign bs
  let digits ← digits? digits
  if hasLeadingZero digits then none
  else Numeral.signed? negative (← Numeral.readDigits 10 digits 0)

/-- Reads an integer. -/
def integer? (t : Text) : Option Int64 :=
  let based (base : Nat) (bs : List UInt8) : Option Int64 := do
    Numeral.signed? false (← Numeral.readDigits base (← digits? bs) 0)
  match t.bytes with
  | 48 :: 120 :: d :: rest => based 16 (d :: rest)
  | 48 :: 111 :: d :: rest => based 8 (d :: rest)
  | 48 :: 98 :: d :: rest => based 2 (d :: rest)
  | bs => decimalInteger? bs

/-- Reads the exponent of a floating-point number, which has a sign or not. -/
def exponent? (bs : List UInt8) : Option Int := do
  let (negative, digits) := Numeral.splitSign bs
  let n ← Numeral.readDigits 10 (← digits? digits) 0
  return if negative then -n else n

/-- Reads a floating-point number without its sign. -/
def magnitude? (negative : Bool) (bs : List UInt8) : Option Double := do
  if bs == ("inf" : Text).bytes then some (.infinite negative)
  else if bs == ("nan" : Text).bytes then some .nan
  else
    let isMark (b : UInt8) : Bool := b == 101 || b == 69
    let mantissa := bs.takeWhile fun b => !isMark b
    let power ← match bs.dropWhile fun b => !isMark b with
      | [] => some 0
      | _ :: rest => exponent? rest
    let whole ← digits? (mantissa.takeWhile (· != 46))
    let fraction ← match mantissa.dropWhile (· != 46) with
      | [] => some []
      | _ :: rest => digits? rest
    if hasLeadingZero whole then none
    else
      let n ← Numeral.readDigits 10 (whole ++ fraction) 0
      Double.ofDecimal? negative n (power - fraction.length)

/-- Reads a floating-point number. -/
def float? (t : Text) : Option Double :=
  let (negative, bs) := Numeral.splitSign t.bytes
  magnitude? negative bs

end Toml

end MacroAsm
