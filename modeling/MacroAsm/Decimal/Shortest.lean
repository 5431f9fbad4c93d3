import MacroAsm.Decimal.Double

/-!
# Shortest decimals

The decimal with the fewest digits that is nearer to a double than to any other, and its text. A double
stands for the interval of the reals that round to it. On the grid of the decimals of so many digits only
the two neighbours of the double can lie in the interval, so they are tried for one digit, two, and so on.
-/

namespace MacroAsm

/-- `digits · 10 ^ exponent`. -/
structure Decimal where
  /-- The digits as a number. -/
  digits : Nat
  /-- The power of ten of the last digit. -/
  exponent : Int
deriving DecidableEq, Inhabited, Repr

namespace Decimal

/-- The number of digits with which every double is told apart. -/
def maxDigits : Nat := 17

/-- The interval of the reals that round to a double, in fractions with a common denominator: the lower end,
the double, the upper end, and the denominator. Below a power of two the doubles are twice as dense. -/
def interval (mantissa : Nat) (exponent : Int) : Nat × Nat × Nat × Nat :=
  let below := if mantissa == Nat.pow 2 (Double.precision - 1) && Double.minExponent < exponent
    then 1 else 2
  let (unit, den) := Double.scaleBinary 1 (exponent - 2)
  ((4 * mantissa - below) * unit, 4 * mantissa * unit, (4 * mantissa + 2) * unit, den)

/-- A fraction for `n · 10 ^ e`. -/
def scaleDecimal (n : Nat) (e : Int) : Nat × Nat :=
  if 0 ≤ e then (n * Nat.pow 10 e.toNat, 1) else (n, Nat.pow 10 (-e).toNat)

/-- `⌊log₁₀ (num / den)⌋` for positive numbers. -/
def floorLog10 (num den : Nat) : Int :=
  let k : Int := ((Nat.toDigits 10 num).length : Int) - (Nat.toDigits 10 den).length
  let (scaled, unit) := scaleDecimal den k
  if scaled ≤ num * unit then k else k - 1

/-- The grid point of `10 ^ grid` in the interval that is nearest to the double. The ends of the interval
belong to it if the mantissa is even. -/
def onGrid? (isEven : Bool) (low value high den : Nat) (grid : Int) : Option Decimal :=
  let (step, unit) := scaleDecimal den grid
  let inside (d : Nat) : Bool :=
    let x := d * step
    if isEven then low * unit ≤ x && x ≤ high * unit else low * unit < x && x < high * unit
  let d := value * unit / step
  let down := value * unit - d * step
  let up := (d + 1) * step - value * unit
  match inside d, inside (d + 1) with
  | true, true => some ⟨if down < up || (down == up && d % 2 == 0) then d else d + 1, grid⟩
  | true, false => some ⟨d, grid⟩
  | false, true => some ⟨d + 1, grid⟩
  | false, false => none

/-- The first hit on the grids for `n` digits, `n + 1` digits and so on. -/
def search (isEven : Bool) (low value high den : Nat) (top : Int) : Nat → Nat → Decimal
  | 0, _ => ⟨0, 0⟩
  | tries + 1, n =>
    match onGrid? isEven low value high den (top - n + 1) with
    | some d => d
    | none => search isEven low value high den top tries (n + 1)

/-- The decimal with the fewest digits that rounds to a positive double. -/
def shortest (mantissa : Nat) (exponent : Int) : Decimal :=
  let (low, value, high, den) := interval mantissa exponent
  search (mantissa % 2 == 0) low value high den (floorLog10 value den) maxDigits 1

end Decimal

namespace Double

/-- Whether a number is written with an exponent, by the power of ten of its first digit: one that is small,
or that has more than six digits in front of the point. -/
def isScientific (first : Int) : Bool := first < -4 || 6 ≤ first

/-- The digits without zeros at the end. -/
def stripZeros (digits : List UInt8) : List UInt8 := (digits.reverse.dropWhile (· == 48)).reverse

/-- `d.ddde±xx`, the exponent with two digits or more. -/
def scientific (digits : List UInt8) (first : Int) : Text :=
  let mantissa := match digits with
    | [] => ([] : List UInt8)
    | [d] => [d]
    | d :: rest => d :: 46 :: rest
  ⟨mantissa⟩ ++ (if first < 0 then "e-" else "e+") ++ Text.ofNatPadded 10 2 first.natAbs

/-- The digits around a point, which is left out if none follows it. -/
def positional (digits : List UInt8) (first : Int) : Text :=
  if first < 0 then "0." ++ ⟨List.replicate (-first - 1).toNat 48 ++ digits⟩
  else
    let whole := first.toNat + 1
    let front := digits.take whole ++ List.replicate (whole - digits.length) 48
    match digits.drop whole with
    | [] => ⟨front⟩
    | rest => ⟨front ++ 46 :: rest⟩

/-- The text of a double with the fewest digits that read back. -/
def render : Double → Text
  | .nan => "NaN"
  | .infinite negative => if negative then "-Inf" else "+Inf"
  | .finite negative mantissa exponent =>
    let sign : Text := if negative then "-" else Text.empty
    if mantissa == 0 then sign ++ "0"
    else
      let d := Decimal.shortest mantissa exponent
      let all := (Text.ofNat d.digits).bytes
      let first := d.exponent + all.length - 1
      let digits := stripZeros all
      sign ++ if isScientific first then scientific digits first else positional digits first

end Double

end MacroAsm
