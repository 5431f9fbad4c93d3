import MacroAsm.Text.Numeral

/-!
# Doubles

Floating-point numbers of 64 bits as exact values, and the double nearest to a decimal.
-/

namespace MacroAsm

/-- A floating-point number of 64 bits. -/
inductive Double where
  /-- Not a number. -/
  | nan
  /-- An infinity. -/
  | infinite (negative : Bool)
  /-- `mantissa · 2 ^ exponent` with a sign, zero included. -/
  | finite (negative : Bool) (mantissa : Nat) (exponent : Int)
deriving DecidableEq, Inhabited, Repr

namespace Double

/-- The number of bits of a mantissa. -/
def precision : Nat := 53

/-- The least exponent. -/
def minExponent : Int := -1074

/-- The greatest exponent. -/
def maxExponent : Int := 971

/-- The quotient of two numbers, rounded to the nearest integer and to the even one of two. -/
def roundDiv (num den : Nat) : Nat :=
  let q := num / den
  let twice := 2 * (num % den)
  if twice < den || (twice == den && q % 2 == 0) then q else q + 1

/-- `n · 2 ^ e` and `1` for `0 ≤ e`, and else `n` and `2 ^ -e`: a fraction for `n · 2 ^ e`. -/
def scaleBinary (n : Nat) (e : Int) : Nat × Nat :=
  if 0 ≤ e then (n * Nat.pow 2 e.toNat, 1) else (n, Nat.pow 2 (-e).toNat)

/-- `⌊log₂ (num / den)⌋` for positive numbers. -/
def floorLog2 (num den : Nat) : Int :=
  let k : Int := (num.log2 : Int) - den.log2
  let (scaled, unit) := scaleBinary den k
  if scaled ≤ num * unit then k else k - 1

/-- The double nearest to a positive fraction, unless it is too great. -/
def ofFraction? (negative : Bool) (num den : Nat) : Option Double :=
  let e := max (floorLog2 num den - (precision - 1)) minExponent
  let (scaled, unit) := scaleBinary den e
  let m := roundDiv (num * unit) scaled
  let (m, e) := if m == Nat.pow 2 precision then (Nat.pow 2 (precision - 1), e + 1) else (m, e)
  if maxExponent < e then none else some (.finite negative m e)

/-- The double nearest to `digits · 10 ^ exponent`, unless it is too great. Exponents far outside of the
range are decided by the number of digits alone. -/
def ofDecimal? (negative : Bool) (digits : Nat) (exponent : Int) : Option Double :=
  let zero := Double.finite negative 0 0
  if digits == 0 then some zero
  else
    let magnitude := exponent + (Nat.toDigits 10 digits).length
    if 400 < magnitude then none
    else if magnitude < -400 then some zero
    else if 0 ≤ exponent then ofFraction? negative (digits * Nat.pow 10 exponent.toNat) 1
    else ofFraction? negative digits (Nat.pow 10 (-exponent).toNat)

end Double

end MacroAsm
