import MacroAsm.Expr.Coerce

/-!
# Arithmetic

The operators on numbers, which are 64-bit signed integers with wrap-around.
-/

namespace MacroAsm

namespace Arithmetic

/-- The number of places a shift moves by: counts beyond the width move by 63. -/
def shiftCount (r : Int64) : Except Cause Int64 :=
  if r < 0 then .error (.negativeShift r) else .ok (if 63 < r then 63 else r)

/-- Applies an operator to two numbers. Operators that do not work on numbers give the left one. -/
def apply (op : BinaryOp) (l r : Int64) : Except Cause Int64 :=
  match op with
  | .bitOr => .ok (l ||| r)
  | .bitXor => .ok (l ^^^ r)
  | .bitAnd => .ok (l &&& r)
  | .greater => .ok (Expr.ofBool (r < l))
  | .less => .ok (Expr.ofBool (l < r))
  | .greaterEqual => .ok (Expr.ofBool (r ≤ l))
  | .lessEqual => .ok (Expr.ofBool (l ≤ r))
  | .shiftLeft => do return l <<< (← shiftCount r)
  | .shiftRight => do return l >>> (← shiftCount r)
  | .add => .ok (l + r)
  | .subtract => .ok (l - r)
  | .multiply => .ok (l * r)
  | .divide => if r == 0 then .error .divisionByZero else .ok (l / r)
  | .modulo => if r == 0 then .error .divisionByZero else .ok (l % r)
  | _ => .ok l

/-- The magnitude of a number. The least number is its own magnitude. -/
def abs (v : Int64) : Int64 := if v < 0 then -v else v

/-- The sign of a number. -/
def sign (v : Int64) : Int64 := if v < 0 then -1 else if 0 < v then 1 else 0

/-- `v`, or the nearer of two bounds outside of which it lies. -/
def clamp (v low high : Int64) : Int64 := if v < low then low else if high < v then high else v

end Arithmetic

end MacroAsm
