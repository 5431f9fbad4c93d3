import MacroAsm.Expr.Basic

/-!
# Reading values off expressions

A number can be read as a string, but a string is never read as a number. The empty string and zero
are false, and every other number or string is true.
-/

namespace MacroAsm

namespace Expr

/-- The value of a number. Digits that were not read yet count as zero. -/
def asNumber : Expr → Except Cause Int64
  | .number _ value _ => .ok value
  | .numeral _ _ => .ok 0
  | e => .error (.coercion e.kind "number")

/-- The value of a string, or the decimal form of a number. -/
def asText : Expr → Except Cause Text
  | .string _ value _ => .ok value
  | .number _ value _ => .ok (Text.ofInt64 value)
  | .numeral _ _ => .ok (Text.ofInt64 0)
  | e => .error (.coercion e.kind "string")

/-- The truth of a number or a string. -/
def asTruth : Expr → Except Cause Bool
  | .number _ value _ => .ok (value != 0)
  | .numeral _ _ => .ok false
  | .string _ value _ => .ok (!value.isEmpty)
  | e => .error (.coercion e.kind "boolean")

/-- The numbers of a list of expressions, or the first failure. -/
def asNumbers : List Expr → Except Cause (List Int64)
  | [] => .ok []
  | e :: rest => do
    let v ← e.asNumber
    let vs ← asNumbers rest
    return v :: vs

/-- The number of a truth value. -/
def ofBool (b : Bool) : Int64 := if b then 1 else 0

end Expr

end MacroAsm
