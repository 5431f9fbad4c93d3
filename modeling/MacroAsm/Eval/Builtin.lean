import MacroAsm.Eval.Arithmetic
import MacroAsm.Text.Case

/-!
# Built-in functions

The functions that an expression can call. Texts are measured and cut in bytes.
-/

namespace MacroAsm

/-- The functions that an expression can call. -/
inductive Builtin where
  /-- The magnitude of a number. -/
  | abs
  /-- An argument of the enclosing macro call. -/
  | arg
  /-- The name of the assembler. -/
  | assembler
  /-- A code address made of a page and an offset. -/
  | caddr
  /-- The concatenation of texts. -/
  | cat
  /-- The number of arguments of the enclosing macro call. -/
  | cnt
  /-- The second lowest byte of a number. -/
  | high
  /-- The length of a text. -/
  | len
  /-- The lowest byte of a number. -/
  | low
  /-- The greatest of some numbers. -/
  | max
  /-- The least of some numbers. -/
  | min
  /-- The position of a text in another. -/
  | pos
  /-- Whether two texts are equal. -/
  | scp
  /-- The sign of a number. -/
  | sgn
  /-- A part of a text. -/
  | sub
deriving DecidableEq, Inhabited, Repr

namespace Builtin

/-- The names of the functions. -/
def names : List (Text × Builtin) :=
  [("ABS", .abs), ("ARG", .arg), ("AS88", .assembler), ("CADDR", .caddr), ("CAT", .cat),
   ("CNT", .cnt), ("HIGH", .high), ("LEN", .len), ("LOW", .low), ("MAX", .max), ("MIN", .min),
   ("POS", .pos), ("SCP", .scp), ("SGN", .sgn), ("SUB", .sub)]

/-- The function with a name in any letter case. -/
def ofName? (name : Text) : Option Builtin := names.lookup name.upper

/-- Whether a function ignores its arguments, so that it runs while they are still pending. -/
def isLazy : Builtin → Bool
  | .cnt | .assembler => true
  | _ => false

/-- What the assembler calls itself. -/
def assemblerName : Text := "AS88 (c88as)"

/-- Checks the number of arguments of a call. -/
def checkArity (function : Text) (expected : Arity) (args : List Expr) : Except Cause Unit :=
  if expected.accepts args.length then .ok () else .error (.arity function expected args.length)

/-- Applies a function of one number. -/
def applyToNumber (g : Int64 → Int64) (loc : Location) : List Expr → Except Cause Expr
  | [e] => do return .literal loc (g (← e.asNumber))
  | args => .error (.oneArgument args.length)

/-- The address of an offset into a page: only the upper half of the address space is paged. -/
def codeAddress (page offset : Int64) : Int64 :=
  let low := offset &&& 0x7fff
  if offset &&& 0x8000 != 0 then low ||| (page <<< 15) else low

/-- The bytes of `t` from `start` on, `length` of them, as far as there are any. -/
def subText (t : Text) (start length : Int64) : Text :=
  let n := Int64.ofNat t.length
  let first := Arithmetic.clamp start 0 n
  let last := Arithmetic.clamp (start + length) first n
  t.slice first.toInt.toNat last.toInt.toNat

/-- The position of `pat` in `t` at or after `start`, or -1. -/
def position (t pat : Text) (start : Int64) : Int64 :=
  let start := Arithmetic.clamp start 0 (Int64.ofNat t.length)
  match t.find? pat start.toInt.toNat with
  | some i => Int64.ofNat i
  | none => -1

/-- The texts of a list of expressions, one after the other. -/
def concatTexts : List Expr → Except Cause Text
  | [] => .ok Text.empty
  | e :: rest => do
    let t ← e.asText
    return t ++ (← concatTexts rest)

/-- The number of a list that no other one of it is better than. -/
def best (better : Int64 → Int64 → Bool) (loc : Location) (function : Text) (args : List Expr) :
    Except Cause Expr := do
  checkArity function (.atLeast 1) args
  match ← Expr.asNumbers args with
  | [] => return .literal loc 0
  | v :: vs => return .literal loc (vs.foldl (fun a b => if better b a then b else a) v)

/-- Calls a function within a macro call that was given `macroArgs`. -/
def apply (f : Builtin) (macroArgs : List Expr) (loc : Location) (args : List Expr) :
    Except Cause Expr :=
  match f with
  | .abs => applyToNumber Arithmetic.abs loc args
  | .high => applyToNumber (fun v => (v >>> 8) &&& 0xff) loc args
  | .low => applyToNumber (fun v => v &&& 0xff) loc args
  | .sgn => applyToNumber Arithmetic.sign loc args
  | .assembler => .ok (.quoted loc assemblerName)
  | .max => best (fun a b => b < a) loc "MAX" args
  | .min => best (fun a b => a < b) loc "MIN" args
  | .cnt => do
    checkArity "CNT" (.exactly 0) args
    return .literal loc (Int64.ofNat macroArgs.length)
  | .arg =>
    match args with
    | [e] => do
      let i ← e.asNumber
      if i < 0 then .error (.argumentBounds i)
      else
        match macroArgs[i.toInt.toNat]? with
        | some a => return a
        | none => .error (.argumentBounds i)
    | args => .error (.arity "ARG" (.exactly 1) args.length)
  | .cat => do
    checkArity "CAT" (.atLeast 1) args
    return .quoted loc (← concatTexts args)
  | .len =>
    match args with
    | [e] => do return .literal loc (Int64.ofNat (← e.asText).length)
    | args => .error (.arity "LEN" (.exactly 1) args.length)
  | .caddr =>
    match args with
    | [page, offset] => do
      let page ← page.asNumber
      let offset ← offset.asNumber
      return .literal loc (codeAddress page offset)
    | args => .error (.arity "CADDR" (.exactly 2) args.length)
  | .scp =>
    match args with
    | [a, b] => do
      let a ← a.asText
      let b ← b.asText
      return .literal loc (Expr.ofBool (a == b))
    | args => .error (.arity "SCP" (.exactly 2) args.length)
  | .pos =>
    match args with
    | [t, pat] => do
      let t ← t.asText
      let pat ← pat.asText
      return .literal loc (position t pat 0)
    | [t, pat, start] => do
      let t ← t.asText
      let pat ← pat.asText
      let start ← start.asNumber
      return .literal loc (position t pat start)
    | args => .error (.arity "POS" (.between 2 3) args.length)
  | .sub =>
    match args with
    | [t, start, length] => do
      let t ← t.asText
      let start ← start.asNumber
      let length ← length.asNumber
      return .quoted loc (subText t start length)
    | args => .error (.arity "SUB" (.exactly 3) args.length)

end Builtin

end MacroAsm
