import MacroAsm.Eval.Builtin
import MacroAsm.Eval.State

/-!
# Evaluating expressions

Evaluation is partial. A name that is not bound is declared ahead in the innermost frame and stays in
the result, and arithmetic over what only the linker knows stays arithmetic, so the result may be
evaluated again once more is known. Names are followed through the values they are bound to; a value
that leads back to a name being followed is a circular definition.
-/

namespace MacroAsm

/-- What surrounds an expression beside the scope. -/
structure Surroundings where
  /-- The name of the unit, which the caret puts in front of names. -/
  unit : Text
  /-- The arguments of the enclosing macro call. -/
  args : List Expr
deriving Inhabited

namespace Eval

/-- The value with the name it was resolved through. -/
def tag (name : Text) : Expr → Expr
  | .number loc value _ => .number loc value name
  | .string loc value _ => .string loc value name
  | e => e

/-- The name that follows in building a name out of a number. -/
def suffix (op : BinaryOp) (n : Int64) : Text :=
  Text.ofIntBase (if op == .joinHex then 16 else 10) n.toInt

/-- Applies a unary operator to a value that is known. -/
def applyUnary (op : UnaryOp) (loc : Location) (e : Expr) : Except Cause Expr :=
  match op with
  | .not => do return .literal loc (Expr.ofBool (!(← e.asTruth)))
  | .complement => do return .literal loc (~~~(← e.asNumber))
  | .negate => do return .literal loc (-(← e.asNumber))
  | .positive | .macroLocal => do return .literal loc (← e.asNumber)

/-- Applies a binary operator to two values that are known. -/
def applyBinary (op : BinaryOp) (loc : Location) (left right : Expr) : Except Cause Expr :=
  match op with
  | .equal => .ok (.literal loc (Expr.ofBool (left.similar right)))
  | .notEqual => .ok (.literal loc (Expr.ofBool (!left.similar right)))
  | .concat => do
    let l ← left.asText
    let r ← right.asText
    return .quoted loc (l ++ r)
  | op => do
    let l ← left.asNumber
    let r ← right.asNumber
    return .literal loc (← Arithmetic.apply op l r)

/-- Reads digits in the radix of the scope. -/
def readNumeral (loc : Location) (digits : Text) : Act Expr := do
  let radix := (← Act.scope).radix
  match digits.toInt64? radix with
  | some v => return .literal loc v
  | none => Act.raise (.numeral digits radix)

mutual

/-- Evaluates an expression, given how a name is resolved. Where `propagate` is false names are left
alone, except where a number is needed to build a name. -/
def flattenWith (u : Surroundings) (resolve : Location → Text → Act Expr) :
    Expr → Bool → Act Expr
  | .numeral loc digits, _ => readNumeral loc digits
  | .identifier loc name, propagate =>
    if propagate then resolve loc name else return .identifier loc name
  | .unary loc .macroLocal value, propagate => do
    match ← flattenWith u resolve value false with
    | .identifier _ name =>
      let name := u.unit ++ "." ++ name
      if propagate then resolve loc name else return .identifier loc name
    | e => Act.raise (.caretOperand e.describe)
  | .unary loc op value, propagate => do
    let v ← flattenWith u resolve value propagate
    if v.isConcrete then Act.lift (applyUnary op loc v) else return .unary loc op v
  | .binary loc .joinNames left right, propagate => do
    match ← flattenWith u resolve left false with
    | .identifier _ l =>
      match ← flattenWith u resolve right false with
      | .identifier _ r =>
        if propagate then resolve loc (l ++ r) else return .identifier loc (l ++ r)
      | e => Act.raise (.concatOperand BinaryOp.joinNames.name "right" e.describe)
    | e => Act.raise (.concatOperand BinaryOp.joinNames.name "left" e.describe)
  | .binary loc .joinDecimal left right, propagate => do
    match ← flattenWith u resolve left false with
    | .identifier l name =>
      let r ← flattenWith u resolve right true
      if r.isConcrete then
        let name := name ++ suffix .joinDecimal (← Act.lift r.asNumber)
        if propagate then resolve loc name else return .identifier loc name
      else return .binary loc .joinDecimal (.identifier l name) r
    | e => Act.raise (.concatOperand BinaryOp.joinDecimal.name "left" e.describe)
  | .binary loc .joinHex left right, propagate => do
    match ← flattenWith u resolve left false with
    | .identifier l name =>
      let r ← flattenWith u resolve right true
      if r.isConcrete then
        let name := name ++ suffix .joinHex (← Act.lift r.asNumber)
        if propagate then resolve loc name else return .identifier loc name
      else return .binary loc .joinHex (.identifier l name) r
    | e => Act.raise (.concatOperand BinaryOp.joinHex.name "left" e.describe)
  | .binary loc .or left right, propagate => do
    let l ← flattenWith u resolve left propagate
    if l.isConcrete then
      if ← Act.lift l.asTruth then return l else flattenWith u resolve right propagate
    else
      let r ← flattenWith u resolve right propagate
      return .binary loc .or l r
  | .binary loc .and left right, propagate => do
    let l ← flattenWith u resolve left propagate
    if l.isConcrete then
      if ← Act.lift l.asTruth then flattenWith u resolve right propagate else return l
    else
      let r ← flattenWith u resolve right propagate
      return .binary loc .and l r
  | .binary loc op left right, propagate => do
    let l ← flattenWith u resolve left propagate
    let r ← flattenWith u resolve right propagate
    if l.isConcrete && r.isConcrete then Act.lift (applyBinary op loc l r)
    else return .binary loc op l r
  | .ternary loc test onTrue onFalse, propagate => do
    let t ← flattenWith u resolve test propagate
    if t.isConcrete then
      if ← Act.lift t.asTruth then flattenWith u resolve onTrue propagate
      else flattenWith u resolve onFalse propagate
    else
      let a ← flattenWith u resolve onTrue propagate
      let b ← flattenWith u resolve onFalse propagate
      return .ternary loc t a b
  | .call loc name params, propagate =>
    match Builtin.ofName? name with
    | none => Act.raise (.unknownFunction name)
    | some f => do
      let args ← flattenAll u resolve params propagate
      if f.isLazy || args.all Expr.isConcrete then Act.lift (f.apply u.args loc args)
      else return .call loc name args
  | .absolute loc address, propagate => do
    return .absolute loc (← flattenWith u resolve address propagate)
  | .displaced loc base displace, propagate => do
    return .displaced loc base (← flattenWith u resolve displace propagate)
  | .offset loc base value, propagate => do
    return .offset loc base (← flattenWith u resolve value propagate)
  | .number loc value via, _ => return .number loc value via
  | .string loc value via, _ => return .string loc value via
  | .fragment loc id label, _ => return .fragment loc id label
  | .here loc, _ => return .here loc
  | .register r, _ => return .register r
  | .condition c, _ => return .condition c
  | .indirect loc base, _ => return .indirect loc base
  | .indexed loc base index, _ => return .indexed loc base index

/-- Evaluates the expressions of a list. -/
def flattenAll (u : Surroundings) (resolve : Location → Text → Act Expr) :
    List Expr → Bool → Act (List Expr)
  | [], _ => return []
  | e :: rest, propagate => do
    let v ← flattenWith u resolve e propagate
    let vs ← flattenAll u resolve rest propagate
    return v :: vs

end

/-- The symbol of a name, which from now on counts as used. A name that no frame binds is declared
ahead in the innermost one. -/
def request (loc : Location) (name : Text) : Act Symbol := do
  let scope ← Act.scope
  match scope.find? name with
  | some sym =>
    Act.setScope (scope.modify name fun s => { s with used := true })
    return sym
  | none =>
    let scope ← Act.lift (scope.declareLocal name)
    Act.setScope (scope.modify name fun s => { s with loc, frozen := true, used := true })
    return { loc, frozen := true }

/-- Resolves a name, given how the value it is bound to is evaluated. `guard` lists the names being
followed; following one of them again is an error. -/
def resolveOnce (evaluate : Expr → Act Expr) (guard : List Text) (loc : Location) (name : Text) :
    Act Expr :=
  match guard.dropWhile (· != name) with
  | [] => do
    let sym ← request loc name
    if sym.isMacro then Act.raise (.macroValue name)
    else
      match sym.value with
      | some value => do
        let v ← evaluate value
        return tag name v
      | none => return .identifier loc name
  | chain =>
    Act.report (.fatal loc ("Circular reference " ++ Text.join "->" (chain ++ [name])))

/-- Resolves a name through the values it leads to. No name is followed twice, so the number of names that
are bound bounds the fuel that is needed. -/
def resolve (u : Surroundings) : Nat → List Text → Location → Text → Act Expr
  | 0, guard, loc, name => resolveOnce (fun _ => return .identifier loc name) guard loc name
  | fuel + 1, guard, loc, name =>
    resolveOnce (fun value => flattenWith u (resolve u fuel (guard ++ [name])) value true) guard loc
      name

/-- A number of names that resolving cannot exceed. -/
def resolveFuel (s : Scope) : Nat :=
  (s.inner.flatMap Frame.entries).length + s.root.entries.length + 1

/-- Evaluates an expression while the names of `guard` are being defined. -/
def flattenGuarded (u : Surroundings) (e : Expr) (guard : List Text) : Act Expr := do
  flattenWith u (resolve u (resolveFuel (← Act.scope)) guard) e true

/-- Evaluates an expression. -/
def flatten (u : Surroundings) (e : Expr) : Act Expr := flattenGuarded u e []

/-- Builds the names in an expression and leaves them unresolved. -/
def nameOnly (u : Surroundings) (e : Expr) : Act Expr := do
  flattenWith u (resolve u (resolveFuel (← Act.scope)) []) e false

/-- Counts an expression that still waits for a name, or refuses it. -/
def settle (deferrable : Bool) (e : Expr) : Act Expr := do
  if e.isResolved then return e
  else if deferrable then
    modify fun s => { s with deferred := s.deferred + 1 }
    return e
  else Act.raise (.unresolved e.describe)

/-- Evaluates an expression. One that still waits for a name is counted, or refused if it cannot be
deferred. -/
def evaluate (u : Surroundings) (deferrable : Bool) (e : Expr) : Act Expr := do
  settle deferrable (← flatten u e)

/-- Evaluates the value that is being bound to `name`. -/
def evaluateDefinition (u : Surroundings) (name : Text) (e : Expr) : Act Expr := do
  settle true (← flattenGuarded u e [name])

/-- Evaluates the expressions of a list. -/
def evaluateAll (u : Surroundings) (deferrable : Bool) : List Expr → Act (List Expr)
  | [] => return []
  | e :: rest => do
    let v ← evaluate u deferrable e
    let vs ← evaluateAll u deferrable rest
    return v :: vs

/-- The name an expression spells, without resolving it. -/
def nameOf (u : Surroundings) (e : Expr) : Act Text := do
  match ← nameOnly u e with
  | .identifier _ name => return name
  | v => Act.raise (.notName v.describe)

/-- The names that the expressions of a list spell. -/
def namesOf (u : Surroundings) : List Expr → Act (List Text)
  | [] => return []
  | e :: rest => do
    let n ← nameOf u e
    let ns ← namesOf u rest
    return n :: ns

/-- Builds the names in the expressions of a list. -/
def nameOnlyAll (u : Surroundings) : List Expr → Act (List Expr)
  | [] => return []
  | e :: rest => do
    let v ← nameOnly u e
    let vs ← nameOnlyAll u rest
    return v :: vs

end Eval

end MacroAsm
