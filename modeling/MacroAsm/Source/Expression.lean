import MacroAsm.Source.Field

/-!
# Reading expressions

The expressions of a syntax tree. The children of an operation are required, and a `null` in a list
of expressions is passed over.
-/

namespace MacroAsm

namespace Source

/-- The types of expression nodes. -/
inductive ExprType where
  | number | string | identifier | register | condition | here | unary | binary | ternary | call
  | absolute | indirect | indexed | displaced | offset
deriving DecidableEq, Repr

/-- The name of each type of expression node. -/
def exprTypes : List (Text × ExprType) :=
  [("Number", .number), ("String", .string), ("Identifier", .identifier),
   ("Register", .register), ("Condition", .condition), ("InstructionLocation", .here),
   ("UnaryOperation", .unary), ("BinaryOperation", .binary), ("TernaryOperation", .ternary),
   ("FunctionCall", .call), ("IndirectAbsolute", .absolute), ("IndirectRegister", .indirect),
   ("IndirectRegisterIndex", .indexed), ("IndirectRegisterDisplace", .displaced),
   ("IndirectRegisterOffset", .offset)]

/-- How a message names what stands in the place of a register. -/
def nodeName : Expr → Text
  | .number .. | .numeral .. => "*ast.Number"
  | .string .. => "*ast.String"
  | .identifier .. => "*ast.Identifier"
  | .fragment .. => "*ast.Fragment"
  | .here .. => "*ast.Here"
  | .unary .. => "*ast.Unary"
  | .binary .. => "*ast.Binary"
  | .ternary .. => "*ast.Ternary"
  | .call .. => "*ast.Call"
  | .register .. => "*ast.Register"
  | .condition .. => "*ast.Condition"
  | .absolute .. => "*ast.IndirectAbsolute"
  | .indirect .. => "*ast.IndirectRegister"
  | .indexed .. => "*ast.IndirectIndex"
  | .displaced .. => "*ast.IndirectDisplace"
  | .offset .. => "*ast.IndirectOffset"

/-- What every node of a tree is read under. -/
structure Setting where
  /-- The file and the including directives of the whole tree. -/
  origin : Location
  /-- Whether the tree is part of an IF, whose text is quoted in its shortest form. -/
  tidy : Bool

/-- Where the shortest form of a JSON text stands: outside of strings, in one, or after a backslash in
one. -/
inductive TidyState where
  | outside | inside | escaped

/-- JSON in its shortest form: no white space between tokens, and the characters that are special to
markup or scripts escaped. -/
def tidyBytes : TidyState → List UInt8 → List UInt8
  | _, [] => []
  | .outside, b :: rest =>
    if b == 32 || b == 9 || b == 10 || b == 13 then tidyBytes .outside rest
    else if b == 34 then b :: tidyBytes .inside rest
    else b :: tidyBytes .outside rest
  | .escaped, b :: rest => b :: tidyBytes .inside rest
  | .inside, 0xE2 :: 0x80 :: b :: rest =>
    if b == 0xA8 then (Text.ofString "\\u2028").bytes ++ tidyBytes .inside rest
    else if b == 0xA9 then (Text.ofString "\\u2029").bytes ++ tidyBytes .inside rest
    else 0xE2 :: 0x80 :: tidyBytes .inside (b :: rest)
  | .inside, b :: rest =>
    if b == 34 then b :: tidyBytes .outside rest
    else if b == 92 then b :: tidyBytes .escaped rest
    else if b == 60 || b == 62 || b == 38 then
      (Text.ofString "\\u00").bytes ++ (Text.ofNatPadded 16 2 b.toNat).bytes ++
        tidyBytes .inside rest
    else b :: tidyBytes .inside rest

/-- A value as it is quoted in a message. -/
def quoteSource (s : Setting) : Json → Text
  | .null => "null"
  | .bool true => "true"
  | .bool false => "false"
  | .number digits => digits
  | .string value => value.quote
  | .array source _ | .object source _ =>
    if s.tidy then ⟨tidyBytes .outside source.text.bytes⟩ else source.text

/-- Reads a number: an integer, or digits that wait for a radix. No digits are the number zero. -/
def readNumber (s : Setting) (loc : Location) (node : List Member) : Except SourceError Expr :=
  match Json.lookup "value" node with
  | none => .error (.invalidNumber loc "null")
  | some .null => .ok (.literal loc 0)
  | some (.string digits) => .ok (if digits.isEmpty then .literal loc 0 else .numeral loc digits)
  | some (.number digits) =>
    match digits.toInt64? 10 with
    | some v => .ok (.literal loc v)
    | none => .error (.invalidNumber loc digits)
  | some j => .error (.invalidNumber loc (quoteSource s j))

/-- Reads an expression, or nothing from `null`. The nesting of the tree bounds the fuel that is
needed. -/
def readExpr (s : Setting) : Nat → Json → Except SourceError (Option Expr)
  | _, .null => .ok none
  | 0, _ => mistyped "expression" "a node"
  | fuel + 1, .object _ node => do
    let optional (key : Text) : Except SourceError (Option Expr) :=
      match Json.lookup key node with
      | none => .ok none
      | some j => readExpr s fuel j
    let type ← typeOf node
    let loc ← locationOf s.origin node
    let child (key : Text) : Except SourceError Expr := do
      match ← optional key with
      | some e => return e
      | none => .error (.missing type key)
    let registerChild (key : Text) : Except SourceError Register := do
      match ← child key with
      | .register r => return r
      | e => .error (.notRegister e.loc (nodeName e))
    match exprTypes.lookup type with
    | none => .error (.unknownExpression loc type)
    | some .number => some <$> readNumber s loc node
    | some .string => do return some (.quoted loc (← textField "value" node))
    | some .identifier => do return some (.identifier loc (← textField "name" node))
    | some .register => do return some (.register ⟨loc, (← textField "name" node).upper⟩)
    | some .condition => do return some (.condition ⟨loc, (← textField "name" node).upper⟩)
    | some .here => return some (.here loc)
    | some .unary => do
      let name ← textField "op" node
      match UnaryOp.ofName? name with
      | none => .error (.unknownUnary name)
      | some op => return some (.unary loc op (← child "value"))
    | some .binary => do
      let name ← textField "op" node
      match BinaryOp.ofName? name with
      | none => .error (.unknownBinary name)
      | some op =>
        let left ← child "left"
        let right ← child "right"
        return some (.binary loc op left right)
    | some .ternary => do
      let test ← child "test"
      let onTrue ← child "onTrue"
      let onFalse ← child "onFalse"
      return some (.ternary loc test onTrue onFalse)
    | some .call => do
      let name ← textField "name" node
      let params ← (← listField "parameters" node).mapM (readExpr s fuel)
      return some (.call loc name (params.filterMap id))
    | some .absolute => do return some (.absolute loc (← child "address"))
    | some .indirect => do return some (.indirect loc (← registerChild "register"))
    | some .indexed => do
      let base ← registerChild "register"
      let index ← registerChild "index"
      return some (.indexed loc base index)
    | some .displaced => do
      let base ← registerChild "register"
      let displace ← child "displace"
      return some (.displaced loc base displace)
    | some .offset => do
      let base ← registerChild "register"
      let value ← child "offset"
      return some (.offset loc base value)
  | _ + 1, _ => mistyped "expression" "a node"

/-- Reads the expressions of a list, passing over `null`. -/
def readExprs (s : Setting) (fuel : Nat) (items : List Json) : Except SourceError (List Expr) := do
  return (← items.mapM (readExpr s fuel)).filterMap id

end Source

end MacroAsm
