import MacroAsm.Diagnostic

/-!
# Expressions

Expressions are evaluated as far as what is known allows, and what is left is an expression again.
Numbers, strings and fragments are values, where evaluation stops; numbers and strings are known
while assembling, while the address that a fragment stands for is only known to the linker.
-/

namespace MacroAsm

/-- The operators with one operand. -/
inductive UnaryOp where
  /-- `^name`: the name made local to the current unit. -/
  | macroLocal
  /-- Logical negation. -/
  | not
  /-- Bitwise complement. -/
  | complement
  /-- Negation. -/
  | negate
  /-- The number itself. -/
  | positive
deriving DecidableEq, Inhabited, Repr

namespace UnaryOp

/-- The grammar's spellings. -/
def spellings : List (Text × UnaryOp) :=
  [("MacroLocalConcat", .macroLocal), ("LogicalNot", .not), ("BitwiseComplement", .complement),
   ("Negate", .negate), ("Positive", .positive)]

/-- The operator with a spelling. -/
def ofName? (name : Text) : Option UnaryOp := spellings.lookup name

/-- The spelling of an operator. -/
def name : UnaryOp → Text
  | .macroLocal => "MacroLocalConcat"
  | .not => "LogicalNot"
  | .complement => "BitwiseComplement"
  | .negate => "Negate"
  | .positive => "Positive"

end UnaryOp

/-- The operators with two operands. -/
inductive BinaryOp where
  /-- `a\b`: two names joined. -/
  | joinNames
  /-- `a\?n`: a name followed by a number in decimal. -/
  | joinDecimal
  /-- `a\%n`: a name followed by a number in hexadecimal. -/
  | joinHex
  /-- The left operand if it is true, or else the right one. -/
  | or
  /-- The left operand if it is false, or else the right one. -/
  | and
  /-- String concatenation. -/
  | concat
  /-- Equality of values. -/
  | equal
  /-- Its negation. -/
  | notEqual
  /-- Bitwise or. -/
  | bitOr
  /-- Bitwise exclusive or. -/
  | bitXor
  /-- Bitwise and. -/
  | bitAnd
  /-- Signed comparisons. -/
  | greater
  | less
  | greaterEqual
  | lessEqual
  /-- Shift to the left. -/
  | shiftLeft
  /-- Shift to the right that keeps the sign. -/
  | shiftRight
  /-- Arithmetic modulo 2^64. -/
  | add
  | subtract
  | multiply
  /-- The quotient rounded toward zero. -/
  | divide
  /-- The remainder with the sign of the left operand. -/
  | modulo
deriving DecidableEq, Inhabited, Repr

namespace BinaryOp

/-- The spelling of an operator in the grammar. -/
def name : BinaryOp → Text
  | .joinNames => "IdentifierConcat"
  | .joinDecimal => "ValueConcat"
  | .joinHex => "HexValueConcat"
  | .or => "LogicalOr"
  | .and => "LogicalAnd"
  | .concat => "Concatinate"
  | .equal => "Equal"
  | .notEqual => "NotEqual"
  | .bitOr => "BitwiseOr"
  | .bitXor => "BitwiseXor"
  | .bitAnd => "BitwiseAnd"
  | .greater => "Greater"
  | .less => "Less"
  | .greaterEqual => "GreaterEqual"
  | .lessEqual => "LessEqual"
  | .shiftLeft => "ShiftLeft"
  | .shiftRight => "ShiftRight"
  | .add => "Add"
  | .subtract => "Subtract"
  | .multiply => "Multiply"
  | .divide => "Divide"
  | .modulo => "Modulo"

/-- Every operator, in the order of the grammar. -/
def all : List BinaryOp :=
  [.joinNames, .joinDecimal, .joinHex, .or, .and, .concat, .equal, .notEqual, .bitOr, .bitXor,
   .bitAnd, .greater, .less, .greaterEqual, .lessEqual, .shiftLeft, .shiftRight, .add, .subtract,
   .multiply, .divide, .modulo]

/-- The operator with a spelling. -/
def ofName? (spelling : Text) : Option BinaryOp := all.find? fun op => op.name == spelling

end BinaryOp

/-- A register operand. -/
structure Register where
  /-- Where it was read. -/
  loc : Location
  /-- Its name in upper case. -/
  name : Text
deriving DecidableEq, Inhabited, Repr

/-- A branch condition operand. -/
structure Condition where
  /-- Where it was read. -/
  loc : Location
  /-- Its name in upper case. -/
  name : Text
deriving DecidableEq, Inhabited, Repr

/-- An expression, each node with the location it was read from. -/
inductive Expr where
  /-- A number. `via` is the name it was resolved through, empty for a literal. -/
  | number (loc : Location) (value : Int64) (via : Text)
  /-- Digits to be read in the radix of the place where they are evaluated. -/
  | numeral (loc : Location) (digits : Text)
  /-- A string. `via` is the name it was resolved through, empty for a literal. -/
  | string (loc : Location) (value via : Text)
  /-- A name not bound to a value yet. -/
  | identifier (loc : Location) (name : Text)
  /-- The address of a label, known to the linker only. Labels differ when their identities do. -/
  | fragment (loc : Location) (id label : Text)
  /-- The address of the current instruction, known to the linker only. -/
  | here (loc : Location)
  /-- A unary operation. -/
  | unary (loc : Location) (op : UnaryOp) (value : Expr)
  /-- A binary operation. -/
  | binary (loc : Location) (op : BinaryOp) (left right : Expr)
  /-- One of two expressions, by the truth of a third. -/
  | ternary (loc : Location) (test onTrue onFalse : Expr)
  /-- A call of a built-in function. -/
  | call (loc : Location) (name : Text) (params : List Expr)
  /-- A register. -/
  | register (r : Register)
  /-- A condition. -/
  | condition (c : Condition)
  /-- Memory at an address, as in `[1234h]`. -/
  | absolute (loc : Location) (address : Expr)
  /-- Memory addressed by a register, as in `[HL]`. -/
  | indirect (loc : Location) (base : Register)
  /-- Memory addressed by a register and an index register, as in `[IX+L]`. -/
  | indexed (loc : Location) (base index : Register)
  /-- Memory addressed by a register and a displacement, as in `[SP+4]`. -/
  | displaced (loc : Location) (base : Register) (displace : Expr)
  /-- Memory in the page of a base register, as in `[BR:12h]`. -/
  | offset (loc : Location) (base : Register) (offset : Expr)
deriving Inhabited, Repr

namespace Expr

/-- Where an expression was read. -/
def loc : Expr → Location
  | .number l _ _ => l
  | .numeral l _ => l
  | .string l _ _ => l
  | .identifier l _ => l
  | .fragment l _ _ => l
  | .here l => l
  | .unary l _ _ => l
  | .binary l _ _ _ => l
  | .ternary l _ _ _ => l
  | .call l _ _ => l
  | .register r => r.loc
  | .condition c => c.loc
  | .absolute l _ => l
  | .indirect l _ => l
  | .indexed l _ _ => l
  | .displaced l _ _ => l
  | .offset l _ _ => l

/-- A literal number. -/
def literal (loc : Location) (value : Int64) : Expr := .number loc value Text.empty

/-- A literal string. -/
def quoted (loc : Location) (value : Text) : Expr := .string loc value Text.empty

/-- Whether evaluation stops at an expression: a number, a string or a fragment. -/
def isValue : Expr → Bool
  | .number .. | .numeral .. | .string .. | .fragment .. => true
  | _ => false

/-- Whether an expression is known while assembling: a number or a string. -/
def isConcrete : Expr → Bool
  | .number .. | .numeral .. | .string .. => true
  | _ => false

mutual

/-- Whether no name in an expression is waiting to be bound. -/
def isResolved : Expr → Bool
  | .identifier .. => false
  | .unary _ _ value => value.isResolved
  | .binary _ _ left right => left.isResolved && right.isResolved
  | .ternary _ test onTrue onFalse => test.isResolved && onTrue.isResolved && onFalse.isResolved
  | .call _ _ params => allResolved params
  | .absolute _ address => address.isResolved
  | .displaced _ _ displace => displace.isResolved
  | .offset _ _ value => value.isResolved
  | _ => true

/-- Whether every expression of a list is resolved. -/
def allResolved : List Expr → Bool
  | [] => true
  | e :: rest => e.isResolved && allResolved rest

end

/-- The name of the kind of an expression. -/
def kind : Expr → Text
  | .number .. | .numeral .. => "Number"
  | .string .. => "String"
  | .identifier .. => "Identifier"
  | .fragment .. => "Fragment"
  | .here .. => "InstructionLocation"
  | .unary .. => "UnaryOperation"
  | .binary .. => "BinaryOperation"
  | .ternary .. => "TernaryOperation"
  | .call .. => "FunctionCall"
  | .register .. => "Register"
  | .condition .. => "Condition"
  | .absolute .. | .indirect .. | .indexed .. | .displaced .. | .offset .. => "IndirectMemory"

/-- A short description of an expression for use in messages. -/
def describe : Expr → Text
  | .number _ value _ => Text.ofInt64 value
  | .numeral _ _ => Text.ofInt64 0
  | .string _ value _ => value.quote
  | .identifier _ name => name
  | .fragment _ _ label => "label " ++ label
  | .register r => "register " ++ r.name
  | .condition c => "condition " ++ c.name
  | e => e.kind

/-- The description of an expression that may be missing. -/
def describe? : Option Expr → Text
  | some e => e.describe
  | none => "nothing"

/-- The kind of an expression that may be missing. -/
def kind? : Option Expr → Text
  | some e => e.kind
  | none => "nothing"

end Expr

end MacroAsm
