import MacroAsm.Encode.Operand
import MacroAsm.Encode.Run
import MacroAsm.InstructionSet.Table

/-!
# Encoding instructions

An instruction is its opcode followed by the values of its operands. A value that is a number is
written in place, with a warning if it does not fit, and any other value is left to the linker.
-/

namespace MacroAsm

namespace Encode

/-- The low `size` bytes of a number, lowest first. -/
def littleEndian (size : Nat) (v : Int64) : List UInt8 :=
  (List.range size).map fun i => (v.toInt / Nat.pow 256 i % 256).toNat.toUInt8

/-- Whether a number is in the range of an operand. -/
def fits (v : Int64) (imm : Immediate) : Bool :=
  if imm.signed then
    -(Nat.pow 2 (imm.size * 8 - 1) : Int) ≤ v.toInt && v.toInt < Nat.pow 2 (imm.size * 8 - 1)
  else 0 ≤ v.toInt && v.toInt < Nat.pow 2 (imm.size * 8)

/-- The warning for a number that is out of the range of an operand. -/
def truncation (loc : Location) (v : Int64) (imm : Immediate) : Diagnostic :=
  .warn loc ("Value " ++ Text.ofInt64 v ++ " cannot fit inside " ++
    (if imm.signed then "signed " else "") ++ (if imm.size == 2 then "word" else "byte"))

/-- The number an operand value is, if it is one. -/
def number? : Expr → Option Int64
  | .number _ v _ => some v
  | .numeral _ _ => some 0
  | _ => none

/-- How an operand value is written. -/
def operandPiece (value : Expr) (imm : Immediate) : Piece :=
  match number? value with
  | some v => .bytes value.loc (littleEndian imm.size v)
  | none => .token (.immediate value.loc value imm.size imm.signed)

/-- The warning for an operand value, if it does not fit. -/
def operandWarning? (value : Expr) (imm : Immediate) : Option Token :=
  match number? value with
  | some v => if fits v imm then none else some (.message (truncation value.loc v imm))
  | none => none

/-- The shapes with every absolute address read as a vector, if there is one. -/
def vectorCodes? (codes : List OperandCode) : Option (List OperandCode) :=
  if codes.contains .memAbsolute then
    some (codes.map fun c => if c == .memAbsolute then .memVector else c)
  else none

/-- The form for some shapes of operands. An absolute address and a vector are written alike, and only
the forms of the mnemonic tell them apart. -/
def findForm (table : InstructionSet) (mnemonic : Text) (codes : List OperandCode) :
    Except Cause Form :=
  match table.lookup mnemonic (OperandCode.key codes) with
  | .error .illegalOperands =>
    match vectorCodes? codes with
    | some retry => table.lookup mnemonic (OperandCode.key retry)
    | none => .error .illegalOperands
  | result => result

/-- A text with its first byte in upper case. -/
def capitalize (t : Text) : Text :=
  match t.bytes with
  | [] => t
  | b :: rest => (Text.mk [b]).upper ++ ⟨rest⟩

/-- The diagnostic of an instruction that does not exist. -/
def illegal (loc : Location) (c : Cause) : Diagnostic :=
  { Diagnostic.ofCause c loc with text := capitalize c.message }

/-- Encodes an instruction: its opcode and operands, and then the warnings. -/
def instruction (table : InstructionSet) (mnemonic : Text) (d : Dispatch) :
    Except Diagnostic (List Token) := do
  let operands ← Operand.ofExprs d.operands
  match findForm table mnemonic (operands.map Operand.code) with
  | .error c => .error (illegal d.loc c)
  | .ok form =>
    let values := operands.filterMap Operand.value
    if values.length != form.immediates.length then .error (illegal d.loc .illegalOperands)
    else
      let pieces := List.zipWith operandPiece values form.immediates
      let warnings := (List.zipWith operandWarning? values form.immediates).filterMap id
      return Piece.tokens (.bytes d.loc form.code :: pieces) ++ warnings

end Encode

end MacroAsm
