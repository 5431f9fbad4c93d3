import MacroAsm.Expr.Basic
import MacroAsm.InstructionSet.OperandCode

/-!
# Operands

An operand expression reduced to the shape that an instruction form matches and the value, if any,
that is written after the opcode.
-/

namespace MacroAsm

/-- An operand of an instruction. -/
structure Operand where
  /-- Its shape. -/
  code : OperandCode
  /-- The value written after the opcode, if it has one. -/
  value : Option Expr
deriving Inhabited

namespace Operand

/-- The shape of an operand by how it is written. Whatever is neither a register, nor a condition, nor
memory is an immediate value. -/
def ofExpr : Expr → Except Diagnostic Operand
  | .register r =>
    match OperandCode.registers.lookup r.name with
    | some code => .ok ⟨code, none⟩
    | none => .error (.fail r.loc ("Cannot match register " ++ r.name))
  | .condition c =>
    match OperandCode.conditions.lookup c.name with
    | some code => .ok ⟨code, none⟩
    | none => .error (.fail c.loc ("Cannot match condition " ++ c.name))
  | .indirect loc base =>
    if base.name == "HL" then .ok ⟨.memHL, none⟩
    else if base.name == "IX" then .ok ⟨.memIX, none⟩
    else if base.name == "IY" then .ok ⟨.memIY, none⟩
    else .error (.fail loc ("Cannot access memory with register " ++ base.name))
  | .indexed loc base index =>
    if index.name != "L" then .error (.fail loc ("Invalid offset register " ++ index.name))
    else if base.name == "IX" then .ok ⟨.memIXL, none⟩
    else if base.name == "IY" then .ok ⟨.memIYL, none⟩
    else .error (.fail loc ("Invalid index register " ++ base.name))
  | .displaced loc base displace =>
    if base.name == "SP" then .ok ⟨.memSPdd, some displace⟩
    else if base.name == "IX" then .ok ⟨.memIXdd, some displace⟩
    else if base.name == "IY" then .ok ⟨.memIYdd, some displace⟩
    else .error (.fail loc ("Invalid index register " ++ base.name))
  | .offset loc base value =>
    if base.name == "BR" then .ok ⟨.memBR, some value⟩
    else .error (.fail loc ("Invalid access base register " ++ base.name))
  | .absolute _ address => .ok ⟨.memAbsolute, some address⟩
  | e => .ok ⟨.immediate, some e⟩

/-- The operands of a list of expressions, or the first failure, located at its expression. -/
def ofExprs : List Expr → Except Diagnostic (List Operand)
  | [] => .ok []
  | e :: rest =>
    match ofExpr e with
    | .error d => .error (d.locate e.loc)
    | .ok o => do return o :: (← ofExprs rest)

end Operand

end MacroAsm
