import MacroAsm.InstructionSet.OperandCode
import MacroAsm.Text.Blank
import MacroAsm.Text.Quote

/-!
# Instruction forms

A descriptor names one form of an instruction: the mnemonic, the spelling of each operand, and the
opcode in hexadecimal digits. Compiled, it becomes a form that can be matched and encoded.
-/

namespace MacroAsm

/-- One form of an instruction as it is written down. -/
structure Descriptor where
  /-- The mnemonic, in any letter case. -/
  mnemonic : Text
  /-- The spellings of the operands. -/
  operands : List Text
  /-- The opcode in hexadecimal digits. -/
  code : Text
deriving DecidableEq, Inhabited, Repr

/-- One form of an instruction. -/
structure Form where
  /-- The mnemonic in upper case. -/
  mnemonic : Text
  /-- The spellings of the operands. -/
  operands : List Text
  /-- The opcode. -/
  code : List UInt8
  /-- How the values of the operands are written after the opcode, in the order of the operands. -/
  immediates : List Immediate
deriving DecidableEq, Inhabited, Repr

/-- Why a descriptor is not accepted. -/
inductive DescriptorError where
  /-- There is no mnemonic. -/
  | missingMnemonic
  /-- There are more than two operands. -/
  | tooManyOperands (count : Nat)
  /-- The opcode is empty, or not made of pairs of hexadecimal digits. -/
  | invalidCode (code : Text)
  /-- An operand has no meaning. -/
  | unknownOperand (spelling : Text)
  /-- An earlier descriptor has the same mnemonic and the same shapes of operands. -/
  | duplicates (form : Text)
deriving DecidableEq, Inhabited, Repr

namespace DescriptorError

/-- The wording of an error. -/
def message : DescriptorError → Text
  | .missingMnemonic => "missing mnemonic"
  | .tooManyOperands count => "too many operands: " ++ Text.ofNat count
  | .invalidCode code => "invalid code " ++ code.quote
  | .unknownOperand spelling => "unknown operand " ++ spelling.quote
  | .duplicates form => "duplicates " ++ form

end DescriptorError

namespace Form

/-- The form as it is written in a program. -/
def spelling (f : Form) : Text :=
  if f.operands.isEmpty then f.mnemonic else f.mnemonic ++ " " ++ Text.join "," f.operands

/-- The number of bytes an instruction of this form takes. -/
def size (f : Form) : Nat := f.immediates.foldl (fun n i => n + i.size) f.code.length

end Form

namespace Descriptor

/-- The patterns of a list of operands. -/
def patterns : List Text → Except DescriptorError (List OperandPattern)
  | [] => .ok []
  | operand :: rest =>
    match OperandPattern.ofSpelling? operand.trim with
    | none => .error (.unknownOperand operand.trim)
    | some p => do return p :: (← patterns rest)

/-- The form of a descriptor, with its key. -/
def compile (d : Descriptor) : Except DescriptorError (UInt32 × Form) :=
  if d.mnemonic.isEmpty then .error .missingMnemonic
  else if 2 < d.operands.length then .error (.tooManyOperands d.operands.length)
  else
    match d.code.unhex? with
    | none | some ⟨[]⟩ => .error (.invalidCode d.code)
    | some code => do
      let ps ← patterns d.operands
      return (OperandCode.key (ps.map OperandPattern.code),
        { mnemonic := d.mnemonic.upper
          operands := ps.map OperandPattern.spelling
          code := code.bytes
          immediates := ps.filterMap OperandPattern.value })

end Descriptor

end MacroAsm
