import MacroAsm.Text.Case

/-!
# Operand codes

The shape of an operand as a number: which register or condition it is, how it addresses memory, or
that it is an immediate value. The codes of all operands of an instruction fold into one key.
-/

namespace MacroAsm

/-- The shape of one operand. -/
abbrev OperandCode := UInt32

namespace OperandCode

/-- The codes of the registers. -/
def registers : List (Text × OperandCode) :=
  [("A", 0x01), ("B", 0x02), ("L", 0x03), ("H", 0x04), ("BA", 0x05), ("HL", 0x06), ("IX", 0x07),
   ("IY", 0x08), ("NB", 0x09), ("BR", 0x0A), ("EP", 0x0B), ("IP", 0x0C), ("XP", 0x0D),
   ("YP", 0x0E), ("SC", 0x0F), ("SP", 0x10), ("PC", 0x11), ("ALL", 0x12), ("ALE", 0x13)]

/-- The codes of the conditions. -/
def conditions : List (Text × OperandCode) :=
  [("LT", 0x40), ("LE", 0x41), ("GT", 0x42), ("GE", 0x43), ("V", 0x44), ("NV", 0x45), ("P", 0x46),
   ("M", 0x47), ("C", 0x48), ("NC", 0x49), ("Z", 0x4A), ("NZ", 0x4B), ("F0", 0x50), ("F1", 0x51),
   ("F2", 0x52), ("F3", 0x53), ("NF0", 0x54), ("NF1", 0x55), ("NF2", 0x56), ("NF3", 0x57)]

/-- `[HL]` -/
def memHL : OperandCode := 0x20

/-- `[IX]` -/
def memIX : OperandCode := 0x21

/-- `[IY]` -/
def memIY : OperandCode := 0x22

/-- `[IX+L]` -/
def memIXL : OperandCode := 0x23

/-- `[IY+L]` -/
def memIYL : OperandCode := 0x24

/-- `[SP+dd]` -/
def memSPdd : OperandCode := 0x25

/-- `[IX+dd]` -/
def memIXdd : OperandCode := 0x26

/-- `[IY+dd]` -/
def memIYdd : OperandCode := 0x27

/-- `[BR:ll]` -/
def memBR : OperandCode := 0x28

/-- `[hhll]` -/
def memAbsolute : OperandCode := 0x29

/-- `[kk]` -/
def memVector : OperandCode := 0x2A

/-- An immediate value of any width. -/
def immediate : OperandCode := 0x30

/-- The key of a list of codes: a number with the codes as its digits to the base 256, lowest first,
modulo 2^32. -/
def key : List OperandCode → UInt32
  | [] => 0
  | c :: rest => c + 256 * key rest

end OperandCode

/-- How the value of an operand is written after the opcode. -/
structure Immediate where
  /-- The number of bytes, one or two, low byte first. -/
  size : Nat
  /-- Whether negative values are in range. -/
  signed : Bool
deriving DecidableEq, Inhabited, Repr

/-- What the spelling of an operand in an instruction form stands for. -/
structure OperandPattern where
  /-- The spelling in its canonical form. -/
  spelling : Text
  /-- The shape of the operands it matches. -/
  code : OperandCode
  /-- How the value is written, if the operand has one. -/
  value : Option Immediate
deriving DecidableEq, Inhabited, Repr

namespace OperandPattern

/-- The spellings other than plain registers and conditions. -/
def memory : List OperandPattern :=
  [⟨"[HL]", .memHL, none⟩, ⟨"[IX]", .memIX, none⟩, ⟨"[IY]", .memIY, none⟩,
   ⟨"[IX+L]", .memIXL, none⟩, ⟨"[IY+L]", .memIYL, none⟩,
   ⟨"[SP+dd]", .memSPdd, some ⟨1, true⟩⟩, ⟨"[IX+dd]", .memIXdd, some ⟨1, true⟩⟩,
   ⟨"[IY+dd]", .memIYdd, some ⟨1, true⟩⟩, ⟨"[BR:ll]", .memBR, some ⟨1, false⟩⟩,
   ⟨"[kk]", .memVector, some ⟨1, false⟩⟩, ⟨"[hhll]", .memAbsolute, some ⟨2, false⟩⟩,
   ⟨"rr", .immediate, some ⟨1, true⟩⟩, ⟨"qqrr", .immediate, some ⟨2, true⟩⟩,
   ⟨"#nn", .immediate, some ⟨1, false⟩⟩, ⟨"#mmnn", .immediate, some ⟨2, false⟩⟩]

/-- What a spelling stands for. Registers and conditions may be in any letter case. -/
def ofSpelling? (spelling : Text) : Option OperandPattern :=
  match memory.find? fun p => p.spelling == spelling with
  | some p => some p
  | none =>
    let name := spelling.upper
    match OperandCode.registers.lookup name with
    | some code => some ⟨name, code, none⟩
    | none => (OperandCode.conditions.lookup name).map fun code => ⟨name, code, none⟩

end OperandPattern

end MacroAsm
