import MacroAsm.InstructionSet.Table

/-!
# The S1C88 instruction set

The forms of the S1C88 processor, for each mnemonic the spellings of its operands with the opcode.
-/

namespace MacroAsm

namespace InstructionSet

/-- For each mnemonic, the operands of each form and its opcode. -/
def s1c88Forms : List (String × List (String × String)) :=
  [("ADD", [("A,A", "00"), ("A,B", "01"), ("A,#nn", "02"), ("A,[HL]", "03"),
     ("A,[BR:ll]", "04"), ("A,[hhll]", "05"), ("A,[IX]", "06"), ("A,[IY]", "07"),
     ("A,[IX+dd]", "CE00"), ("A,[IY+dd]", "CE01"), ("A,[IX+L]", "CE02"), ("A,[IY+L]", "CE03")]),
   ("ADC", [("A,A", "08"), ("A,B", "09"), ("A,#nn", "0A"), ("A,[HL]", "0B"),
     ("A,[BR:ll]", "0C"), ("A,[hhll]", "0D"), ("A,[IX]", "0E"), ("A,[IY]", "0F"),
     ("A,[IX+dd]", "CE08"), ("A,[IY+dd]", "CE09"), ("A,[IX+L]", "CE0A"), ("A,[IY+L]", "CE0B")]),
   ("SUB", [("A,A", "10"), ("A,B", "11"), ("A,#nn", "12"), ("A,[HL]", "13"),
     ("A,[BR:ll]", "14"), ("A,[hhll]", "15"), ("A,[IX]", "16"), ("A,[IY]", "17"),
     ("A,[IX+dd]", "CE10"), ("A,[IY+dd]", "CE11"), ("A,[IX+L]", "CE12"), ("A,[IY+L]", "CE13")]),
   ("SBC", [("A,A", "18"), ("A,B", "19"), ("A,#nn", "1A"), ("A,[HL]", "1B"),
     ("A,[BR:ll]", "1C"), ("A,[hhll]", "1D"), ("A,[IX]", "1E"), ("A,[IY]", "1F"),
     ("A,[IX+dd]", "CE18"), ("A,[IY+dd]", "CE19"), ("A,[IX+L]", "CE1A"), ("A,[IY+L]", "CE1B")]),
   ("AND", [("A,A", "20"), ("A,B", "21"), ("A,#nn", "22"), ("A,[HL]", "23"),
     ("A,[BR:ll]", "24"), ("A,[hhll]", "25"), ("A,[IX]", "26"), ("A,[IY]", "27"),
     ("A,[IX+dd]", "CE20"), ("A,[IY+dd]", "CE21"), ("A,[IX+L]", "CE22"), ("A,[IY+L]", "CE23")]),
   ("OR", [("A,A", "28"), ("A,B", "29"), ("A,#nn", "2A"), ("A,[HL]", "2B"), ("A,[BR:ll]", "2C"),
     ("A,[hhll]", "2D"), ("A,[IX]", "2E"), ("A,[IY]", "2F"), ("A,[IX+dd]", "CE28"),
     ("A,[IY+dd]", "CE29"), ("A,[IX+L]", "CE2A"), ("A,[IY+L]", "CE2B")]),
   ("CP", [("A,A", "30"), ("A,B", "31"), ("A,#nn", "32"), ("A,[HL]", "33"), ("A,[BR:ll]", "34"),
     ("A,[hhll]", "35"), ("A,[IX]", "36"), ("A,[IY]", "37"), ("A,[IX+dd]", "CE30"),
     ("A,[IY+dd]", "CE31"), ("A,[IX+L]", "CE32"), ("A,[IY+L]", "CE33")]),
   ("XOR", [("A,A", "38"), ("A,B", "39"), ("A,#nn", "3A"), ("A,[HL]", "3B"),
     ("A,[BR:ll]", "3C"), ("A,[hhll]", "3D"), ("A,[IX]", "3E"), ("A,[IY]", "3F"),
     ("A,[IX+dd]", "CE38"), ("A,[IY+dd]", "CE39"), ("A,[IX+L]", "CE3A"), ("A,[IY+L]", "CE3B")]),
   ("LD", [("A,A", "40"), ("A,B", "41"), ("A,L", "42"), ("A,H", "43"), ("A,[BR:ll]", "44"),
     ("A,[HL]", "45"), ("A,[IX]", "46"), ("A,[IY]", "47"), ("B,A", "48"), ("B,B", "49"),
     ("B,L", "4A"), ("B,H", "4B"), ("B,[BR:ll]", "4C"), ("B,[HL]", "4D"), ("B,[IX]", "4E"),
     ("B,[IY]", "4F"), ("L,A", "50"), ("L,B", "51"), ("L,L", "52"), ("L,H", "53"),
     ("L,[BR:ll]", "54"), ("L,[HL]", "55"), ("L,[IX]", "56"), ("L,[IY]", "57"), ("H,A", "58"),
     ("H,B", "59"), ("H,L", "5A"), ("H,H", "5B"), ("H,[BR:ll]", "5C"), ("H,[HL]", "5D"),
     ("H,[IX]", "5E"), ("H,[IY]", "5F"), ("[IX],A", "60"), ("[IX],B", "61"), ("[IX],L", "62"),
     ("[IX],H", "63"), ("[HL],A", "68"), ("[HL],B", "69"), ("[HL],L", "6A"), ("[HL],H", "6B"),
     ("[IY],A", "70"), ("[IY],B", "71"), ("[IY],L", "72"), ("[IY],H", "73"),
     ("[BR:ll],A", "78"), ("[BR:ll],B", "79"), ("[BR:ll],L", "7A"), ("[BR:ll],H", "7B"),
     ("A,#nn", "B0"), ("B,#nn", "B1"), ("L,#nn", "B2"), ("H,#nn", "B3"), ("BR,#nn", "B4"),
     ("[HL],#nn", "B5"), ("[IX],#nn", "B6"), ("[IY],#nn", "B7"), ("BA,[hhll]", "B8"),
     ("[hhll],BA", "BC"), ("BA,#mmnn", "C4"), ("HL,[hhll]", "B9"), ("[hhll],HL", "BD"),
     ("HL,#mmnn", "C5"), ("IX,[hhll]", "BA"), ("[hhll],IX", "BE"), ("IX,#mmnn", "C6"),
     ("IY,[hhll]", "BB"), ("[hhll],IY", "BF"), ("IY,#mmnn", "C7"), ("A,[IX+dd]", "CE40"),
     ("A,[IY+dd]", "CE41"), ("A,[IX+L]", "CE42"), ("A,[IY+L]", "CE43"), ("B,[IX+dd]", "CE48"),
     ("B,[IY+dd]", "CE49"), ("B,[IX+L]", "CE4A"), ("B,[IY+L]", "CE4B"), ("L,[IX+dd]", "CE50"),
     ("L,[IY+dd]", "CE51"), ("L,[IX+L]", "CE52"), ("L,[IY+L]", "CE53"), ("H,[IX+dd]", "CE58"),
     ("H,[IY+dd]", "CE59"), ("H,[IX+L]", "CE5A"), ("H,[IY+L]", "CE5B"), ("NB,#nn", "CEC4"),
     ("EP,#nn", "CEC5"), ("XP,#nn", "CEC6"), ("YP,#nn", "CEC7"), ("A,NB", "CEC0"),
     ("A,EP", "CEC1"), ("A,XP", "CEC2"), ("A,YP", "CEC3"), ("NB,A", "CEC8"), ("EP,A", "CEC9"),
     ("XP,A", "CECA"), ("YP,A", "CECB"), ("SP,#mmnn", "CF6E"), ("BA,[SP+dd]", "CF70"),
     ("[SP+dd],BA", "CF74")]),
   ("INC", [("A", "80"), ("B", "81"), ("L", "82"), ("H", "83"), ("BR", "84"), ("[BR:ll]", "85"),
     ("[HL]", "86"), ("SP", "87"), ("BA", "90"), ("HL", "91"), ("IX", "92"), ("IY", "93")]),
   ("DEC", [("A", "88"), ("B", "89"), ("L", "8A"), ("H", "8B"), ("BR", "8C"), ("[BR:ll]", "8D"),
     ("[HL]", "8E"), ("SP", "8F"), ("BA", "98"), ("HL", "99"), ("IX", "9A"), ("IY", "9B")]),
   ("PUSH", [("BA", "A0"), ("HL", "A1"), ("IX", "A2"), ("IY", "A3"), ("BR", "A4"), ("EP", "A5"),
     ("IP", "A6"), ("SC", "A7"), ("ALL", "CFB0"), ("ALE", "CFB1")]),
   ("POP", [("BA", "A8"), ("HL", "A9"), ("IX", "AA"), ("IY", "AB"), ("BR", "AC"), ("EP", "AD"),
     ("IP", "AE"), ("SC", "AF"), ("ALL", "CFB4"), ("ALE", "CFB5")]),
   ("CARS", [("C,rr", "E0"), ("NC,rr", "E1"), ("Z,rr", "E2"), ("NZ,rr", "E3"), ("rr", "F0"),
     ("LT,rr", "CEE0"), ("LE,rr", "CEE1"), ("GT,rr", "CEE2"), ("GE,rr", "CEE3"),
     ("V,rr", "CEE4"), ("NV,rr", "CEE5"), ("P,rr", "CEE6"), ("M,rr", "CEE7"), ("F0,rr", "CEF0"),
     ("F1,rr", "CEF1"), ("F2,rr", "CEF2"), ("F3,rr", "CEF3"), ("NF0,rr", "CEF4"),
     ("NF1,rr", "CEF5"), ("NF2,rr", "CEF6"), ("NF3,rr", "CEF7")]),
   ("JRS", [("C,rr", "E4"), ("NC,rr", "E5"), ("Z,rr", "E6"), ("NZ,rr", "E7"), ("rr", "F1"),
     ("LT,rr", "CEE8"), ("LE,rr", "CEE9"), ("GT,rr", "CEEA"), ("GE,rr", "CEEB"),
     ("V,rr", "CEEC"), ("NV,rr", "CEED"), ("P,rr", "CEEE"), ("M,rr", "CEEF"), ("F0,rr", "CEF8"),
     ("F1,rr", "CEF9"), ("F2,rr", "CEFA"), ("F3,rr", "CEFB"), ("NF0,rr", "CEFC"),
     ("NF1,rr", "CEFD"), ("NF2,rr", "CEFE"), ("NF3,rr", "CEFF")]),
   ("CARL", [("C,qqrr", "E8"), ("NC,qqrr", "E9"), ("Z,qqrr", "EA"), ("NZ,qqrr", "EB"),
     ("qqrr", "F2"), ("LT,qqrr", "CFE0"), ("LE,qqrr", "CFE1"), ("GT,qqrr", "CFE2"),
     ("GE,qqrr", "CFE3"), ("V,qqrr", "CFE4"), ("NV,qqrr", "CFE5"), ("P,qqrr", "CFE6"),
     ("M,qqrr", "CFE7")]),
   ("JRL", [("C,qqrr", "EC"), ("NC,qqrr", "ED"), ("Z,qqrr", "EE"), ("NZ,qqrr", "EF"),
     ("qqrr", "F3"), ("LT,qqrr", "CFE8"), ("LE,qqrr", "CFE9"), ("GT,qqrr", "CFEA"),
     ("GE,qqrr", "CFEB"), ("V,qqrr", "CFEC"), ("NV,qqrr", "CFED"), ("P,qqrr", "CFEE"),
     ("M,qqrr", "CFEF")]),
   ("JP", [("HL", "F4"), ("[kk]", "FD")]),
   ("DJR", [("NZ,rr", "F5")]),
   ("SWAP", [("A", "F6"), ("[HL]", "F7")]),
   ("RET", [("", "F8")]),
   ("RETE", [("", "F9")]),
   ("RETS", [("", "FA")]),
   ("CALL", [("[hhll]", "FB")]),
   ("INT", [("[kk]", "FC")]),
   ("NOP", [("", "FF")]),
   ("HALT", [("", "CEAE")]),
   ("SLP", [("", "CEAF")])]

/-- The descriptors of the S1C88 processor. -/
def s1c88Descriptors : List Descriptor :=
  s1c88Forms.flatMap fun (mnemonic, forms) =>
    forms.map fun (operands, code) =>
      { mnemonic, operands := if operands.isEmpty then [] else (Text.ofString operands).splitOn 44,
        code }

/-- The S1C88 instruction set. -/
def s1c88 (similarity : Similarity) : InstructionSet :=
  match compile similarity s1c88Descriptors with
  | .ok t => t
  | .error _ => empty similarity

end InstructionSet

end MacroAsm
