import MacroAsm.Proofs.Encode.Content
import MacroAsm.Proofs.InstructionSet.Lookup

/-!
# Encoding instructions

An instruction is encoded by the form of the descriptor that has its mnemonic and the codes of its operands, or, if
there is none, the codes with absolute addresses read as vectors (`Encode.exists_descriptor_of_findForm`). The output
holds the opcode and then each value as it is written (`Encode.Writes`), takes as many bytes as the form does, and ends
with a warning for each number that does not fit. A number that fits can be read back from its bytes
(`Encode.instruction_exact`).
-/

namespace MacroAsm

namespace Immediate

/-- The integers that an operand value may be. -/
def InRange (imm : Immediate) (x : Int) : Prop :=
  if imm.signed then -(2 ^ (8 * imm.size - 1)) ≤ x ∧ x < 2 ^ (8 * imm.size - 1) else 0 ≤ x ∧ x < 2 ^ (8 * imm.size)

instance (imm : Immediate) (x : Int) : Decidable (imm.InRange x) := by
  unfold InRange
  infer_instance

/-- The integer that bytes stand for, the lowest first: signed values are in two's complement. -/
def decode (imm : Immediate) (bytes : List UInt8) : Int :=
  if imm.signed then (Encode.valueOf bytes : Int).bmod (2 ^ (8 * imm.size)) else Encode.valueOf bytes

/-- An integer in range is read back from what is left of it in the size of the value. -/
theorem decode_of_inRange {imm : Immediate} (hsize : 0 < imm.size) {bytes : List UInt8} {x : Int}
    (hbytes : (Encode.valueOf bytes : Int) = x % 2 ^ (8 * imm.size)) (hx : imm.InRange x) : imm.decode bytes = x := by
  rw [InRange] at hx
  rw [decode, hbytes]
  split
  · rename_i hsigned
    rw [if_pos hsigned] at hx
    obtain ⟨bits, hbits⟩ : ∃ bits, 8 * imm.size = bits + 1 := ⟨8 * imm.size - 1, by omega⟩
    rw [hbits, Nat.add_sub_cancel] at hx
    have hmod : (x % 2 ^ (8 * imm.size)).bmod (2 ^ (8 * imm.size)) = x.bmod (2 ^ (8 * imm.size)) := by
      exact_mod_cast Int.emod_bmod x (2 ^ (8 * imm.size))
    rw [hmod, hbits]
    have hpow : ((2 ^ (bits + 1) : Nat) : Int) = 2 * 2 ^ bits := by
      push_cast
      ring
    -- the signed range is that of the remainders nearest to zero
    apply Int.bmod_eq_of_le
    · omega
    · omega
  · rename_i hsigned
    rw [if_neg hsigned] at hx
    exact Int.emod_eq_of_lt hx.1 hx.2

end Immediate

namespace Operand

/-- An operand has a code that is a digit. -/
theorem isDigit_of_ofExpr {e : Expr} {o : Operand} (h : ofExpr e = .ok o) : o.code.IsDigit := by
  cases e with
  | register r =>
    rw [ofExpr] at h
    split at h
    · rename_i c hc
      cases h
      exact OperandCode.isDigit_of_registers hc
    · cases h
  | condition c =>
    rw [ofExpr] at h
    split at h
    · rename_i c hc
      cases h
      exact OperandCode.isDigit_of_conditions hc
    · cases h
  | indirect | indexed | displaced | offset =>
    -- the register names tell the codes
    rw [ofExpr] at h
    split_ifs at h <;> cases h <;> dsimp only <;> decide
  | _ =>
    cases h
    dsimp only
    decide

/-- Operands have codes that are digits. -/
theorem isDigit_of_ofExprs {es : List Expr} {operands : List Operand} (h : ofExprs es = .ok operands) {c : OperandCode}
    (hc : c ∈ operands.map code) : c.IsDigit := by
  induction es generalizing operands with
  | nil =>
    cases h
    cases hc
  | cons e rest ih =>
    rw [ofExprs] at h
    split at h
    · cases h
    · rename_i o ho
      obtain ⟨more, hmore, heq⟩ := Except.bind_eq_ok_iff.1 h
      cases heq
      rcases List.mem_cons.1 hc with rfl | hc
      · exact isDigit_of_ofExpr ho
      · exact ih hmore hc

end Operand

namespace Encode

/-- What an operand value is written as. -/
inductive Writes : Expr × Immediate → List Content → Prop where
  /-- A number: so many bytes, the lowest first, that spell what is left of it in that size. -/
  | number {value : Expr} {imm : Immediate} {n : Int64} {bytes : List UInt8} (hn : number? value = some n)
    (hlength : bytes.length = imm.size) (hbytes : (valueOf bytes : Int) = n.toInt % 2 ^ (8 * imm.size)) :
    Writes (value, imm) (bytes.map .byte)
  /-- Anything else: left to the linker. -/
  | symbol {value : Expr} {imm : Immediate} (hn : number? value = none) :
    Writes (value, imm) [.symbol (.immediate value.loc value imm.size imm.signed)]

/-- A value that is a number can be read back from what it is written as. -/
def Decodes (p : Expr × Immediate) (contents : List Content) : Prop :=
  ∀ n, number? p.1 = some n → ∃ bytes : List UInt8, contents = bytes.map .byte ∧ p.2.decode bytes = n.toInt

/-- The warning for a number that is out of range. -/
def Warns (p : Expr × Immediate) (t : Token) : Prop :=
  ∃ n, number? p.1 = some n ∧ t = .message (truncation p.1.loc n p.2)

/-- Whether a value is a number that is out of range. -/
def isOutOfRange (p : Expr × Immediate) : Bool :=
  match number? p.1 with
  | some n => !decide (p.2.InRange n.toInt)
  | none => false

/-- The range check is that of the operand value. -/
theorem fits_iff {n : Int64} {imm : Immediate} : fits n imm = true ↔ imm.InRange n.toInt := by
  rw [fits, Immediate.InRange, Nat.mul_comm, Nat.pow_eq, Nat.pow_eq]
  split
  · rw [Bool.and_eq_true, decide_eq_true_eq, decide_eq_true_eq]
    push_cast
    rfl
  · rw [Bool.and_eq_true, decide_eq_true_eq, decide_eq_true_eq]
    push_cast
    rfl

/-- An instruction as it is encoded by a form. -/
structure Assembles (form : Form) (values : List Expr) (groups : List (List Content)) (ts : List Token) : Prop where
  /-- There is a value for each place of the form. -/
  length : values.length = form.immediates.length
  /-- Each value is written as the form says. -/
  writes : List.Forall₂ Writes (values.zip form.immediates) groups
  /-- The output holds the opcode and the values, in order. -/
  contents : (Token.products ts).flatMap Token.contents = form.code.map .byte ++ groups.flatten
  /-- Neighbouring bytes are in one token. -/
  merged : Token.Merged (Token.products ts)
  /-- It takes as many bytes as the form does. -/
  size : ((Token.products ts).map Token.width).sum = form.size
  /-- A warning for each number that is out of range is at the end. -/
  warnings : ∃ warnings, ts = Token.products ts ++ warnings ∧
    List.Forall₂ Warns ((values.zip form.immediates).filter isOutOfRange) warnings
  /-- Without a warning each number can be read back. -/
  decodes : (∀ t ∈ ts, t.isMessage = false) → List.Forall₂ Decodes (values.zip form.immediates) groups

/-- A value is written in the size of its place. -/
theorem width_operandPiece (value : Expr) (imm : Immediate) : (operandPiece value imm).width = imm.size := by
  rw [operandPiece]
  split
  · exact length_littleEndian _ _
  · rfl

/-- What a value is written as. -/
theorem writes_operandPiece (value : Expr) (imm : Immediate) :
    Writes (value, imm) (operandPiece value imm).contents := by
  rw [operandPiece]
  cases hn : number? value with
  | some n => exact .number hn (length_littleEndian _ _) (valueOf_littleEndian _ _)
  | none => exact .symbol hn

/-- A value that is a token is left to the linker. -/
theorem eq_immediate_of_operandPiece {value : Expr} {imm : Immediate} {t : Token}
    (h : operandPiece value imm = .token t) : t = .immediate value.loc value imm.size imm.signed := by
  rw [operandPiece] at h
  split at h
  · cases h
  · cases h
    rfl

/-- A number that is out of range is warned of. -/
theorem exists_operandWarning? {p : Expr × Immediate} (h : isOutOfRange p = true) :
    ∃ t, operandWarning? p.1 p.2 = some t ∧ Warns p t := by
  rw [isOutOfRange] at h
  split at h
  · rename_i n hn
    rw [Bool.not_eq_true', decide_eq_false_iff_not, ← fits_iff] at h
    refine ⟨_, ?_, n, hn, rfl⟩
    rw [operandWarning?, hn]
    exact if_neg h
  · cases h

/-- Other values are not. -/
theorem operandWarning?_eq_none {p : Expr × Immediate} (h : isOutOfRange p = false) :
    operandWarning? p.1 p.2 = none := by
  cases hn : number? p.1 with
  | none => rw [operandWarning?, hn]
  | some n =>
    have hin : fits n p.2 := by
      rw [isOutOfRange, hn] at h
      rwa [Bool.not_eq_false', decide_eq_true_eq, ← fits_iff] at h
    rw [operandWarning?, hn]
    exact if_pos hin

/-- Without a number out of range each number can be read back. -/
theorem decodes_of_writes {groups : List (List Content)} {ps : List (Expr × Immediate)}
    (h : List.Forall₂ Writes ps groups) (hsize : ∀ p ∈ ps, 0 < p.2.size)
    (hrange : ∀ p ∈ ps, isOutOfRange p = false) :
    List.Forall₂ Decodes ps groups := by
  induction h with
  | nil => exact .nil
  | cons hwrites _ ih =>
    rw [List.forall_mem_cons] at hsize hrange
    refine .cons (fun n hn => ?_) (ih hsize.2 hrange.2)
    cases hwrites with
    | number hn' _ hbytes =>
      obtain rfl := Option.some.inj (hn.symm.trans hn')
      have hin := hrange.1
      rw [isOutOfRange, hn] at hin
      refine ⟨_, rfl, Immediate.decode_of_inRange hsize.1 hbytes ?_⟩
      simpa using hin
    | symbol hn' =>
      rw [hn'] at hn
      cases hn

/-- The size of a form is that of its opcode and its values. -/
theorem size_eq_sum (form : Form) : form.size = form.code.length + (form.immediates.map Immediate.size).sum := by
  have hfold : ∀ (imms : List Immediate) (n : Nat),
      imms.foldl (fun n i => n + i.size) n = n + (imms.map Immediate.size).sum := by
    intro imms
    induction imms with
    | nil => exact fun n => rfl
    | cons imm imms ih =>
      intro n
      rw [List.foldl_cons, ih, List.map_cons, List.sum_cons, Nat.add_assoc]
  exact hfold _ _

/-- The pieces of an instruction: the opcode and the values. -/
def piecesOf (loc : Location) (form : Form) (values : List Expr) : List Piece :=
  .bytes loc form.code :: (values.zip form.immediates).map fun p => operandPiece p.1 p.2

/-- The warnings of an instruction. -/
def warningsOf (form : Form) (values : List Expr) : List Token :=
  (values.zip form.immediates).filterMap fun p => operandWarning? p.1 p.2

section Pieces

variable {loc : Location} {form : Form} {values : List Expr}

/-- A token among the pieces of an instruction is left to the linker. -/
theorem exists_of_mem_piecesOf {t : Token} (h : Piece.token t ∈ piecesOf loc form values) :
    ∃ l value size signed, t = .immediate l value size signed := by
  rcases List.mem_cons.1 h with h | h
  · cases h
  · obtain ⟨p, -, hp⟩ := List.mem_map.1 h
    exact ⟨_, _, _, _, eq_immediate_of_operandPiece hp⟩

/-- Without the warnings, an instruction is its pieces. -/
theorem products_instruction (loc : Location) (form : Form) (values : List Expr) :
    Token.products (Piece.tokens (piecesOf loc form values) ++ warningsOf form values) =
      Piece.tokens (piecesOf loc form values) := by
  have hpieces : ∀ t ∈ Piece.tokens (piecesOf loc form values), t.isMessage = false := by
    intro t ht
    rcases mem_tokensFrom ht with ⟨l, data, rfl⟩ | ht
    · rfl
    · obtain ⟨l, value, size, signed, rfl⟩ := exists_of_mem_piecesOf ht
      rfl
  have hwarnings : ∀ t ∈ warningsOf form values, t.isMessage = true := by
    intro t ht
    obtain ⟨p, -, hp⟩ := List.mem_filterMap.1 ht
    obtain ⟨l, text, rfl⟩ := exists_of_operandWarning? hp
    rfl
  rw [Token.products_append, Token.products_eq_self hpieces, Token.products_eq_nil hwarnings, List.append_nil]

/-- The pieces of an instruction are as long as the form. -/
theorem sum_width_piecesOf (loc : Location) (hlength : values.length = form.immediates.length) :
    ((piecesOf loc form values).map Piece.width).sum = form.size := by
  have hwidths : ((values.zip form.immediates).map fun p => operandPiece p.1 p.2).map Piece.width =
      form.immediates.map Immediate.size := by
    have hsizes : Piece.width ∘ (fun p : Expr × Immediate => operandPiece p.1 p.2) = Immediate.size ∘ Prod.snd :=
      funext fun p => width_operandPiece p.1 p.2
    rw [List.map_map, hsizes, ← List.map_map, List.map_snd_zip (Nat.le_of_eq hlength.symm)]
  rw [piecesOf, List.map_cons, List.sum_cons, hwidths, size_eq_sum]
  rfl

/-- What is written by a form is the instruction that the form stands for. -/
theorem exists_assembles (hsize : ∀ imm ∈ form.immediates, 0 < imm.size)
    (hlength : values.length = form.immediates.length) (loc : Location) :
    ∃ groups, Assembles form values groups
      (Piece.tokens (piecesOf loc form values) ++ warningsOf form values) := by
  have hwrites : List.Forall₂ Writes (values.zip form.immediates)
      ((values.zip form.immediates).map fun p => (operandPiece p.1 p.2).contents) :=
    List.forall₂_map_right_iff.2 (List.forall₂_same.2 fun p _ => writes_operandPiece p.1 p.2)
  have hwarned : List.Forall₂ Warns ((values.zip form.immediates).filter isOutOfRange) (warningsOf form values) :=
    forall₂_filterMap (fun p => exists_operandWarning?) (fun p => operandWarning?_eq_none) _
  refine ⟨_, hlength, hwrites, ?_, ?_, ?_, ⟨_, by rw [products_instruction], hwarned⟩, fun hnone => ?_⟩
  · rw [products_instruction, Piece.tokens, Piece.flatMap_contents_tokensFrom, piecesOf, List.flatMap_cons,
      List.flatMap_map, List.flatMap_def]
    rfl
  · rw [products_instruction]
    refine Piece.merged_tokensFrom _ _ fun t ht => ?_
    obtain ⟨l, value, size, signed, rfl⟩ := exists_of_mem_piecesOf ht
    rfl
  · rw [products_instruction, Piece.tokens, Piece.sum_width_tokensFrom, sum_width_piecesOf _ hlength,
      List.length_nil, Nat.zero_add]
  · refine decodes_of_writes hwrites (fun p hp => hsize p.2 (List.of_mem_zip hp).2) fun p hp => ?_
    -- a value out of range would be warned of
    by_contra hout
    obtain ⟨t, ht, n, -, rfl⟩ := exists_operandWarning? (Bool.not_eq_false _ ▸ hout)
    have hmessage := hnone _ (List.mem_append_right _ (List.mem_filterMap.2 ⟨p, hp, ht⟩))
    cases hmessage

end Pieces

/-- An instruction that is encoded has operands, a form is found for their codes, and there is a value for each place
of the form. -/
theorem instruction_eq_ok {table : InstructionSet} {mnemonic : Text} {d : Dispatch} {ts : List Token}
    (h : instruction table mnemonic d = .ok ts) :
    ∃ operands form, Operand.ofExprs d.operands = .ok operands ∧
      findForm table mnemonic (operands.map Operand.code) = .ok form ∧
      (operands.filterMap Operand.value).length = form.immediates.length ∧
      ts = Piece.tokens (piecesOf d.loc form (operands.filterMap Operand.value)) ++
        warningsOf form (operands.filterMap Operand.value) := by
  rw [instruction] at h
  obtain ⟨operands, hoperands, h⟩ := Except.bind_eq_ok_iff.1 h
  split at h
  · cases h
  · rename_i form hform
    dsimp only at h
    split at h
    · cases h
    · rename_i hlength
      cases h
      refine ⟨operands, form, hoperands, hform, by simpa using hlength, ?_⟩
      rw [piecesOf, warningsOf, ← List.map_uncurry_zip_eq_zipWith, ← List.map_uncurry_zip_eq_zipWith,
        List.filterMap_map]
      rfl

/-- A code with an absolute address read as a vector. -/
def vectorCode (c : OperandCode) : OperandCode := if c == .memAbsolute then .memVector else c

/-- A code is a digit in either reading. -/
theorem isDigit_vectorCode {c : OperandCode} (hc : c.IsDigit) : (vectorCode c).IsDigit := by
  rw [vectorCode]
  split
  · decide
  · exact hc

/-- The form that is found is that of the descriptor with the mnemonic and the codes, or, if there is none, with the
codes in which absolute addresses are read as vectors. -/
theorem exists_descriptor_of_findForm {similarity : Similarity} {ds : List Descriptor} {table : InstructionSet}
    (htable : InstructionSet.compile similarity ds = .ok table) {mnemonic : Text} {codes : List OperandCode}
    (hcodes : ∀ c ∈ codes, c.IsDigit) {form : Form} (h : findForm table mnemonic codes = .ok form) :
    ∃ desc ∈ ds, desc.mnemonic.upper = mnemonic.upper ∧ desc.form = form ∧
      (desc.codes = codes ∨
        (∀ other ∈ ds, other.mnemonic.upper = mnemonic.upper → other.codes ≠ codes) ∧
          desc.codes = codes.map vectorCode) := by
  have hlookup : ∀ {codes : List OperandCode}, (∀ c ∈ codes, c.IsDigit) → ∀ form,
      table.lookup mnemonic (OperandCode.key codes) = .ok form ↔
        ∃ desc ∈ ds, desc.mnemonic.upper = mnemonic.upper ∧ desc.codes = codes ∧ desc.form = form :=
    (InstructionSet.holds_of_compile htable).lookup_key_iff (InstructionSet.wellFormed_of_compile htable) mnemonic
  rw [findForm] at h
  split at h
  · rename_i hillegal
    rw [vectorCodes?] at h
    split at h
    · rename_i retry hretry
      split at hretry
      · cases hretry
        have hvectors : ∀ c ∈ codes.map vectorCode, c.IsDigit := by
          rw [List.forall_mem_map]
          exact fun c hc => isDigit_vectorCode (hcodes c hc)
        obtain ⟨desc, hdesc, hmnemonic, hcodes', hform⟩ := (hlookup hvectors form).1 h
        refine ⟨desc, hdesc, hmnemonic, hform, Or.inr ⟨fun other hother hsame heq => ?_, hcodes'⟩⟩
        -- it would have been found at once
        have hfound := (hlookup hcodes other.form).2 ⟨other, hother, hsame, heq, rfl⟩
        rw [hillegal] at hfound
        cases hfound
      · cases hretry
    · cases h
  · obtain ⟨desc, hdesc, hmnemonic, hcodes', hform⟩ := (hlookup hcodes form).1 h
    exact ⟨desc, hdesc, hmnemonic, hform, Or.inl hcodes'⟩

/-- An instruction is encoded by the form of the descriptor with its mnemonic and the codes of its operands, or, if
there is none, with the codes in which absolute addresses are read as vectors, and the output is the instruction that
the form stands for. -/
theorem instruction_exact {similarity : Similarity} {ds : List Descriptor} {table : InstructionSet}
    (htable : InstructionSet.compile similarity ds = .ok table) {mnemonic : Text} {d : Dispatch} {ts : List Token}
    (h : instruction table mnemonic d = .ok ts) :
    ∃ operands, Operand.ofExprs d.operands = .ok operands ∧
      ∃ desc ∈ ds, desc.mnemonic.upper = mnemonic.upper ∧
        (desc.codes = operands.map Operand.code ∨
          (∀ other ∈ ds, other.mnemonic.upper = mnemonic.upper → other.codes ≠ operands.map Operand.code) ∧
            desc.codes = (operands.map Operand.code).map vectorCode) ∧
        ∃ groups, Assembles desc.form (operands.filterMap Operand.value) groups ts := by
  obtain ⟨operands, form, hoperands, hform, hlength, rfl⟩ := instruction_eq_ok h
  obtain ⟨desc, hdesc, hmnemonic, rfl, hcodes⟩ := exists_descriptor_of_findForm htable
    (fun c hc => Operand.isDigit_of_ofExprs hoperands hc) hform
  exact ⟨operands, hoperands, desc, hdesc, hmnemonic, hcodes,
    exists_assembles (fun _ => Descriptor.size_pos_of_mem_immediates) hlength d.loc⟩

/-- `INT [300]` where INT takes a vector: there is no form with an absolute address, the vector is written in one byte,
and 300 is warned of. -/
theorem instruction_exact_vector :
    ∃ groups, Assembles ⟨"INT", ["[kk]"], [0xFC], [⟨1, false⟩]⟩ [.literal Location.none 300] groups
      [.bytes Location.none [0xFC, 44], .message (.warn Location.none "Value 300 cannot fit inside byte")] := by
  have htable : InstructionSet.compile .edits [⟨"Int", ["[kk]"], "fc"⟩] =
      .ok ⟨[("INT", [(0x2A, ⟨"INT", ["[kk]"], [0xFC], [⟨1, false⟩]⟩)])], .edits⟩ := rfl
  have hencoded : instruction ⟨[("INT", [(0x2A, ⟨"INT", ["[kk]"], [0xFC], [⟨1, false⟩]⟩)])], .edits⟩ "int"
      ⟨Location.none, .identifier Location.none "int", [.absolute Location.none (.literal Location.none 300)]⟩ =
        .ok [.bytes Location.none [0xFC, 44],
          .message (.warn Location.none "Value 300 cannot fit inside byte")] := rfl
  obtain ⟨operands, hoperands, desc, hdesc, -, -, groups, hassembles⟩ := instruction_exact htable hencoded
  cases hoperands
  rw [List.mem_singleton.1 hdesc] at hassembles
  exact ⟨groups, hassembles⟩

end Encode

end MacroAsm
