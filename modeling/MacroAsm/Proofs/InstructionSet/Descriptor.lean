import MacroAsm.InstructionSet.Form
import MacroAsm.Proofs.Eval.Action
import MacroAsm.Proofs.InstructionSet.OperandKey

/-!
# Descriptors that are accepted

A descriptor is accepted if it has a mnemonic, at most two operands that have a meaning, and an opcode of pairs of
hexadecimal digits (`Descriptor.WellFormed`), and then it becomes the form of its mnemonic with the key of the codes
of its operands (`Descriptor.compile_eq_ok_iff`).
-/

namespace MacroAsm

namespace Text

/-- A hexadecimal digit, in either case. -/
def IsHexDigit (b : UInt8) : Prop :=
  48 ≤ b.toNat ∧ b.toNat ≤ 57 ∨ 65 ≤ b.toNat ∧ b.toNat ≤ 70 ∨ 97 ≤ b.toNat ∧ b.toNat ≤ 102

/-- The hexadecimal digits are the digits with a value below sixteen. -/
theorem isHexDigit_iff (b : UInt8) : IsHexDigit b ↔ ∃ n, Numeral.digit? b = some n ∧ n < 16 := by
  simp only [IsHexDigit, Numeral.digit?, Bool.and_eq_true, decide_eq_true_eq]
  split
  · simp
    omega
  · split
    · simp
      omega
    · split
      · simp
        omega
      · simp
        omega

/-- Pairs of hexadecimal digits spell bytes, and nothing else does. -/
theorem isSome_unhexBytes_iff (bs : List UInt8) :
    (unhexBytes bs).isSome = true ↔ bs.length % 2 = 0 ∧ ∀ b ∈ bs, IsHexDigit b := by
  induction bs using unhexBytes.induct with
  | case1 => simp [unhexBytes]
  | case2 => simp [unhexBytes]
  | case3 a b rest ih =>
    have hlength : (a :: b :: rest).length % 2 = rest.length % 2 := by
      simp only [List.length_cons]
      omega
    rw [List.forall_mem_cons, List.forall_mem_cons, isHexDigit_iff a, isHexDigit_iff b, hlength]
    cases ha : Numeral.digit? a with
    | none => simp [unhexBytes, ha]
    | some hi =>
      cases hb : Numeral.digit? b with
      | none => simp [unhexBytes, ha, hb]
      | some lo =>
        -- digits of a higher base have a value, too, but are not hexadecimal
        by_cases hlt : hi < 16 ∧ lo < 16
        · have hbytes : unhexBytes (a :: b :: rest) =
              (unhexBytes rest).map ((hi * 16 + lo).toUInt8 :: ·) := by
            simp only [unhexBytes, ha, hb, Option.bind_eq_bind, Option.bind_some, hlt, decide_true, Bool.and_self,
              if_true]
            cases unhexBytes rest <;> rfl
          rw [hbytes, Option.isSome_map, ih]
          simp [hlt]
        · have hnone : unhexBytes (a :: b :: rest) = none := by
            simp [unhexBytes, ha, hb, hlt]
          simp only [hnone, Option.some.injEq]
          constructor
          · exact fun h => absurd h (by decide)
          · rintro ⟨-, ⟨n, rfl, hn⟩, ⟨m, rfl, hm⟩, -⟩
            exact absurd ⟨hn, hm⟩ hlt

/-- What is not empty spells something. -/
theorem ne_nil_of_unhexBytes {bs code : List UInt8} (h : unhexBytes bs = some code) (hbs : bs ≠ []) : code ≠ [] := by
  rintro rfl
  match bs, hbs with
  | [_], _ => cases h
  | a :: b :: rest, _ =>
    rw [unhexBytes] at h
    obtain ⟨hi, -, h⟩ := Option.bind_eq_some_iff.1 h
    obtain ⟨lo, -, h⟩ := Option.bind_eq_some_iff.1 h
    split at h
    · obtain ⟨more, -, h⟩ := Option.bind_eq_some_iff.1 h
      cases h
    · cases h

end Text

namespace Descriptor

/-- A descriptor that is accepted. -/
structure WellFormed (d : Descriptor) : Prop where
  /-- It has a mnemonic. -/
  mnemonic : d.mnemonic.isEmpty = false
  /-- It has at most two operands. -/
  operands : d.operands.length ≤ 2
  /-- Without blanks around, every operand has a meaning. -/
  known : ∀ operand ∈ d.operands, (OperandPattern.ofSpelling? operand.trim).isSome = true
  /-- It has an opcode. -/
  code : d.code.isEmpty = false
  /-- The digits of the opcode come in pairs. -/
  even : d.code.length % 2 = 0
  /-- They are hexadecimal digits. -/
  digits : ∀ b ∈ d.code.bytes, Text.IsHexDigit b

/-- What the operands of a descriptor stand for. -/
def shapes (d : Descriptor) : List OperandPattern :=
  d.operands.filterMap fun operand => OperandPattern.ofSpelling? operand.trim

/-- The codes of the operands of a descriptor. -/
def codes (d : Descriptor) : List OperandCode := d.shapes.map OperandPattern.code

/-- The form of a descriptor. -/
def form (d : Descriptor) : Form where
  mnemonic := d.mnemonic.upper
  operands := d.shapes.map OperandPattern.spelling
  code := (d.code.unhex?.getD Text.empty).bytes
  immediates := d.shapes.filterMap OperandPattern.value

/-- Operands are accepted if every one of them has a meaning. -/
theorem patterns_eq_ok_iff {operands : List Text} {ps : List OperandPattern} :
    patterns operands = .ok ps ↔
      (∀ operand ∈ operands, (OperandPattern.ofSpelling? operand.trim).isSome = true) ∧
        ps = operands.filterMap fun operand => OperandPattern.ofSpelling? operand.trim := by
  induction operands generalizing ps with
  | nil =>
    simp only [patterns, Except.ok.injEq, List.not_mem_nil, false_implies, implies_true, true_and, List.filterMap_nil]
    exact eq_comm
  | cons operand rest ih =>
    rw [patterns, List.forall_mem_cons, List.filterMap_cons]
    cases OperandPattern.ofSpelling? operand.trim with
    | none => simp
    | some p =>
      constructor
      · intro h
        obtain ⟨more, hmore, hps⟩ := Except.bind_eq_ok_iff.1 h
        cases hps
        obtain ⟨hknown, rfl⟩ := ih.1 hmore
        exact ⟨⟨rfl, hknown⟩, rfl⟩
      · rintro ⟨⟨-, hknown⟩, rfl⟩
        exact Except.bind_eq_ok_iff.2 ⟨_, ih.2 ⟨hknown, rfl⟩, rfl⟩

/-- The descriptors that are accepted are the well-formed ones, and they become their forms. -/
theorem compile_eq_ok_iff {d : Descriptor} {key : UInt32} {form : Form} :
    d.compile = .ok (key, form) ↔ d.WellFormed ∧ key = OperandCode.key d.codes ∧ form = d.form := by
  constructor
  · intro h
    rw [compile] at h
    split at h
    · cases h
    · rename_i hmnemonic
      split at h
      · cases h
      · rename_i hoperands
        split at h
        · cases h
        · cases h
        · rename_i code hne hcode
          obtain ⟨ps, hps, hform⟩ := Except.bind_eq_ok_iff.1 h
          obtain ⟨hknown, rfl⟩ := patterns_eq_ok_iff.1 hps
          obtain ⟨bytes, hbytes, rfl⟩ := Option.map_eq_some_iff.1 hcode
          -- the opcode was read, so it is spelled by pairs of digits, and it is not empty since its bytes are not
          obtain ⟨heven, hdigits⟩ := (Text.isSome_unhexBytes_iff d.code.bytes).1 (Option.isSome_of_eq_some hbytes)
          have hcode : d.code.isEmpty = false := by
            cases hempty : d.code.isEmpty with
            | false => rfl
            | true =>
              rw [List.isEmpty_iff.1 hempty] at hbytes
              cases hbytes
              exact absurd rfl hne
          cases hform
          refine ⟨⟨Bool.eq_false_iff.2 hmnemonic, Nat.not_lt.1 hoperands, hknown, hcode, heven, hdigits⟩, rfl, ?_⟩
          rw [form, Text.unhex?, hbytes]
          rfl
  · rintro ⟨h, rfl, rfl⟩
    obtain ⟨code, hcode⟩ := Option.isSome_iff_exists.1 ((Text.isSome_unhexBytes_iff d.code.bytes).2 ⟨h.even, h.digits⟩)
    have hne : code ≠ [] := Text.ne_nil_of_unhexBytes hcode (by simpa [Text.isEmpty] using h.code)
    obtain ⟨b, rest, rfl⟩ := List.exists_cons_of_ne_nil hne
    have hunhex : d.code.unhex? = some ⟨b :: rest⟩ := by rw [Text.unhex?, hcode, Option.map_some]
    rw [compile, if_neg (Bool.eq_false_iff.1 h.mnemonic), if_neg (Nat.not_lt.2 h.operands), hunhex,
      patterns_eq_ok_iff.2 ⟨h.known, rfl⟩]
    simp only [form, hunhex]
    rfl

/-- The operands of a descriptor have codes that are digits. -/
theorem isDigit_of_mem_codes {d : Descriptor} {c : OperandCode} (h : c ∈ d.codes) : c.IsDigit := by
  obtain ⟨p, hp, rfl⟩ := List.mem_map.1 h
  obtain ⟨operand, -, hoperand⟩ := List.mem_filterMap.1 hp
  exact OperandPattern.isDigit_of_ofSpelling? hoperand

theorem WellFormed.length_codes {d : Descriptor} (h : d.WellFormed) : d.codes.length ≤ 2 := by
  rw [codes, List.length_map]
  exact (List.length_filterMap_le _ _).trans h.operands

/-- The values of the operands take at least one byte each. -/
theorem size_pos_of_mem_immediates {d : Descriptor} {imm : Immediate} (h : imm ∈ d.form.immediates) :
    0 < imm.size := by
  obtain ⟨p, hp, himm⟩ := List.mem_filterMap.1 h
  obtain ⟨operand, -, hoperand⟩ := List.mem_filterMap.1 hp
  exact OperandPattern.size_pos_of_ofSpelling? hoperand imm himm

end Descriptor

end MacroAsm
