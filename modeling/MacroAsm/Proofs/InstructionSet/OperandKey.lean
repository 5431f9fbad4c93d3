import Mathlib.Data.Nat.Digits.Defs
import MacroAsm.InstructionSet.OperandCode

/-!
# Keys of operands

The key of a list of operand codes is a number of 32 bits, so that the codes after the fourth one leave no trace in
it. Still a list of at most three codes is told from every other list by its key, however long the other one is:
codes are never zero, and so the fourth digit of the key tells whether there are more (`OperandCode.key_eq_iff`).
-/

namespace MacroAsm

namespace OperandCode

/-- A code of an operand is a digit to the base 256 other than zero. -/
def IsDigit (c : OperandCode) : Prop := 0 < c.toNat ∧ c.toNat < 256

instance (c : OperandCode) : Decidable c.IsDigit := inferInstanceAs (Decidable (_ ∧ _))

/-- The key as a number that is not cut off. -/
def value (codes : List OperandCode) : Nat := Nat.ofDigits 256 (codes.map UInt32.toNat)

theorem value_cons (c : OperandCode) (codes : List OperandCode) : value (c :: codes) = c.toNat + 256 * value codes :=
  Nat.ofDigits_cons

/-- The lowest digits of a list of codes. -/
theorem value_cons_mod {c : OperandCode} (hc : c.IsDigit) (codes : List OperandCode) (j : Nat) :
    value (c :: codes) % 256 ^ (j + 1) = c.toNat + 256 * (value codes % 256 ^ j) := by
  have hlow : (c.toNat + 256 * value codes) % 256 = c.toNat := by
    rw [Nat.add_mul_mod_self_left, Nat.mod_eq_of_lt hc.2]
  have hhigh : (c.toNat + 256 * value codes) / 256 = value codes := by
    rw [Nat.add_mul_div_left _ _ (by decide), Nat.div_eq_of_lt hc.2, Nat.zero_add]
  rw [value_cons, Nat.pow_succ', Nat.mod_mul, hlow, hhigh]

/-- The key is cut off at 32 bits. -/
theorem toNat_key (codes : List OperandCode) : (key codes).toNat = value codes % 256 ^ 4 := by
  induction codes with
  | nil => rfl
  | cons c codes ih =>
    have h256 : (256 : UInt32).toNat = 256 := rfl
    rw [key, UInt32.toNat_add, UInt32.toNat_mul, ih, value_cons, h256]
    omega

/-- Lists of codes agree if one of them has less than `j` codes and the lowest `j` digits agree. -/
theorem eq_of_value_mod_eq {codes codes' : List OperandCode} (h : ∀ c ∈ codes, c.IsDigit)
    (h' : ∀ c ∈ codes', c.IsDigit) {j : Nat} (hj : codes'.length < j)
    (hvalue : value codes % 256 ^ j = value codes' % 256 ^ j) : codes = codes' := by
  -- along the short list, each step tells the lowest digit and leaves one digit less
  induction codes' generalizing codes j with
  | nil =>
    cases codes with
    | nil => rfl
    | cons c codes =>
      -- the first code is not zero
      obtain ⟨i, rfl⟩ := Nat.exists_eq_succ_of_ne_zero (Nat.ne_of_gt hj)
      rw [List.forall_mem_cons] at h
      have hpos := h.1.1
      have hnone : value [] % 256 ^ i.succ = 0 := Nat.zero_mod _
      rw [value_cons_mod h.1, hnone] at hvalue
      omega
  | cons c' codes' ih =>
    obtain ⟨i, rfl⟩ := Nat.exists_eq_succ_of_ne_zero (Nat.ne_of_gt (Nat.zero_lt_of_lt hj))
    rw [List.forall_mem_cons] at h'
    have hpos' := h'.1.1
    have hlt' := h'.1.2
    rw [value_cons_mod h'.1] at hvalue
    cases codes with
    | nil =>
      have hnone : value [] % 256 ^ i.succ = 0 := Nat.zero_mod _
      rw [hnone] at hvalue
      omega
    | cons c codes =>
      rw [List.forall_mem_cons] at h
      have hlt := h.1.2
      rw [value_cons_mod h.1] at hvalue
      have hfirst : c = c' := UInt32.toNat_inj.1 (by omega)
      have hrest : codes = codes' := ih h.2 h'.2 (Nat.lt_of_succ_lt_succ hj) (by omega)
      rw [hfirst, hrest]

/-- The key tells a list of at most three codes from every other list. -/
theorem key_eq_iff {codes codes' : List OperandCode} (h : ∀ c ∈ codes, c.IsDigit) (h' : ∀ c ∈ codes', c.IsDigit)
    (hlength : codes'.length < 4) : key codes = key codes' ↔ codes = codes' := by
  refine ⟨fun hkey => ?_, fun heq => by rw [heq]⟩
  rw [← UInt32.toNat_inj, toNat_key, toNat_key] at hkey
  exact eq_of_value_mod_eq h h' hlength hkey

/-- With a fourth code there is a list that another one cannot be told from. -/
example : key [1, 1, 1, 1] = key [1, 1, 1, 1, 7] := by decide

/-- A code that is found in a table of digits is a digit. -/
theorem isDigit_of_lookup {names : List (Text × OperandCode)} (hnames : ∀ entry ∈ names, entry.2.IsDigit)
    {name : Text} {c : OperandCode} (h : names.lookup name = some c) : c.IsDigit := by
  obtain ⟨before, after, rfl, -⟩ := List.lookup_eq_some_iff.1 h
  exact hnames (name, c) (List.mem_append_right _ List.mem_cons_self)

theorem isDigit_of_registers {name : Text} {c : OperandCode} (h : registers.lookup name = some c) : c.IsDigit :=
  isDigit_of_lookup (by decide) h

theorem isDigit_of_conditions {name : Text} {c : OperandCode} (h : conditions.lookup name = some c) : c.IsDigit :=
  isDigit_of_lookup (by decide) h

end OperandCode

namespace OperandPattern

variable {spelling : Text} {p : OperandPattern}

/-- What an operand is spelled as is a way to address memory or an immediate value, or the name of a register or of a
condition, which has no value. -/
theorem mem_memory_or_of_ofSpelling? (h : ofSpelling? spelling = some p) :
    p ∈ memory ∨ p.code.IsDigit ∧ p.value = none := by
  rw [ofSpelling?] at h
  split at h
  · rename_i q hq
    cases h
    exact Or.inl (List.mem_of_find?_eq_some hq)
  · dsimp only at h
    split at h
    · rename_i c hc
      cases h
      exact Or.inr ⟨OperandCode.isDigit_of_registers hc, rfl⟩
    · obtain ⟨c, hc, rfl⟩ := Option.map_eq_some_iff.1 h
      exact Or.inr ⟨OperandCode.isDigit_of_conditions hc, rfl⟩

theorem isDigit_of_ofSpelling? (h : ofSpelling? spelling = some p) : p.code.IsDigit := by
  have hall : ∀ p ∈ memory, p.code.IsDigit := by decide
  exact (mem_memory_or_of_ofSpelling? h).elim (hall p) And.left

/-- The value of an operand takes at least one byte. -/
theorem size_pos_of_ofSpelling? (h : ofSpelling? spelling = some p) : ∀ imm ∈ p.value, 0 < imm.size := by
  have hall : ∀ p ∈ memory, ∀ imm ∈ p.value, 0 < imm.size := by decide
  intro imm himm
  rcases mem_memory_or_of_ofSpelling? h with hmem | ⟨-, hnone⟩
  · exact hall p hmem imm himm
  · rw [hnone] at himm
    cases himm

end OperandPattern

end MacroAsm
