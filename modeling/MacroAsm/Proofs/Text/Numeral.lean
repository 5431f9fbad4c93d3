import Mathlib.Data.Nat.Digits.Defs
import MacroAsm.Text.Numeral

/-!
# Numbers that are written are read back

Decimal digits that are written are read as the number they were written for: of natural numbers
(`Numeral.readDigits_ofNat`) and of 64-bit integers with their sign (`Text.toInt64?_ofInt64`).
-/

namespace MacroAsm

namespace Numeral

/-- The digit of a decimal character. -/
theorem digit?_toUInt8 {c : Char} (h : c.isDigit = true) : digit? c.toNat.toUInt8 = some (c.toNat - 48) := by
  have hbyte := toNat_toUInt8_of_isDigit h
  simp only [Char.isDigit, Bool.and_eq_true, decide_eq_true_eq] at h
  have hge : 48 ≤ c.toNat := h.1
  have hle : c.toNat ≤ 57 := h.2
  simp [digit?, hbyte, hge, hle]

/-- Decimal digits are read as the number they stand for, after what was read before. -/
theorem readDigits_toUInt8 {digits : List Char} (h : ∀ c ∈ digits, c.isDigit = true) (acc : Nat) :
    readDigits 10 (digits.map fun c => c.toNat.toUInt8) acc = some (Nat.ofDigitChars 10 digits acc) := by
  induction digits generalizing acc with
  | nil => rfl
  | cons c rest ih =>
    rw [List.forall_mem_cons] at h
    have hlt : c.toNat - 48 < 10 := by
      have hc := h.1
      simp only [Char.isDigit, Bool.and_eq_true, decide_eq_true_eq] at hc
      have hle : c.toNat ≤ 57 := hc.2
      omega
    have hstep : acc * 10 + (c.toNat - 48) = 10 * acc + (c.toNat - '0'.toNat) := by
      rw [Nat.mul_comm]
      rfl
    simp only [List.map_cons, readDigits, digit?_toUInt8 h.1, hlt, if_true, Nat.ofDigitChars_cons, hstep]
    exact ih h.2 _

/-- A natural number is read from its digits. -/
theorem readDigits_ofNat (n : Nat) : readDigits 10 (Text.ofNat n).bytes 0 = some n := by
  calc readDigits 10 (Text.ofNat n).bytes 0
      = some (Nat.ofDigitChars 10 (Nat.toDigits 10 n) 0) := readDigits_toUInt8 isDigit_of_mem_toDigits 0
    _ = some n := by rw [Nat.ofDigitChars_ten_toDigits]

/-- The digits of a number begin with no sign. -/
theorem splitSign_ofNat (n : Nat) : splitSign (Text.ofNat n).bytes = (false, (Text.ofNat n).bytes) := by
  have hbytes : (Text.ofNat n).bytes = (Nat.toDigits 10 n).map fun c => c.toNat.toUInt8 := rfl
  rw [hbytes]
  cases hdigits : Nat.toDigits 10 n with
  | nil => rfl
  | cons c rest =>
    have hc : c.isDigit = true := isDigit_of_mem_toDigits c (hdigits ▸ List.mem_cons_self)
    have hbyte := toNat_toUInt8_of_isDigit hc
    simp only [Char.isDigit, Bool.and_eq_true, decide_eq_true_eq] at hc
    have hge : 48 ≤ c.toNat := hc.1
    rw [List.map_cons, splitSign.eq_def]
    split
    · rename_i heq
      simp only [List.cons.injEq] at heq
      rw [heq.1] at hbyte
      simp at hbyte
      omega
    · rename_i heq
      simp only [List.cons.injEq] at heq
      rw [heq.1] at hbyte
      simp at hbyte
      omega
    · rfl

theorem ofNat_ne_nil (n : Nat) : (Text.ofNat n).bytes.isEmpty = false := by
  simp [Text.ofNat, Text.ofNatBase, Nat.toDigits_ne_nil]

end Numeral

/-- A 64-bit integer is read from its decimal form. -/
theorem Text.toInt64?_ofInt64 (v : Int64) : (Text.ofInt64 v).toInt64? 10 = some v := by
  have hlow := Int64.le_toInt v
  have hhigh := Int64.toInt_lt v
  have hofInt := Int64.ofInt_toInt v
  rw [ofInt64, ofInt]
  cases hv : v.toInt with
  | ofNat n =>
    rw [hv] at hhigh hofInt
    rw [Int.ofNat_eq_natCast] at hhigh
    have hlt : n < Numeral.limit := by
      rw [Numeral.limit]
      omega
    have hdigits : (ofIntBase 10 (Int.ofNat n)).bytes = (ofNat n).bytes := rfl
    simp only [toInt64?, hdigits, Numeral.splitSign_ofNat, Numeral.ofNat_ne_nil, Numeral.readDigits_ofNat,
      Option.bind_some, Numeral.signed?, hlt, if_true, Bool.false_eq_true, if_false]
    exact congrArg some hofInt
  | negSucc n =>
    rw [hv] at hlow hofInt
    have hle : n + 1 ≤ Numeral.limit := by
      rw [Numeral.limit]
      omega
    have hbytes : (ofIntBase 10 (Int.negSucc n)).bytes = 45 :: (ofNat (n + 1)).bytes := rfl
    simp only [toInt64?, hbytes, Numeral.splitSign, Numeral.ofNat_ne_nil, Numeral.readDigits_ofNat,
      Option.bind_some, Numeral.signed?, hle, if_true, Bool.false_eq_true, if_false]
    exact congrArg some hofInt

end MacroAsm
