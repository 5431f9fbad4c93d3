import MacroAsm.Text.Basic

/-!
# Numerals

Writing integers in a base, and reading them back. Values are 64-bit signed integers, and a numeral
whose value lies outside of their range is not read. A numeral is read either in a base that is
known, where only digits may stand, or in the base its own beginning announces (`0x`, `0o`, `0b`, or
a plain `0` for octal), where single underscores may separate digits.
-/

namespace MacroAsm

namespace Text

/-- The digits of a natural number in a base of at most 16, lower case. -/
def ofNatBase (base n : Nat) : Text :=
  ⟨(Nat.toDigits base n).map fun c => c.toNat.toUInt8⟩

/-- The decimal digits of a natural number. -/
def ofNat (n : Nat) : Text := ofNatBase 10 n

/-- The digits of an integer after its sign, which is only written for a negative one. -/
def ofIntBase (base : Nat) : Int → Text
  | .ofNat n => ofNatBase base n
  | .negSucc n => "-" ++ ofNatBase base (n + 1)

/-- The decimal form of an integer. -/
def ofInt (n : Int) : Text := ofIntBase 10 n

/-- The decimal form of a 64-bit integer. -/
def ofInt64 (n : Int64) : Text := ofInt n.toInt

/-- The digits of `n`, with zeros in front up to a width. -/
def ofNatPadded (base width n : Nat) : Text :=
  let digits := ofNatBase base n
  ⟨List.replicate (width - digits.length) 48⟩ ++ digits

/-- The number that decimal digits stand for. -/
def decimal (digits : List UInt8) : Nat := digits.foldl (fun acc b => 10 * acc + (b.toNat - 48)) 0

/-- The two hexadecimal digits of each byte. -/
def hex (t : Text) : Text :=
  concat (t.bytes.map fun b => ofNatPadded 16 2 b.toNat)

end Text

/-- The byte of a decimal digit is its code. -/
theorem toNat_toUInt8_of_isDigit {c : Char} (h : c.isDigit = true) : c.toNat.toUInt8.toNat = c.toNat := by
  simp only [Char.isDigit, Bool.and_eq_true, decide_eq_true_eq] at h
  have hle : c.toNat ≤ 57 := h.2
  simp only [Nat.toUInt8_eq, UInt8.toNat_ofNat']
  omega

theorem Numeral.isDigit_of_mem_toDigits {n : Nat} : ∀ c ∈ Nat.toDigits 10 n, c.isDigit = true :=
  fun _ hc => Nat.isDigit_of_mem_toDigits (by omega) (by omega) hc

namespace Text

theorem bytes_ofNatPadded (width n : Nat) :
    (ofNatPadded 10 width n).bytes =
      List.replicate (width - (ofNatBase 10 n).length) 48 ++ (Nat.toDigits 10 n).map fun c => c.toNat.toUInt8 := rfl

/-- Digits that are written as bytes are read as the number they stand for. -/
theorem foldl_digits {digits : List Char} (h : ∀ c ∈ digits, c.isDigit = true) (acc : Nat) :
    (digits.map fun c => c.toNat.toUInt8).foldl (fun acc b => 10 * acc + (b.toNat - 48)) acc =
      Nat.ofDigitChars 10 digits acc := by
  induction digits generalizing acc with
  | nil => rfl
  | cons c rest ih =>
    rw [List.forall_mem_cons] at h
    rw [List.map_cons, List.foldl_cons, ih h.2, Nat.ofDigitChars_cons, toNat_toUInt8_of_isDigit h.1]
    rfl

/-- A padded number is read as the number. -/
theorem decimal_ofNatPadded (width n : Nat) : decimal (ofNatPadded 10 width n).bytes = n := by
  have hzeros : ∀ k, (List.replicate k (48 : UInt8)).foldl (fun acc b => 10 * acc + (b.toNat - 48)) 0 = 0 := by
    intro k
    induction k with
    | zero => rfl
    | succ k ih =>
      rw [List.replicate_succ, List.foldl_cons]
      exact ih
  rw [decimal, bytes_ofNatPadded, List.foldl_append, hzeros, foldl_digits Numeral.isDigit_of_mem_toDigits]
  exact Nat.ofDigitChars_ten_toDigits

/-- A padded number is made of digits. -/
theorem isDigit_of_mem_ofNatPadded {width n : Nat} {b : UInt8} (h : b ∈ (ofNatPadded 10 width n).bytes) :
    48 ≤ b.toNat ∧ b.toNat ≤ 57 := by
  rw [bytes_ofNatPadded, List.mem_append] at h
  rcases h with hzero | hdigit
  · rw [List.eq_of_mem_replicate hzero]
    decide
  · obtain ⟨c, hc, rfl⟩ := List.mem_map.1 hdigit
    have hcode := Numeral.isDigit_of_mem_toDigits c hc
    rw [toNat_toUInt8_of_isDigit hcode]
    simp only [Char.isDigit, Bool.and_eq_true, decide_eq_true_eq] at hcode
    exact hcode

end Text

namespace Numeral

/-- The value of a digit: ten digits and then the letters in either case. -/
def digit? (b : UInt8) : Option Nat :=
  let n := b.toNat
  if 48 ≤ n && n ≤ 57 then some (n - 48)
  else if 97 ≤ n && n ≤ 122 then some (n - 87)
  else if 65 ≤ n && n ≤ 90 then some (n - 55)
  else none

/-- The value of a sequence of digits in a base, read on from `acc`. -/
def readDigits (base : Nat) : List UInt8 → Nat → Option Nat
  | [], acc => some acc
  | b :: rest, acc =>
    match digit? b with
    | some d => if d < base then readDigits base rest (acc * base + d) else none
    | none => none

/-- The least magnitude that no positive 64-bit integer has. -/
def limit : Nat := 0x8000000000000000

/-- The 64-bit integer of a magnitude and a sign, if there is one. -/
def signed? (negative : Bool) (n : Nat) : Option Int64 :=
  if negative then
    if n ≤ limit then some (Int64.ofInt (-(n : Int))) else none
  else if n < limit then some (Int64.ofInt n) else none

/-- Splits an optional sign off, giving whether it is a minus. -/
def splitSign : List UInt8 → Bool × List UInt8
  | 43 :: rest => (false, rest)
  | 45 :: rest => (true, rest)
  | bs => (false, bs)

/-- The base that a numeral announces, with the digits after the announcement. -/
def announcedBase : List UInt8 → Nat × List UInt8
  | 48 :: b :: d :: rest =>
    if b == 98 || b == 66 then (2, d :: rest)
    else if b == 111 || b == 79 then (8, d :: rest)
    else if b == 120 || b == 88 then (16, d :: rest)
    else (8, b :: d :: rest)
  | 48 :: rest => (8, rest)
  | bs => (10, bs)

/-- Whether every underscore stands between two digits. `afterDigit` says whether a digit, or the
announcement of the base, stands right before. -/
def separated (afterDigit : Bool) : List UInt8 → Bool
  | [] => true
  | 95 :: rest =>
    afterDigit && (match rest with
      | [] => false
      | b :: _ => b != 95) && separated false rest
  | _ :: rest => separated true rest

/-- Reads the unsigned part of a numeral that announces its base. -/
def readAnnounced? (bs : List UInt8) : Option Nat :=
  let (base, digits) := announcedBase bs
  let announced := bs.length - digits.length
  if bs.isEmpty || !separated (announced > 0) digits then none
  else readDigits base (digits.filter (· != 95)) 0

end Numeral

namespace Text

/-- Reads an optionally signed numeral in a known base. -/
def toInt64? (base : Nat) (t : Text) : Option Int64 :=
  let (negative, digits) := Numeral.splitSign t.bytes
  if digits.isEmpty then none
  else (Numeral.readDigits base digits 0).bind (Numeral.signed? negative)

/-- Reads an optionally signed numeral that announces its base. -/
def announcedInt64? (t : Text) : Option Int64 :=
  let (negative, digits) := Numeral.splitSign t.bytes
  (Numeral.readAnnounced? digits).bind (Numeral.signed? negative)

/-- The bytes spelled by pairs of hexadecimal digits in either case. -/
def unhexBytes : List UInt8 → Option (List UInt8)
  | [] => some []
  | [_] => none
  | a :: b :: rest => do
    let hi ← Numeral.digit? a
    let lo ← Numeral.digit? b
    if hi < 16 && lo < 16 then
      let more ← unhexBytes rest
      some ((hi * 16 + lo).toUInt8 :: more)
    else none

/-- The bytes a hexadecimal text spells. -/
def unhex? (t : Text) : Option Text := (unhexBytes t.bytes).map Text.mk

end Text

end MacroAsm
