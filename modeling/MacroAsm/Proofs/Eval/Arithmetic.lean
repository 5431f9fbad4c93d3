import Mathlib.Data.Int.Bitwise
import Mathlib.Data.Int.ModEq
import MacroAsm.Proofs.Eval.Action
import MacroAsm.Proofs.Eval.Outcome

/-!
# Arithmetic modulo 2^64

Some expressions give one result wherever they are evaluated, and change nothing (`Eval.EvaluatesTo`): numbers
and strings, and the operations and calls made of such expressions. They are where what an operator or a
function computes can be seen.

Numbers are 64-bit words in two's complement. What an operator makes of two of them is said in the integers
(`Arithmetic.Exact`): sums, differences, products and shifts to the left are right modulo 2^64, and everything
else is the integer itself.

Counts beyond the width move by 63 in both directions. For a shift to the right that is enough, as only the sign
is left after it, but to the left the lowest bit stays in the number (`Arithmetic.Overshifts`).

Main statement: `Arithmetic.operation_exact`.
-/

namespace MacroAsm

namespace Eval

/-- In whatever surroundings and state an expression is evaluated, it gives `result`, and the state stays as it
is. -/
def EvaluatesTo (e : Expr) (result : Except Cause Expr) : Prop :=
  ∀ (u : Surroundings) (s : State), (flatten u e).exec s = (result.mapError .raise, s)

theorem exec_flatten (u : Surroundings) (e : Expr) (s : State) :
    (flatten u e).exec s = (flattenWith u (resolve u (resolveFuel s.scope) []) e true).exec s :=
  Act.exec_bind_of_ok (Act.exec_scope s)

/-- A number is its own value. -/
theorem evaluatesTo_number (loc : Location) (value : Int64) (via : Text) :
    EvaluatesTo (.number loc value via) (.ok (.number loc value via)) := by
  intro u s
  rw [exec_flatten, flattenWith]
  rfl

/-- A string is its own value. -/
theorem evaluatesTo_string (loc : Location) (value via : Text) :
    EvaluatesTo (.string loc value via) (.ok (.string loc value via)) := by
  intro u s
  rw [exec_flatten, flattenWith]
  rfl

/-- An operator that evaluates both of its operands is applied to what they give. -/
theorem evaluatesTo_binary {op : BinaryOp} (hop : treatment op = .strict) {left right l r : Expr}
    (hleft : EvaluatesTo left (.ok l)) (hright : EvaluatesTo right (.ok r)) (hl : l.isConcrete = true)
    (hr : r.isConcrete = true) (loc : Location) :
    EvaluatesTo (.binary loc op left right) (applyBinary op loc l r) := by
  intro u s
  have hfirst := hleft u s
  have hsecond := hright u s
  rw [exec_flatten] at hfirst hsecond ⊢
  have hstrict : ∀ resolve, flattenWith u resolve (.binary loc op left right) true = (do
      let l ← flattenWith u resolve left true
      let r ← flattenWith u resolve right true
      if l.isConcrete && r.isConcrete then Act.lift (applyBinary op loc l r)
      else return .binary loc op l r) := by
    intro resolve
    cases op with
    | joinNames | joinDecimal | joinHex | or | and => cases hop
    | _ => rw [flattenWith] <;> simp
  rw [hstrict, Act.exec_bind_of_ok hfirst, Act.exec_bind_of_ok hsecond, if_pos (by rw [hl, hr]; rfl),
    Act.exec_lift]

/-- The expressions of a list are evaluated one after the other. -/
theorem exec_flattenAll {params args : List Expr}
    (h : List.Forall₂ (fun e v => EvaluatesTo e (.ok v)) params args) (u : Surroundings) (s : State) :
    (flattenAll u (resolve u (resolveFuel s.scope) []) params true).exec s = (.ok args, s) := by
  induction h with
  | nil => rfl
  | cons hfirst _ ih =>
    have hvalue := hfirst u s
    rw [exec_flatten] at hvalue
    rw [flattenAll, Act.exec_bind_of_ok hvalue, Act.exec_bind_of_ok ih]
    rfl

/-- A function is applied to what its parameters give. -/
theorem evaluatesTo_call {name : Text} {f : Builtin} (hname : Builtin.ofName? name = some f)
    {params args : List Expr} (hparams : List.Forall₂ (fun e v => EvaluatesTo e (.ok v)) params args)
    (hargs : ∀ v ∈ args, v.isConcrete = true) {loc : Location} {result : Except Cause Expr}
    (happly : ∀ macroArgs, f.apply macroArgs loc args = result) :
    EvaluatesTo (.call loc name params) result := by
  intro u s
  have hknown : (f.isLazy || args.all Expr.isConcrete) = true := by
    rw [List.all_eq_true.2 hargs, Bool.or_true]
  rw [exec_flatten, flattenWith, hname]
  dsimp only
  rw [Act.exec_bind_of_ok (exec_flattenAll hparams u s), if_pos hknown, Act.exec_lift, happly]

end Eval

/-- Whether an operator calculates with two numbers. -/
def BinaryOp.isArithmetic : BinaryOp → Bool
  | .bitOr | .bitXor | .bitAnd | .greater | .less | .greaterEqual | .lessEqual | .shiftLeft | .shiftRight
  | .add | .subtract | .multiply | .divide | .modulo => true
  | _ => false

theorem Eval.treatment_of_isArithmetic {op : BinaryOp} (hop : op.isArithmetic = true) :
    treatment op = .strict := by
  cases op <;> first | rfl | cases hop

namespace Arithmetic

/-- An operator means nothing for a right operand: there is no shift by a negative count, and no division by
zero. -/
def Undefined (op : BinaryOp) (r : Int) : Prop :=
  match op with
  | .shiftLeft | .shiftRight => r < 0
  | .divide | .modulo => r = 0
  | _ => False

/-- The 64-bit number `v` is what an operator makes of the integers `l` and `r`. Bits are those of integers in
two's complement, which go on for ever with the sign. -/
def Exact (op : BinaryOp) (l r v : Int) : Prop :=
  match op with
  | .add => v ≡ l + r [ZMOD 2 ^ 64]
  | .subtract => v ≡ l - r [ZMOD 2 ^ 64]
  | .multiply => v ≡ l * r [ZMOD 2 ^ 64]
  | .shiftLeft => v ≡ l * 2 ^ r.toNat [ZMOD 2 ^ 64]
  | .shiftRight => v = l.fdiv (2 ^ r.toNat)
  | .divide => v ≡ l.tdiv r [ZMOD 2 ^ 64] ∧ l ≡ v * r + l.tmod r [ZMOD 2 ^ 64]
  | .modulo => v = l.tmod r
  | .bitAnd => ∀ i, v.testBit i = (l.testBit i && r.testBit i)
  | .bitOr => ∀ i, v.testBit i = (l.testBit i || r.testBit i)
  | .bitXor => ∀ i, v.testBit i = (l.testBit i ^^ r.testBit i)
  | .greater => v = if r < l then 1 else 0
  | .less => v = if l < r then 1 else 0
  | .greaterEqual => v = if r ≤ l then 1 else 0
  | .lessEqual => v = if l ≤ r then 1 else 0
  | _ => False

/-- A shift to the left goes by more than the width and leaves a bit: the lowest one, which is as far as it can
go after 63 places. -/
def Overshifts (op : BinaryOp) (l r : Int) : Prop := op = .shiftLeft ∧ 63 < r ∧ l % 2 = 1

/-- What an operator gives for two numbers: it fails exactly where it means nothing, and its result is exact
exactly where it does not overshift. -/
def Calculates (op : BinaryOp) (l r : Int64) (result : Except Cause Int64) : Prop :=
  (Undefined op r.toInt → ∃ c, result = .error c) ∧
  (¬ Undefined op r.toInt → ∃ v, result = .ok v ∧
    (Exact op l.toInt r.toInt v.toInt ↔ ¬ Overshifts op l.toInt r.toInt))

theorem Calculates.of_undefined {op : BinaryOp} {l r : Int64} (h : Undefined op r.toInt) (c : Cause) :
    Calculates op l r (.error c) :=
  ⟨fun _ => ⟨c, rfl⟩, fun hdefined => absurd h hdefined⟩

/-- An exact result of an operator other than the shift to the left. -/
theorem Calculates.of_exact {op : BinaryOp} {l r v : Int64} (hop : op ≠ .shiftLeft)
    (hdefined : ¬ Undefined op r.toInt) (hexact : Exact op l.toInt r.toInt v.toInt) :
    Calculates op l r (.ok v) :=
  ⟨fun h => absurd h hdefined, fun _ => ⟨v, rfl, iff_of_true hexact fun hover => hop hover.1⟩⟩

theorem bmod_modEq (x : Int) : x.bmod (2 ^ 64) ≡ x [ZMOD 2 ^ 64] := @Int.bmod_emod x (2 ^ 64)

section Bits

/-- The bits of a word, continued by its sign, are those of the integer it stands for. -/
theorem testBit_toInt {w : Nat} (x : BitVec w) (i : Nat) :
    x.toInt.testBit i = if i < w then x.getLsbD i else x.msb := by
  rw [BitVec.toInt_eq_msb_cond]
  cases hsign : x.msb with
  | false =>
    rw [if_neg Bool.false_ne_true]
    split
    · rfl
    · exact BitVec.getLsbD_of_ge x i (by omega)
  | true =>
    -- a negative number is the complement of one less than its magnitude
    have hneg : (x.toNat : Int) - ((2 ^ w : Nat) : Int) = Int.negSucc (~~~x).toNat := by
      rw [BitVec.toNat_not]
      have := x.isLt
      omega
    rw [if_pos rfl, hneg, Int.testBit, ← BitVec.getLsbD, BitVec.getLsbD_not]
    split <;> simp [*]

variable (l r : Int64) (i : Nat)

theorem testBit_toInt_and : (l &&& r).toInt.testBit i = (l.toInt.testBit i && r.toInt.testBit i) := by
  simp only [← Int64.toInt_toBitVec, Int64.toBitVec_and, testBit_toInt]
  split <;> simp

theorem testBit_toInt_or : (l ||| r).toInt.testBit i = (l.toInt.testBit i || r.toInt.testBit i) := by
  simp only [← Int64.toInt_toBitVec, Int64.toBitVec_or, testBit_toInt]
  split <;> simp

theorem testBit_toInt_xor : (l ^^^ r).toInt.testBit i = (l.toInt.testBit i ^^ r.toInt.testBit i) := by
  simp only [← Int64.toInt_toBitVec, Int64.toBitVec_xor, testBit_toInt]
  split <;> simp

end Bits

section Shifts

variable {c r : Int64}

/-- A count below the width is not reduced before a shift. -/
theorem toNat_smod_width (hlow : 0 ≤ c.toInt) (hhigh : c.toInt ≤ 63) :
    (c.toBitVec.smod 64).toNat = c.toInt.toNat := by
  have hreduced : (c.toBitVec.smod 64).toInt = c.toInt := by
    rw [BitVec.toInt_smod, Int64.toInt_toBitVec, show (64 : BitVec 64).toInt = 64 from rfl,
      Int.fmod_eq_emod_of_nonneg _ (by omega), Int.emod_eq_of_lt hlow (by omega)]
  rw [BitVec.toInt_eq_toNat_cond] at hreduced
  omega

/-- Shifting to the left multiplies by a power of two. -/
theorem toInt_shiftLeft (l : Int64) (hlow : 0 ≤ c.toInt) (hhigh : c.toInt ≤ 63) :
    (l <<< c).toInt ≡ l.toInt * 2 ^ c.toInt.toNat [ZMOD 2 ^ 64] := by
  have hword : l.toInt ≡ (l.toBitVec.toNat : Int) [ZMOD 2 ^ 64] := by
    rw [← Int64.toInt_toBitVec, BitVec.toInt_eq_toNat_bmod]
    exact bmod_modEq _
  calc (l <<< c).toInt
      = ((l.toBitVec.toNat <<< c.toInt.toNat : Nat) : Int).bmod (2 ^ 64) := by
        rw [← Int64.toInt_toBitVec, Int64.toBitVec_shiftLeft, BitVec.shiftLeft_eq',
          toNat_smod_width hlow hhigh, BitVec.toInt_shiftLeft]
    _ ≡ (l.toBitVec.toNat <<< c.toInt.toNat : Nat) [ZMOD 2 ^ 64] := bmod_modEq _
    _ = l.toBitVec.toNat * 2 ^ c.toInt.toNat := by rw [Nat.shiftLeft_eq]; push_cast; rfl
    _ ≡ l.toInt * 2 ^ c.toInt.toNat [ZMOD 2 ^ 64] := hword.symm.mul_right _

/-- Shifting to the right divides by a power of two and rounds down. -/
theorem toInt_shiftRight (l : Int64) (hlow : 0 ≤ c.toInt) (hhigh : c.toInt ≤ 63) :
    (l >>> c).toInt = l.toInt.fdiv (2 ^ c.toInt.toNat) := by
  have hpow : (2 : Int) ^ c.toInt.toNat = ((2 ^ c.toInt.toNat : Nat) : Int) := by push_cast; rfl
  rw [← Int64.toInt_toBitVec, Int64.toBitVec_shiftRight, BitVec.toInt_sshiftRight',
    toNat_smod_width hlow hhigh, Int.shiftRight_eq_div_pow, hpow,
    Int.fdiv_eq_ediv_of_nonneg _ (Int.natCast_nonneg _), Int64.toInt_toBitVec]

/-- Divided by more than it can be and rounded down, a number is its sign. -/
theorem fdiv_two_pow_of_le (l : Int64) {n : Nat} (hn : 63 ≤ n) :
    l.toInt.fdiv (2 ^ n) = if l.toInt < 0 then -1 else 0 := by
  have hbig : (2 : Int) ^ 63 ≤ 2 ^ n := by exact_mod_cast Nat.pow_le_pow_right (by decide) hn
  have hlow := l.le_toInt
  have hhigh := l.toInt_lt
  have hpos : (0 : Int) < 2 ^ n := by omega
  rw [Int.fdiv_eq_ediv_of_nonneg _ hpos.le]
  split
  · have hle : -1 ≤ l.toInt / 2 ^ n := (Int.le_ediv_iff_mul_le hpos).2 (by omega)
    have hlt : l.toInt / 2 ^ n < 0 := (Int.ediv_lt_iff_lt_mul hpos).2 (by omega)
    omega
  · exact Int.ediv_eq_zero_of_lt (by omega) (by omega)

theorem shiftCount_of_neg (hr : r.toInt < 0) : shiftCount r = .error (.negativeShift r) := by
  rw [shiftCount, if_pos]
  rwa [Int64.lt_iff_toInt_lt, Int64.toInt_zero]

/-- Any other count moves by that many places, but by no more than 63. -/
theorem shiftCount_of_nonneg (hr : 0 ≤ r.toInt) :
    ∃ c, shiftCount r = .ok c ∧ c.toInt = min r.toInt 63 := by
  have hnot : ¬ r < 0 := by
    rw [Int64.lt_iff_toInt_lt, Int64.toInt_zero]
    omega
  have hwide : 63 < r ↔ 63 < r.toInt := Int64.lt_iff_toInt_lt
  rw [shiftCount, if_neg hnot]
  refine ⟨_, rfl, ?_⟩
  split <;> rename_i h <;> rw [hwide] at h
  · rw [min_eq_right (by omega)]
    rfl
  · rw [min_eq_left (by omega)]

/-- What a shift to the left by 63 places makes of a number is right for every longer way if its lowest bit is
not set, and for none if it is. -/
theorem modEq_shifted_iff {l v : Int} {n : Nat} (hn : 63 < n) (hv : v ≡ l * 2 ^ 63 [ZMOD 2 ^ 64]) :
    v ≡ l * 2 ^ n [ZMOD 2 ^ 64] ↔ l % 2 ≠ 1 := by
  have hout : l * 2 ^ n ≡ 0 [ZMOD 2 ^ 64] := Int.modEq_zero_iff_dvd.2 ((pow_dvd_pow 2 hn).mul_left l)
  have hlast : l * 2 ^ 63 ≡ 0 [ZMOD 2 ^ 64] ↔ l % 2 ≠ 1 := by
    rw [Int.modEq_zero_iff_dvd]
    omega
  rw [← hlast]
  exact ⟨fun h => hv.symm.trans (h.trans hout), fun h => hv.trans (h.trans hout.symm)⟩

/-- Shifts to the left calculate. -/
theorem calculates_shiftLeft (l r : Int64) : Calculates .shiftLeft l r (apply .shiftLeft l r) := by
  by_cases hr : r.toInt < 0
  · rw [apply, shiftCount_of_neg hr]
    exact .of_undefined (show Undefined .shiftLeft r.toInt from hr) _
  · obtain ⟨c, hcount, hc⟩ := shiftCount_of_nonneg (not_lt.1 hr)
    have hshift := toInt_shiftLeft l (show 0 ≤ c.toInt by omega) (by omega)
    rw [apply, hcount]
    refine ⟨fun h => absurd h hr, fun _ => ⟨l <<< c, rfl, ?_⟩⟩
    simp only [Exact, Overshifts, true_and, not_and]
    rw [hc] at hshift
    by_cases hwide : 63 < r.toInt
    · rw [min_eq_right hwide.le] at hshift
      rw [modEq_shifted_iff (by omega) hshift, forall_prop_of_true hwide]
    · rw [min_eq_left (not_lt.1 hwide)] at hshift
      exact iff_of_true hshift fun h => absurd h hwide

/-- Shifts to the right calculate. -/
theorem calculates_shiftRight (l r : Int64) : Calculates .shiftRight l r (apply .shiftRight l r) := by
  by_cases hr : r.toInt < 0
  · rw [apply, shiftCount_of_neg hr]
    exact .of_undefined (show Undefined .shiftRight r.toInt from hr) _
  · obtain ⟨c, hcount, hc⟩ := shiftCount_of_nonneg (not_lt.1 hr)
    have hshift := toInt_shiftRight l (show 0 ≤ c.toInt by omega) (by omega)
    rw [apply, hcount]
    refine .of_exact nofun hr ?_
    rw [Exact, hshift, hc]
    by_cases hwide : 63 < r.toInt
    · -- both ways move everything but the sign out of the number
      rw [min_eq_right hwide.le, fdiv_two_pow_of_le l (by decide), fdiv_two_pow_of_le l (by omega)]
    · rw [min_eq_left (not_lt.1 hwide)]

end Shifts

section Divisions

theorem beq_zero_iff (r : Int64) : (r == 0) = true ↔ r.toInt = 0 := by
  rw [beq_iff_eq, ← Int64.toInt_inj, Int64.toInt_zero]

/-- Quotients are rounded toward zero, and what is left makes them up to the number. -/
theorem exact_divide (l r : Int64) : Exact .divide l.toInt r.toInt (l / r).toInt := by
  have hquotient : (l / r).toInt ≡ l.toInt.tdiv r.toInt [ZMOD 2 ^ 64] := by
    rw [Int64.toInt_div]
    exact bmod_modEq _
  refine ⟨hquotient, ?_⟩
  calc l.toInt = l.toInt.tdiv r.toInt * r.toInt + l.toInt.tmod r.toInt := (Int.tdiv_mul_add_tmod _ _).symm
    _ ≡ (l / r).toInt * r.toInt + l.toInt.tmod r.toInt [ZMOD 2 ^ 64] :=
      (hquotient.symm.mul_right _).add_right _

/-- Quotients calculate. -/
theorem calculates_divide (l r : Int64) : Calculates .divide l r (apply .divide l r) := by
  rw [apply]
  split <;> rename_i hr <;> rw [beq_zero_iff] at hr
  · exact .of_undefined (show Undefined .divide r.toInt from hr) _
  · exact .of_exact nofun hr (exact_divide l r)

/-- Remainders calculate. -/
theorem calculates_modulo (l r : Int64) : Calculates .modulo l r (apply .modulo l r) := by
  rw [apply]
  split <;> rename_i hr <;> rw [beq_zero_iff] at hr
  · exact .of_undefined (show Undefined .modulo r.toInt from hr) _
  · exact .of_exact nofun hr (Int64.toInt_mod l r)

end Divisions

theorem toInt_ofBool (p : Prop) [Decidable p] : (Expr.ofBool (decide p)).toInt = if p then 1 else 0 := by
  by_cases h : p <;> simp [Expr.ofBool, h]

/-- Every operator on numbers calculates. -/
theorem calculates_apply {op : BinaryOp} (hop : op.isArithmetic = true) (l r : Int64) :
    Calculates op l r (apply op l r) := by
  cases op with
  | add => exact .of_exact nofun id (by rw [Exact, Int64.toInt_add]; exact bmod_modEq _)
  | subtract => exact .of_exact nofun id (by rw [Exact, Int64.toInt_sub]; exact bmod_modEq _)
  | multiply => exact .of_exact nofun id (by rw [Exact, Int64.toInt_mul]; exact bmod_modEq _)
  | shiftLeft => exact calculates_shiftLeft l r
  | shiftRight => exact calculates_shiftRight l r
  | divide => exact calculates_divide l r
  | modulo => exact calculates_modulo l r
  | bitAnd => exact .of_exact nofun id (testBit_toInt_and l r)
  | bitOr => exact .of_exact nofun id (testBit_toInt_or l r)
  | bitXor => exact .of_exact nofun id (testBit_toInt_xor l r)
  | greater => exact .of_exact nofun id (by simp only [Exact, toInt_ofBool, Int64.lt_iff_toInt_lt])
  | less => exact .of_exact nofun id (by simp only [Exact, toInt_ofBool, Int64.lt_iff_toInt_lt])
  | greaterEqual => exact .of_exact nofun id (by simp only [Exact, toInt_ofBool, Int64.le_iff_toInt_le])
  | lessEqual => exact .of_exact nofun id (by simp only [Exact, toInt_ofBool, Int64.le_iff_toInt_le])
  | _ => cases hop

/-- An operator that calculates is applied to the numbers that its operands are. -/
theorem applyBinary_number {op : BinaryOp} (hop : op.isArithmetic = true) (l r : Int64)
    (loc left right : Location) (vial viar : Text) :
    Eval.applyBinary op loc (.number left l vial) (.number right r viar) =
      (apply op l r).map (.literal loc) := by
  have hmap : ∀ x : Except Cause Int64,
      (x >>= fun v => pure (Expr.literal loc v)) = x.map (.literal loc) := by
    intro x
    cases x <;> rfl
  rw [← hmap]
  cases op with
  | joinNames | joinDecimal | joinHex | or | and | concat | equal | notEqual => cases hop
  | _ => rfl

/-- Operations on numbers, wherever they are evaluated, fail exactly where they mean nothing. Everywhere else they
give a number, and it is exact unless a shift to the left by more than the width leaves a bit. -/
theorem operation_exact {op : BinaryOp} (hop : op.isArithmetic = true) (l r : Int64)
    (loc left right : Location) (vial viar : Text) :
    ∃ result, Eval.EvaluatesTo (.binary loc op (.number left l vial) (.number right r viar))
        (result.map (.literal loc)) ∧ Calculates op l r result := by
  refine ⟨apply op l r, ?_, calculates_apply hop l r⟩
  rw [← applyBinary_number hop l r loc left right vial viar]
  exact Eval.evaluatesTo_binary (Eval.treatment_of_isArithmetic hop) (Eval.evaluatesTo_number left l vial)
    (Eval.evaluatesTo_number right r viar) rfl rfl loc

/-- The only quotient that does not fit: the least number divided by -1 is itself, and nothing is left of it. -/
theorem operation_exact_least :
    Eval.EvaluatesTo (.binary default .divide (.number default Int64.minValue "") (.number default (-1) ""))
      (.ok (.literal default Int64.minValue)) := by
  obtain ⟨result, heval, -, hdefined⟩ :=
    operation_exact (show BinaryOp.isArithmetic .divide = true from rfl) Int64.minValue (-1) default default
      default "" ""
  obtain ⟨v, rfl, hexact⟩ := hdefined (show (-1 : Int64).toInt ≠ 0 by decide)
  obtain ⟨hquotient, -⟩ : Exact .divide Int64.minValue.toInt (-1 : Int64).toInt v.toInt :=
    hexact.2 fun hover => absurd hover.1 (by decide)
  have hleast : v.toInt = Int64.minValue.toInt := by
    have hlow := v.le_toInt
    have hhigh := v.toInt_lt
    rw [Int.ModEq, show Int64.minValue.toInt.tdiv (-1 : Int64).toInt = 2 ^ 63 from rfl] at hquotient
    rw [show Int64.minValue.toInt = -2 ^ 63 from rfl]
    omega
  rwa [Int64.toInt_inj.1 hleast] at heval

/-- One shifted to the left by more than the width keeps its bit, though no multiple of 2^64 has it. -/
theorem shiftLeft_overshifts :
    Eval.EvaluatesTo (.binary default .shiftLeft (.number default 1 "") (.number default 64 ""))
        (.ok (.literal default Int64.minValue)) ∧
      ¬ Exact .shiftLeft (1 : Int64).toInt (64 : Int64).toInt Int64.minValue.toInt := by
  have hexact : ¬ Int64.minValue.toInt ≡ (1 : Int64).toInt * 2 ^ (64 : Int64).toInt.toNat [ZMOD 2 ^ 64] := by
    decide
  exact ⟨Eval.evaluatesTo_binary rfl (Eval.evaluatesTo_number _ _ _) (Eval.evaluatesTo_number _ _ _) rfl rfl
    default, hexact⟩

end Arithmetic

end MacroAsm
