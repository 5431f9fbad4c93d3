import MacroAsm.Eval.Flatten

/-!
# Failures of operators and functions

No operator and no function fails in a way that ends the run. The only failure of evaluation that does is a
circular definition.
-/

namespace MacroAsm

variable {α β : Type}

/-- A computation that fails with nothing that ends the run. -/
def Mild (x : Except Cause α) : Prop := ∀ c, x = .error c → c.level = .fail

namespace Mild

theorem ok (a : α) : Mild (.ok a) := nofun

/-- A failure that does not end the run. -/
theorem error {c : Cause} (hc : c.level = .fail) : Mild (.error c : Except Cause α) := by
  intro c' h
  cases h
  exact hc

/-- A computation that goes on with the result of another. -/
theorem bind {x : Except Cause α} {k : α → Except Cause β} (hx : Mild x) (hk : ∀ a, Mild (k a)) :
    Mild (x >>= k) := by
  cases x with
  | ok a => exact hk a
  | error c => exact error (hx c rfl)

end Mild

namespace Expr

theorem mild_asNumber (e : Expr) : Mild e.asNumber := by
  cases e <;> first | exact .ok _ | exact .error rfl

theorem mild_asText (e : Expr) : Mild e.asText := by
  cases e <;> first | exact .ok _ | exact .error rfl

theorem mild_asTruth (e : Expr) : Mild e.asTruth := by
  cases e <;> first | exact .ok _ | exact .error rfl

/-- Reading the expressions of a list as numbers. -/
theorem mild_asNumbers (es : List Expr) : Mild (asNumbers es) := by
  induction es with
  | nil => exact .ok _
  | cons e rest ih => exact (mild_asNumber e).bind fun v => ih.bind fun vs => .ok _

end Expr

namespace Builtin

/-- Checking the number of arguments. -/
theorem mild_checkArity (function : Text) (expected : Arity) (args : List Expr) :
    Mild (checkArity function expected args) := by
  rw [checkArity]
  split
  · exact .ok _
  · exact .error rfl

/-- A function of one number. -/
theorem mild_applyToNumber (g : Int64 → Int64) (loc : Location) (args : List Expr) :
    Mild (applyToNumber g loc args) := by
  rw [applyToNumber.eq_def]
  split
  · exact (Expr.mild_asNumber _).bind fun v => .ok _
  · exact .error rfl

/-- The texts of a list of expressions. -/
theorem mild_concatTexts (es : List Expr) : Mild (concatTexts es) := by
  induction es with
  | nil => exact .ok _
  | cons e rest ih => exact (Expr.mild_asText e).bind fun t => ih.bind fun ts => .ok _

/-- The best number of a list. -/
theorem mild_best (better : Int64 → Int64 → Bool) (loc : Location) (function : Text) (args : List Expr) :
    Mild (best better loc function args) := by
  refine (mild_checkArity function _ args).bind fun _ => (Expr.mild_asNumbers args).bind fun vs => ?_
  split <;> exact .ok _

/-- A call of a function. -/
theorem mild_apply (f : Builtin) (macroArgs : List Expr) (loc : Location) (args : List Expr) :
    Mild (f.apply macroArgs loc args) := by
  cases f with
  | abs | high | low | sgn => exact mild_applyToNumber _ loc args
  | assembler => exact .ok _
  | max | min => exact mild_best _ loc _ args
  | cnt => exact (mild_checkArity _ _ args).bind fun _ => .ok _
  | cat => exact (mild_checkArity _ _ args).bind fun _ => (mild_concatTexts args).bind fun t => .ok _
  | arg =>
    simp only [apply]
    split
    · refine (Expr.mild_asNumber _).bind fun i => ?_
      split
      · exact .error rfl
      · split
        · exact .ok _
        · exact .error rfl
    · exact .error rfl
  | len =>
    simp only [apply]
    split
    · exact (Expr.mild_asText _).bind fun t => .ok _
    · exact .error rfl
  | caddr =>
    simp only [apply]
    split
    · exact (Expr.mild_asNumber _).bind fun page => (Expr.mild_asNumber _).bind fun offset => .ok _
    · exact .error rfl
  | scp =>
    simp only [apply]
    split
    · exact (Expr.mild_asText _).bind fun a => (Expr.mild_asText _).bind fun b => .ok _
    · exact .error rfl
  | pos =>
    simp only [apply]
    split
    · exact (Expr.mild_asText _).bind fun t => (Expr.mild_asText _).bind fun pat => .ok _
    · exact (Expr.mild_asText _).bind fun t => (Expr.mild_asText _).bind fun pat =>
        (Expr.mild_asNumber _).bind fun start => .ok _
    · exact .error rfl
  | sub =>
    simp only [apply]
    split
    · exact (Expr.mild_asText _).bind fun t => (Expr.mild_asNumber _).bind fun start =>
        (Expr.mild_asNumber _).bind fun length => .ok _
    · exact .error rfl

end Builtin

namespace Eval

/-- An operator on two numbers. -/
theorem mild_arithmetic (op : BinaryOp) (l r : Int64) : Mild (Arithmetic.apply op l r) := by
  have hshift : Mild (Arithmetic.shiftCount r) := by
    rw [Arithmetic.shiftCount]
    split
    · exact .error rfl
    · exact .ok _
  cases op with
  | shiftLeft | shiftRight => exact hshift.bind fun n => .ok _
  | divide | modulo =>
    rw [Arithmetic.apply]
    split
    · exact .error rfl
    · exact .ok _
  | _ => exact .ok _

/-- A unary operator. -/
theorem mild_applyUnary (op : UnaryOp) (loc : Location) (e : Expr) : Mild (applyUnary op loc e) := by
  cases op with
  | not => exact e.mild_asTruth.bind fun b => .ok _
  | _ => exact e.mild_asNumber.bind fun n => .ok _

/-- A binary operator. -/
theorem mild_applyBinary (op : BinaryOp) (loc : Location) (l r : Expr) : Mild (applyBinary op loc l r) := by
  cases op with
  | equal | notEqual => exact .ok _
  | concat => exact l.mild_asText.bind fun a => r.mild_asText.bind fun b => .ok _
  | _ =>
    exact l.mild_asNumber.bind fun a => r.mild_asNumber.bind fun b =>
      (mild_arithmetic _ a b).bind fun n => .ok _

end Eval

end MacroAsm
