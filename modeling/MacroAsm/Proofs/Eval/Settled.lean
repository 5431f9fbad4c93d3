import MacroAsm.Proofs.Eval.Action
import MacroAsm.Proofs.Eval.Outcome

/-!
# Expressions that evaluation leaves alone

An expression is settled if evaluation leaves it as it is, however names are followed. Numbers and strings
are, and so is all that operators and functions make of them (`Eval.settled_applyUnary`,
`Eval.settled_applyBinary`, `Eval.settled_apply`). What is left of an expression in which no name waits
does not depend on how names are followed (`Eval.outcome_of_isResolved`), so such an expression is settled
once it was evaluated.
-/

namespace MacroAsm

/-- Whether an expression is a string of digits that was not read yet. -/
def Expr.isNumeral : Expr → Bool
  | .numeral _ _ => true
  | _ => false

/-- A function gives a number, a string or an argument of the macro call. -/
theorem Builtin.apply_cases {f : Builtin} {macroArgs : List Expr} {loc : Location}
    {args : List Expr} {e : Expr} (h : f.apply macroArgs loc args = .ok e) :
    (∃ v, e = .literal loc v) ∨ (∃ t, e = .quoted loc t) ∨ e ∈ macroArgs := by
  cases f with
  | arg =>
    simp only [apply] at h
    split at h
    · obtain ⟨i, -, hi⟩ := Except.bind_eq_ok_iff.1 h
      split at hi
      · cases hi
      · split at hi
        · cases hi
          exact Or.inr (Or.inr (List.mem_of_getElem? ‹_›))
        · cases hi
    · cases h
  | _ =>
    -- every other function builds its result, whichever number of arguments it takes
    simp only [apply, best, applyToNumber] at h
    repeat' split at h
    all_goals
      simp only [Except.bind_eq_ok_iff, Pure.pure, Except.pure, Except.ok.injEq, reduceCtorEq] at h
    all_goals grind

namespace Eval

variable {u : Surroundings} {radix : Nat} {f : Following}

/-- An argument that evaluation leaves as it is, however names are followed. -/
def Settled (u : Surroundings) (radix : Nat) (a : Expr) : Prop :=
  ∀ (f : Following) (propagate : Bool), outcome u radix f a propagate = some a

/-- What is left of a settled expression is no numeral, as numerals are read. -/
theorem Settled.isNumeral_eq_false {a : Expr} (h : Settled u radix a) : a.isNumeral = false := by
  cases a with
  | numeral loc digits =>
    have hread := h (fun _ _ => none) true
    rw [outcome] at hread
    cases hdigits : digits.toInt64? radix with
    | none => simp [hdigits] at hread
    | some v => simp [hdigits, Expr.literal] at hread
  | _ => rfl

/-- A settled expression is no name, as names are followed. -/
theorem Settled.name?_eq_none {a : Expr} (h : Settled u radix a) : a.name? = none := by
  cases a with
  | identifier loc name =>
    have hfollowed := h (fun _ _ => none) true
    rw [outcome] at hfollowed
    cases hfollowed
  | _ => rfl

/-- A number or a string that is no numeral is left as it is. -/
theorem outcome_of_isConcrete {e : Expr} (hconcrete : e.isConcrete = true)
    (hnumeral : e.isNumeral = false) (f : Following) (propagate : Bool) :
    outcome u radix f e propagate = some e := by
  cases e with
  | number loc v via => rw [outcome]
  | string loc t via => rw [outcome]
  | numeral loc digits => cases hnumeral
  | _ => cases hconcrete

/-- Numbers and strings that are no numerals are left as they are. -/
theorem outcomeAll_of_all_isConcrete {es : List Expr} (hconcrete : es.all Expr.isConcrete = true)
    (hread : ∀ e ∈ es, e.isNumeral = false) (f : Following) (propagate : Bool) :
    outcomeAll u radix f es propagate = some es := by
  induction es with
  | nil => rw [outcomeAll]
  | cons e rest ih =>
    rw [List.all_cons, Bool.and_eq_true] at hconcrete
    have hrest := ih hconcrete.2 fun x hx => hread x (List.mem_cons_of_mem e hx)
    rw [outcomeAll, outcome_of_isConcrete hconcrete.1 (hread e List.mem_cons_self), hrest]
    rfl

theorem settled_literal (loc : Location) (v : Int64) : Settled u radix (.literal loc v) :=
  outcome_of_isConcrete rfl rfl

theorem settled_quoted (loc : Location) (t : Text) : Settled u radix (.quoted loc t) :=
  outcome_of_isConcrete rfl rfl

/-- What a unary operator gives is settled. -/
theorem settled_applyUnary {op : UnaryOp} {loc : Location} {v e : Expr}
    (h : applyUnary op loc v = .ok e) : Settled u radix e := by
  cases op <;>
    simp only [applyUnary, Except.bind_eq_ok_iff, Pure.pure, Except.pure, Except.ok.injEq] at h <;>
    obtain ⟨x, -, rfl⟩ := h <;>
    exact settled_literal loc _

/-- What a binary operator gives is settled. -/
theorem settled_applyBinary {op : BinaryOp} {loc : Location} {l r e : Expr}
    (h : applyBinary op loc l r = .ok e) : Settled u radix e := by
  rw [applyBinary.eq_def] at h
  split at h
  · cases h
    exact settled_literal loc _
  · cases h
    exact settled_literal loc _
  · obtain ⟨a, -, ha⟩ := Except.bind_eq_ok_iff.1 h
    obtain ⟨b, -, hb⟩ := Except.bind_eq_ok_iff.1 ha
    cases hb
    exact settled_quoted loc _
  · obtain ⟨a, -, ha⟩ := Except.bind_eq_ok_iff.1 h
    obtain ⟨b, -, hb⟩ := Except.bind_eq_ok_iff.1 ha
    obtain ⟨c, -, hc⟩ := Except.bind_eq_ok_iff.1 hb
    cases hc
    exact settled_literal loc _

/-- What a function gives is settled, if the arguments of the macro call are. -/
theorem settled_apply (hargs : ∀ a ∈ u.args, Settled u radix a) {b : Builtin} {loc : Location}
    {args : List Expr} {e : Expr} (h : b.apply u.args loc args = .ok e) : Settled u radix e := by
  rcases Builtin.apply_cases h with ⟨v, rfl⟩ | ⟨t, rfl⟩ | hmem
  · exact settled_literal loc v
  · exact settled_quoted loc t
  · exact hargs e hmem

/-- A result is what the failing computation behind it gave. -/
theorem eq_ok_of_toOption {α : Type} {x : Except Cause α} {a : α} (h : x.toOption = some a) :
    x = .ok a := by
  cases x with
  | ok b => rw [Option.some.inj h]
  | error c => cases h

/-- No expression without names that wait is a name. -/
theorem name?_of_isResolved {e : Expr} (h : e.isResolved = true) : e.name? = none := by
  cases e with
  | identifier loc name => cases h
  | _ => rfl

/-- What is left of a unary operation is no name. -/
theorem name?_of_settleUnary {op : UnaryOp} {loc : Location} {v left : Expr}
    (h : settleUnary op loc v = some left) : left.name? = none := by
  rw [settleUnary] at h
  split at h
  · have hsettled : Settled ⟨Text.empty, []⟩ 10 left := settled_applyUnary (eq_ok_of_toOption h)
    exact hsettled.name?_eq_none
  · cases h
    rfl

/-- What is left of a binary operation is no name. -/
theorem name?_of_settleBinary {op : BinaryOp} {loc : Location} {l r left : Expr}
    (h : settleBinary op loc l r = some left) : left.name? = none := by
  rw [settleBinary] at h
  split at h
  · have hsettled : Settled ⟨Text.empty, []⟩ 10 left := settled_applyBinary (eq_ok_of_toOption h)
    exact hsettled.name?_eq_none
  · cases h
    rfl

/-- What is left of a call is no name, if no argument of the macro call is one. -/
theorem name?_of_settleCall (hargs : ∀ a ∈ u.args, a.isResolved = true) {b : Builtin}
    {loc : Location} {name : Text} {args : List Expr} {left : Expr}
    (h : settleCall u b loc name args = some left) : left.name? = none := by
  rw [settleCall] at h
  split at h
  · rcases Builtin.apply_cases (eq_ok_of_toOption h) with ⟨v, rfl⟩ | ⟨t, rfl⟩ | hmem
    · rfl
    · rfl
    · exact name?_of_isResolved (hargs left hmem)
  · cases h
    rfl

/-- What is left of an operation that its left operand may decide is no name, if neither operand is one. -/
theorem name?_of_settleDecided {op : BinaryOp} {stop : Bool} {loc : Location} {l left : Expr}
    {right : Option Expr} (hl : l.name? = none) (hright : ∀ r, right = some r → r.name? = none)
    (h : settleDecided op stop loc right l = some left) : left.name? = none := by
  rw [settleDecided] at h
  split at h
  · obtain ⟨t, -, hchosen⟩ := Option.bind_eq_some_iff.1 h
    split at hchosen
    · cases hchosen
      exact hl
    · exact hright left hchosen
  · obtain ⟨r, -, rfl⟩ := Option.map_eq_some_iff.1 h
    rfl

/-- What is left of a choice is no name, if neither branch is one. -/
theorem name?_of_settleChoice {loc : Location} {t left : Expr} {onTrue onFalse : Option Expr}
    (htrue : ∀ a, onTrue = some a → a.name? = none) (hfalse : ∀ b, onFalse = some b → b.name? = none)
    (h : settleChoice loc onTrue onFalse t = some left) : left.name? = none := by
  rw [settleChoice] at h
  split at h
  · obtain ⟨holds, -, hchosen⟩ := Option.bind_eq_some_iff.1 h
    split at hchosen
    · exact htrue left hchosen
    · exact hfalse left hchosen
  · obtain ⟨a, -, hmap⟩ := Option.bind_eq_some_iff.1 h
    obtain ⟨b, -, rfl⟩ := Option.map_eq_some_iff.1 hmap
    rfl

/-- What is left of an expression without names that wait is no name. -/
theorem name?_of_outcome (hargs : ∀ a ∈ u.args, a.isResolved = true) :
    ∀ (e : Expr) (propagate : Bool) (left : Expr), e.isResolved = true →
      outcome u radix f e propagate = some left → left.name? = none := by
  intro e propagate left hresolved h
  cases e with
  | identifier loc name => cases hresolved
  | numeral loc digits =>
    rw [outcome] at h
    obtain ⟨v, -, rfl⟩ := Option.map_eq_some_iff.1 h
    rfl
  | unary loc op value =>
    rw [outcome] at h
    split at h
    · -- only a name can be made local to a call, and the operand is none
      obtain ⟨v, hv, hname⟩ := Option.bind_eq_some_iff.1 h
      rw [name?_of_outcome hargs value false v hresolved hv] at hname
      cases hname
    · obtain ⟨v, -, hsettle⟩ := Option.bind_eq_some_iff.1 h
      exact name?_of_settleUnary hsettle
  | binary loc op l r =>
    rw [Expr.isResolved, Bool.and_eq_true] at hresolved
    have hleft := fun p a => name?_of_outcome hargs l p a hresolved.1
    have hright := fun p a => name?_of_outcome hargs r p a hresolved.2
    rw [outcome] at h
    cases hop : treatment op with
    | joins | joinsNumber =>
      rw [hop] at h
      obtain ⟨a, ha, hname⟩ := Option.bind_eq_some_iff.1 h
      rw [hleft false a ha] at hname
      cases hname
    | decides stop =>
      rw [hop] at h
      obtain ⟨a, ha, hsettle⟩ := Option.bind_eq_some_iff.1 h
      exact name?_of_settleDecided (hleft propagate a ha) (hright propagate) hsettle
    | strict =>
      rw [hop] at h
      obtain ⟨a, -, hsecond⟩ := Option.bind_eq_some_iff.1 h
      obtain ⟨b, -, hsettle⟩ := Option.bind_eq_some_iff.1 hsecond
      exact name?_of_settleBinary hsettle
  | ternary loc test onTrue onFalse =>
    simp only [Expr.isResolved, Bool.and_eq_true] at hresolved
    rw [outcome] at h
    obtain ⟨t, -, hsettle⟩ := Option.bind_eq_some_iff.1 h
    exact name?_of_settleChoice (fun a => name?_of_outcome hargs onTrue propagate a hresolved.1.2)
      (fun b => name?_of_outcome hargs onFalse propagate b hresolved.2) hsettle
  | call loc name params =>
    rw [outcome] at h
    obtain ⟨b, -, hparams⟩ := Option.bind_eq_some_iff.1 h
    obtain ⟨args, -, hsettle⟩ := Option.bind_eq_some_iff.1 hparams
    exact name?_of_settleCall hargs hsettle
  | absolute | displaced | offset =>
    rw [outcome] at h
    obtain ⟨v, -, rfl⟩ := Option.map_eq_some_iff.1 h
    rfl
  | _ =>
    rw [outcome] at h
    cases h
    rfl

/-- Nothing is left of an expression that asks for the name of one that is no name. -/
theorem Below.of_name? {α : Type} {x : Option Expr} (hx : ∀ a, x = some a → a.name? = none)
    (k : Expr → Text → Option α) (y : Option α) : Below (x.bind fun a => a.name?.bind (k a)) y := by
  intro left h
  obtain ⟨a, ha, hname⟩ := Option.bind_eq_some_iff.1 h
  rw [hx a ha] at hname
  cases hname

mutual

/-- What is left of an expression without names that wait does not depend on how names are followed. -/
theorem outcome_of_isResolved (hargs : ∀ a ∈ u.args, a.isResolved = true) (g : Following) :
    ∀ (e : Expr) (p q : Bool), e.isResolved = true →
      Below (outcome u radix f e p) (outcome u radix g e q) := by
  intro e p q hresolved
  cases e with
  | identifier loc name => cases hresolved
  | numeral loc digits =>
    rw [outcome, outcome]
    exact Below.refl _
  | unary loc op value =>
    rw [outcome, outcome]
    split
    · exact Below.of_name? (fun a => name?_of_outcome hargs value false a hresolved) _ _
    · exact (outcome_of_isResolved hargs g value p q hresolved).bind fun v => Below.refl _
  | binary loc op left right =>
    rw [Expr.isResolved, Bool.and_eq_true] at hresolved
    have hleft := outcome_of_isResolved hargs g left p q hresolved.1
    have hright := outcome_of_isResolved hargs g right p q hresolved.2
    rw [outcome, outcome]
    cases treatment op with
    | joins | joinsNumber =>
      exact Below.of_name? (fun a => name?_of_outcome hargs left false a hresolved.1) _ _
    | decides stop => exact hleft.bind fun l => settleDecided_mono op stop loc hright l
    | strict => exact hleft.bind fun l => hright.bind fun r => Below.refl _
  | ternary loc test onTrue onFalse =>
    simp only [Expr.isResolved, Bool.and_eq_true] at hresolved
    have htrue := outcome_of_isResolved hargs g onTrue p q hresolved.1.2
    have hfalse := outcome_of_isResolved hargs g onFalse p q hresolved.2
    rw [outcome, outcome]
    exact (outcome_of_isResolved hargs g test p q hresolved.1.1).bind fun t =>
      settleChoice_mono loc htrue hfalse t
  | call loc name params =>
    rw [outcome, outcome]
    refine (Below.refl _).bind fun b => ?_
    exact (outcomeAll_of_allResolved hargs g params p q hresolved).bind fun args => Below.refl _
  | absolute loc address =>
    rw [outcome, outcome]
    exact (outcome_of_isResolved hargs g address p q hresolved).map _
  | displaced loc base displace =>
    rw [outcome, outcome]
    exact (outcome_of_isResolved hargs g displace p q hresolved).map _
  | offset loc base value =>
    rw [outcome, outcome]
    exact (outcome_of_isResolved hargs g value p q hresolved).map _
  | _ =>
    rw [outcome, outcome]
    exact Below.refl _

/-- What is left of expressions without names that wait does not depend on how names are followed. -/
theorem outcomeAll_of_allResolved (hargs : ∀ a ∈ u.args, a.isResolved = true) (g : Following) :
    ∀ (es : List Expr) (p q : Bool), Expr.allResolved es = true →
      Below (outcomeAll u radix f es p) (outcomeAll u radix g es q) := by
  intro es p q hresolved
  cases es with
  | nil =>
    rw [outcomeAll, outcomeAll]
    exact Below.refl _
  | cons e rest =>
    rw [Expr.allResolved, Bool.and_eq_true] at hresolved
    rw [outcomeAll, outcomeAll]
    refine (outcome_of_isResolved hargs g e p q hresolved.1).bind fun v => ?_
    exact (outcomeAll_of_allResolved hargs g rest p q hresolved.2).map _

end

end Eval

end MacroAsm
