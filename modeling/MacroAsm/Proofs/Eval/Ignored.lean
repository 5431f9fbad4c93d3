import MacroAsm.Proofs.Eval.Requests
import MacroAsm.Proofs.Eval.TwoStage

/-!
# Arguments that are ignored

A function that ignores its arguments runs while they are pending, and nothing of them is left. `Expr.strip`
leaves them out from the beginning. What is left of an expression is left of it without them
(`Eval.outcome_le_strip`), and such expressions are plain (`Expr.isPlain_strip`), so that evaluating them in
two stages loses nothing. What evaluation leaves gives no function ignored arguments any more
(`Eval.isStripped_outcome`).
-/

namespace MacroAsm

namespace Expr

mutual

/-- An expression without the arguments of the function that ignores them. -/
def strip : Expr → Expr
  | .unary loc op value => .unary loc op value.strip
  | .binary loc op left right => .binary loc op left.strip right.strip
  | .ternary loc test onTrue onFalse => .ternary loc test.strip onTrue.strip onFalse.strip
  | .call loc name params =>
    .call loc name (if Builtin.ofName? name = some .assembler then [] else stripAll params)
  | .absolute loc address => .absolute loc address.strip
  | .displaced loc base displace => .displaced loc base displace.strip
  | .offset loc base value => .offset loc base value.strip
  | e => e

/-- The expressions of a list without arguments that are ignored. -/
def stripAll : List Expr → List Expr
  | [] => []
  | e :: rest => e.strip :: stripAll rest

end

/-- An expression that gives no function arguments it ignores. -/
def IsStripped (e : Expr) : Prop := e.strip = e

mutual

/-- Without ignored arguments an expression is plain. -/
theorem isPlain_strip : ∀ e : Expr, e.strip.isPlain = true := by
  intro e
  cases e with
  | unary loc op value => simpa only [strip, isPlain] using isPlain_strip value
  | binary loc op left right =>
    simp only [strip, isPlain, isPlain_strip left, isPlain_strip right, Bool.and_self]
  | ternary loc test onTrue onFalse =>
    simp only [strip, isPlain, isPlain_strip test, isPlain_strip onTrue, isPlain_strip onFalse, Bool.and_self]
  | call loc name params =>
    rw [strip, isPlain]
    split
    · simp [allPlain]
    · rename_i hname
      simp [allPlain_stripAll params, hname]
  | absolute loc address => simpa only [strip, isPlain] using isPlain_strip address
  | displaced loc base displace => simpa only [strip, isPlain] using isPlain_strip displace
  | offset loc base value => simpa only [strip, isPlain] using isPlain_strip value
  | _ => rfl

/-- Without ignored arguments the expressions of a list are plain. -/
theorem allPlain_stripAll : ∀ es : List Expr, allPlain (stripAll es) = true := by
  intro es
  cases es with
  | nil => rfl
  | cons e rest => simp only [stripAll, allPlain, isPlain_strip e, allPlain_stripAll rest, Bool.and_self]

end

@[simp]
theorem strip_tag (name : Text) (e : Expr) : (Eval.tag name e).strip = Eval.tag name e.strip := by
  cases e <;> rfl

end Expr

namespace Eval

variable {u : Surroundings} {radix : Nat} {f : Following}

mutual

/-- What is left of an expression is left of it without ignored arguments. -/
theorem outcome_le_strip : ∀ (e : Expr) (propagate : Bool),
    Below (outcome u radix f e propagate) (outcome u radix f e.strip propagate) := by
  intro e propagate
  cases e with
  | unary loc op value =>
    rw [Expr.strip, outcome, outcome]
    split
    · exact (outcome_le_strip value false).bind fun v => Below.refl _
    · exact (outcome_le_strip value propagate).bind fun v => Below.refl _
  | binary loc op left right =>
    rw [Expr.strip, outcome, outcome]
    cases treatment op with
    | joins =>
      refine (outcome_le_strip left false).bind fun l => (Below.refl _).bind fun name => ?_
      exact (outcome_le_strip right false).bind fun r => Below.refl _
    | joinsNumber =>
      refine (outcome_le_strip left false).bind fun l => (Below.refl _).bind fun name => ?_
      exact (outcome_le_strip right true).bind fun r => Below.refl _
    | decides stop =>
      exact (outcome_le_strip left propagate).bind fun l =>
        settleDecided_mono op stop loc (outcome_le_strip right propagate) l
    | strict =>
      refine (outcome_le_strip left propagate).bind fun l => ?_
      exact (outcome_le_strip right propagate).bind fun r => Below.refl _
  | ternary loc test onTrue onFalse =>
    rw [Expr.strip, outcome, outcome]
    exact (outcome_le_strip test propagate).bind fun t =>
      settleChoice_mono loc (outcome_le_strip onTrue propagate) (outcome_le_strip onFalse propagate) t
  | call loc name params =>
    rw [Expr.strip, outcome, outcome]
    split
    · -- the arguments are looked at only to see whether they fail
      rename_i hname
      intro left h
      rw [hname, Option.bind_some] at h ⊢
      obtain ⟨args, -, hsettle⟩ := Option.bind_eq_some_iff.1 h
      exact hsettle
    · refine (Below.refl _).bind fun b => ?_
      exact (outcomeAll_le_stripAll params propagate).bind fun args => Below.refl _
  | absolute loc address =>
    rw [Expr.strip, outcome, outcome]
    exact (outcome_le_strip address propagate).map _
  | displaced loc base displace =>
    rw [Expr.strip, outcome, outcome]
    exact (outcome_le_strip displace propagate).map _
  | offset loc base value =>
    rw [Expr.strip, outcome, outcome]
    exact (outcome_le_strip value propagate).map _
  | _ => exact Below.refl _

/-- What is left of the expressions of a list is left of them without ignored arguments. -/
theorem outcomeAll_le_stripAll : ∀ (es : List Expr) (propagate : Bool),
    Below (outcomeAll u radix f es propagate) (outcomeAll u radix f (Expr.stripAll es) propagate) := by
  intro es propagate
  cases es with
  | nil => exact Below.refl _
  | cons e rest =>
    rw [Expr.stripAll, outcomeAll, outcomeAll]
    refine (outcome_le_strip e propagate).bind fun v => ?_
    exact (outcomeAll_le_stripAll rest propagate).map _

end

/-- What a built name leads to has no ignored arguments if what names lead to has none. -/
theorem isStripped_spell (hf : ∀ loc name left, f loc name = some left → left.IsStripped)
    {propagate : Bool} {loc : Location} {name : Text} {left : Expr}
    (h : spell f propagate loc name = some left) : left.IsStripped := by
  cases propagate with
  | true => exact hf loc name left h
  | false =>
    cases h
    rfl

/-- A unary operation on an operand without ignored arguments. -/
theorem isStripped_settleUnary {op : UnaryOp} {loc : Location} {v left : Expr} (hv : v.IsStripped)
    (h : settleUnary op loc v = some left) : left.IsStripped := by
  rw [settleUnary] at h
  split at h
  · obtain ⟨n, rfl⟩ := applyUnary_cases (eq_ok_of_toOption h)
    rfl
  · cases h
    rw [Expr.IsStripped, Expr.strip, hv]

/-- A binary operation on operands without ignored arguments. -/
theorem isStripped_settleBinary {op : BinaryOp} {loc : Location} {l r left : Expr} (hl : l.IsStripped)
    (hr : r.IsStripped) (h : settleBinary op loc l r = some left) : left.IsStripped := by
  rw [settleBinary] at h
  split at h
  · rcases applyBinary_cases (eq_ok_of_toOption h) with ⟨n, rfl⟩ | ⟨t, rfl⟩
    · rfl
    · rfl
  · cases h
    rw [Expr.IsStripped, Expr.strip, hl, hr]

/-- A number that is appended to a name, neither of them with ignored arguments. -/
theorem isStripped_settleJoin (hf : ∀ loc name left, f loc name = some left → left.IsStripped)
    {propagate : Bool} {op : BinaryOp} {loc : Location} {l r left : Expr} {name : Text}
    (hl : l.IsStripped) (hr : r.IsStripped)
    (h : settleJoin f propagate op loc l name r = some left) : left.IsStripped := by
  rw [settleJoin] at h
  split at h
  · obtain ⟨n, -, hspell⟩ := Option.bind_eq_some_iff.1 h
    exact isStripped_spell hf hspell
  · cases h
    rw [Expr.IsStripped, Expr.strip, hl, hr]

/-- An operation that its left operand may decide, on operands without ignored arguments. -/
theorem isStripped_settleDecided {op : BinaryOp} {stop : Bool} {loc : Location} {l left : Expr}
    {right : Option Expr} (hl : l.IsStripped) (hright : ∀ r, right = some r → r.IsStripped)
    (h : settleDecided op stop loc right l = some left) : left.IsStripped := by
  rw [settleDecided] at h
  split at h
  · obtain ⟨t, -, hchosen⟩ := Option.bind_eq_some_iff.1 h
    split at hchosen
    · cases hchosen
      exact hl
    · exact hright left hchosen
  · obtain ⟨r, hr, rfl⟩ := Option.map_eq_some_iff.1 h
    rw [Expr.IsStripped, Expr.strip, hl, hright r hr]

/-- A choice between expressions without ignored arguments. -/
theorem isStripped_settleChoice {loc : Location} {t left : Expr} {onTrue onFalse : Option Expr}
    (ht : t.IsStripped) (htrue : ∀ a, onTrue = some a → a.IsStripped)
    (hfalse : ∀ b, onFalse = some b → b.IsStripped)
    (h : settleChoice loc onTrue onFalse t = some left) : left.IsStripped := by
  rw [settleChoice] at h
  split at h
  · obtain ⟨holds, -, hchosen⟩ := Option.bind_eq_some_iff.1 h
    split at hchosen
    · exact htrue left hchosen
    · exact hfalse left hchosen
  · obtain ⟨a, ha, hmap⟩ := Option.bind_eq_some_iff.1 h
    obtain ⟨b, hb, rfl⟩ := Option.map_eq_some_iff.1 hmap
    rw [Expr.IsStripped, Expr.strip, ht, htrue a ha, hfalse b hb]

/-- A call with arguments that have no ignored arguments. -/
theorem isStripped_settleCall (hargs : ∀ a ∈ u.args, a.IsStripped) {b : Builtin} {name : Text}
    (hname : Builtin.ofName? name = some b) {loc : Location} {args : List Expr} {left : Expr}
    (hall : Expr.stripAll args = args) (h : settleCall u b loc name args = some left) :
    left.IsStripped := by
  rw [settleCall] at h
  split at h
  · rcases Builtin.apply_cases (eq_ok_of_toOption h) with ⟨v, rfl⟩ | ⟨t, rfl⟩ | hmem
    · rfl
    · rfl
    · exact hargs left hmem
  · -- the function waits for its arguments, so it does not ignore them
    rename_i hwaits
    cases h
    have hreads : Builtin.ofName? name ≠ some .assembler := by
      intro hignores
      rw [hignores] at hname
      cases hname
      exact hwaits rfl
    rw [Expr.IsStripped, Expr.strip, if_neg hreads, hall]

mutual

/-- What is left of an expression has no ignored arguments. -/
theorem isStripped_outcome (hargs : ∀ a ∈ u.args, a.IsStripped)
    (hf : ∀ loc name left, f loc name = some left → left.IsStripped) :
    ∀ (e : Expr) (propagate : Bool) (left : Expr),
      outcome u radix f e propagate = some left → left.IsStripped := by
  intro e propagate left h
  cases e with
  | numeral loc digits =>
    rw [outcome] at h
    obtain ⟨v, -, rfl⟩ := Option.map_eq_some_iff.1 h
    rfl
  | identifier loc name =>
    rw [outcome] at h
    exact isStripped_spell hf h
  | unary loc op value =>
    rw [outcome] at h
    split at h
    · obtain ⟨v, -, hname⟩ := Option.bind_eq_some_iff.1 h
      obtain ⟨name, -, hspell⟩ := Option.bind_eq_some_iff.1 hname
      exact isStripped_spell hf hspell
    · obtain ⟨v, hv, hsettle⟩ := Option.bind_eq_some_iff.1 h
      exact isStripped_settleUnary (isStripped_outcome hargs hf value propagate v hv) hsettle
  | binary loc op l r =>
    have hleft := isStripped_outcome hargs hf l
    have hright := isStripped_outcome hargs hf r
    rw [outcome] at h
    cases hop : treatment op with
    | joins =>
      rw [hop] at h
      obtain ⟨a, -, hname⟩ := Option.bind_eq_some_iff.1 h
      obtain ⟨name, -, hsecond⟩ := Option.bind_eq_some_iff.1 hname
      obtain ⟨b, -, hmore⟩ := Option.bind_eq_some_iff.1 hsecond
      obtain ⟨more, -, hspell⟩ := Option.bind_eq_some_iff.1 hmore
      exact isStripped_spell hf hspell
    | joinsNumber =>
      rw [hop] at h
      obtain ⟨a, ha, hname⟩ := Option.bind_eq_some_iff.1 h
      obtain ⟨name, -, hsecond⟩ := Option.bind_eq_some_iff.1 hname
      obtain ⟨b, hb, hsettle⟩ := Option.bind_eq_some_iff.1 hsecond
      exact isStripped_settleJoin hf (hleft false a ha) (hright true b hb) hsettle
    | decides stop =>
      rw [hop] at h
      obtain ⟨a, ha, hsettle⟩ := Option.bind_eq_some_iff.1 h
      exact isStripped_settleDecided (hleft propagate a ha) (hright propagate) hsettle
    | strict =>
      rw [hop] at h
      obtain ⟨a, ha, hsecond⟩ := Option.bind_eq_some_iff.1 h
      obtain ⟨b, hb, hsettle⟩ := Option.bind_eq_some_iff.1 hsecond
      exact isStripped_settleBinary (hleft propagate a ha) (hright propagate b hb) hsettle
  | ternary loc test onTrue onFalse =>
    rw [outcome] at h
    obtain ⟨t, ht, hsettle⟩ := Option.bind_eq_some_iff.1 h
    exact isStripped_settleChoice (isStripped_outcome hargs hf test propagate t ht)
      (isStripped_outcome hargs hf onTrue propagate) (isStripped_outcome hargs hf onFalse propagate) hsettle
  | call loc name params =>
    rw [outcome] at h
    obtain ⟨b, hb, hparams⟩ := Option.bind_eq_some_iff.1 h
    obtain ⟨args, hvalues, hsettle⟩ := Option.bind_eq_some_iff.1 hparams
    exact isStripped_settleCall hargs hb (stripAll_outcomeAll hargs hf params propagate args hvalues) hsettle
  | absolute loc address =>
    rw [outcome] at h
    obtain ⟨v, hv, rfl⟩ := Option.map_eq_some_iff.1 h
    rw [Expr.IsStripped, Expr.strip, isStripped_outcome hargs hf address propagate v hv]
  | displaced loc base displace =>
    rw [outcome] at h
    obtain ⟨v, hv, rfl⟩ := Option.map_eq_some_iff.1 h
    rw [Expr.IsStripped, Expr.strip, isStripped_outcome hargs hf displace propagate v hv]
  | offset loc base value =>
    rw [outcome] at h
    obtain ⟨v, hv, rfl⟩ := Option.map_eq_some_iff.1 h
    rw [Expr.IsStripped, Expr.strip, isStripped_outcome hargs hf value propagate v hv]
  | _ =>
    rw [outcome] at h
    cases h
    rfl

/-- What is left of the expressions of a list has no ignored arguments. -/
theorem stripAll_outcomeAll (hargs : ∀ a ∈ u.args, a.IsStripped)
    (hf : ∀ loc name left, f loc name = some left → left.IsStripped) :
    ∀ (es : List Expr) (propagate : Bool) (left : List Expr),
      outcomeAll u radix f es propagate = some left → Expr.stripAll left = left := by
  intro es propagate left h
  cases es with
  | nil =>
    rw [outcomeAll] at h
    cases h
    rfl
  | cons e rest =>
    rw [outcomeAll] at h
    obtain ⟨v, hv, hmap⟩ := Option.bind_eq_some_iff.1 h
    obtain ⟨vs, hvs, rfl⟩ := Option.map_eq_some_iff.1 hmap
    rw [Expr.stripAll, isStripped_outcome hargs hf e propagate v hv,
      stripAll_outcomeAll hargs hf rest propagate vs hvs]

end

end Eval

end MacroAsm
