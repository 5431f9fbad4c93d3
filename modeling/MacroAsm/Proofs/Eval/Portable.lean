import MacroAsm.Proofs.Eval.Final
import MacroAsm.Proofs.Eval.Solution

/-!
# Expressions that mean the same in every block

The operator `^` builds a name of the block in which it is evaluated. An expression without it is portable:
what is left of it depends on what names stand for and on the arguments of the macro call, but not on the name of
the block (`Eval.outcome_of_isPortable`). Nothing is left of the operator once it was evaluated, so what evaluation
leaves is portable (`Eval.isPortable_outcome`). Neither are numerals left, so it does not depend on the radix
any more.
-/

namespace MacroAsm

namespace Expr

mutual

/-- Whether no name of the block is built in an expression and, unless `digits` is given, no numeral is left to be
read. -/
def isPortable (digits : Bool) : Expr → Bool
  | .numeral _ _ => digits
  | .unary _ op value => op != .macroLocal && value.isPortable digits
  | .binary _ _ left right => left.isPortable digits && right.isPortable digits
  | .ternary _ test onTrue onFalse =>
    test.isPortable digits && onTrue.isPortable digits && onFalse.isPortable digits
  | .call _ _ params => allPortable digits params
  | .absolute _ address => address.isPortable digits
  | .displaced _ _ displace => displace.isPortable digits
  | .offset _ _ value => value.isPortable digits
  | _ => true

/-- Whether the expressions of a list are portable. -/
def allPortable (digits : Bool) : List Expr → Bool
  | [] => true
  | e :: rest => e.isPortable digits && allPortable digits rest

end

/-- The expressions of a list are portable one by one. -/
theorem allPortable_iff {digits : Bool} {es : List Expr} :
    allPortable digits es = true ↔ ∀ e ∈ es, e.isPortable digits = true := by
  induction es with
  | nil => simp [allPortable]
  | cons e rest ih => simp [allPortable, ih]

mutual

/-- An expression in which no numeral is left is portable in any case. -/
theorem isPortable_of_false (digits : Bool) :
    ∀ e : Expr, e.isPortable false = true → e.isPortable digits = true := by
  intro e he
  cases e with
  | numeral loc text => cases he
  | unary loc op value =>
    simp only [isPortable, Bool.and_eq_true] at he ⊢
    exact ⟨he.1, isPortable_of_false digits value he.2⟩
  | binary loc op left right =>
    simp only [isPortable, Bool.and_eq_true] at he ⊢
    exact ⟨isPortable_of_false digits left he.1, isPortable_of_false digits right he.2⟩
  | ternary loc test onTrue onFalse =>
    simp only [isPortable, Bool.and_eq_true] at he ⊢
    exact ⟨⟨isPortable_of_false digits test he.1.1, isPortable_of_false digits onTrue he.1.2⟩,
      isPortable_of_false digits onFalse he.2⟩
  | call loc name params =>
    rw [isPortable] at he ⊢
    exact allPortable_of_false digits params he
  | absolute loc address =>
    rw [isPortable] at he ⊢
    exact isPortable_of_false digits address he
  | displaced loc base displace =>
    rw [isPortable] at he ⊢
    exact isPortable_of_false digits displace he
  | offset loc base value =>
    rw [isPortable] at he ⊢
    exact isPortable_of_false digits value he
  | _ => rfl

/-- Expressions in which no numeral is left are portable in any case. -/
theorem allPortable_of_false (digits : Bool) :
    ∀ es : List Expr, allPortable false es = true → allPortable digits es = true := by
  intro es hes
  cases es with
  | nil => rfl
  | cons e rest =>
    rw [allPortable, Bool.and_eq_true] at hes ⊢
    exact ⟨isPortable_of_false digits e hes.1, allPortable_of_false digits rest hes.2⟩

end

end Expr

namespace Eval

variable {u u' : Surroundings} {radix radix' : Nat} {f : Following} {digits propagate : Bool}

section Leaves

@[simp]
theorem isPortable_tag (name : Text) (e : Expr) : (tag name e).isPortable digits = e.isPortable digits := by
  cases e <;> rfl

/-- A built name leads to something portable where it is followed, and is so where it is not. -/
theorem isPortable_spell (hf : ∀ loc name v, f loc name = some v → v.isPortable false = true) {loc : Location}
    {name : Text} {v : Expr} (h : spell f propagate loc name = some v) : v.isPortable false = true := by
  cases propagate with
  | true => exact hf loc name v h
  | false =>
    cases h
    rfl

/-- What a function gives is portable, if the arguments of the macro call are. -/
theorem isPortable_apply (hargs : ∀ a ∈ u.args, a.isPortable false = true) {b : Builtin} {loc : Location}
    {args : List Expr} {v : Expr} (h : b.apply u.args loc args = .ok v) : v.isPortable false = true := by
  rcases Builtin.apply_cases h with ⟨n, rfl⟩ | ⟨t, rfl⟩ | hmem
  · rfl
  · rfl
  · exact hargs v hmem

/-- An operation on a portable operand. -/
theorem isPortable_settleUnary {op : UnaryOp} (hop : op ≠ .macroLocal) {loc : Location} {v w : Expr}
    (hv : v.isPortable false = true) (h : settleUnary op loc v = some w) : w.isPortable false = true := by
  rw [settleUnary] at h
  split at h
  · obtain ⟨n, rfl⟩ := applyUnary_cases (eq_ok_of_toOption h)
    rfl
  · cases h
    simp [Expr.isPortable, hop, hv]

/-- An operation on portable operands. -/
theorem isPortable_settleBinary {op : BinaryOp} {loc : Location} {l r w : Expr}
    (hl : l.isPortable false = true) (hr : r.isPortable false = true) (h : settleBinary op loc l r = some w) :
    w.isPortable false = true := by
  rw [settleBinary] at h
  split at h
  · rcases applyBinary_cases (eq_ok_of_toOption h) with ⟨n, rfl⟩ | ⟨t, rfl⟩
    · rfl
    · rfl
  · cases h
    simp [Expr.isPortable, hl, hr]

/-- A name that a number is appended to. -/
theorem isPortable_settleJoin (hf : ∀ loc name v, f loc name = some v → v.isPortable false = true)
    {op : BinaryOp} {loc : Location} {l r w : Expr} {name : Text} (hl : l.isPortable false = true)
    (hr : r.isPortable false = true) (h : settleJoin f propagate op loc l name r = some w) :
    w.isPortable false = true := by
  rw [settleJoin] at h
  split at h
  · obtain ⟨n, -, hspell⟩ := Option.bind_eq_some_iff.1 h
    exact isPortable_spell hf hspell
  · cases h
    simp [Expr.isPortable, hl, hr]

/-- An operation that a portable left operand may decide. -/
theorem isPortable_settleDecided {op : BinaryOp} {stop : Bool} {loc : Location} {l w : Expr}
    {right : Option Expr} (hl : l.isPortable false = true)
    (hright : ∀ r, right = some r → r.isPortable false = true) (h : settleDecided op stop loc right l = some w) :
    w.isPortable false = true := by
  rw [settleDecided] at h
  split at h
  · obtain ⟨t, -, hchosen⟩ := Option.bind_eq_some_iff.1 h
    split at hchosen
    · cases hchosen
      exact hl
    · exact hright w hchosen
  · obtain ⟨r, hr, rfl⟩ := Option.map_eq_some_iff.1 h
    simp [Expr.isPortable, hl, hright r hr]

/-- A choice between portable expressions. -/
theorem isPortable_settleChoice {loc : Location} {t w : Expr} {onTrue onFalse : Option Expr}
    (ht : t.isPortable false = true) (htrue : ∀ a, onTrue = some a → a.isPortable false = true)
    (hfalse : ∀ b, onFalse = some b → b.isPortable false = true) (h : settleChoice loc onTrue onFalse t = some w) :
    w.isPortable false = true := by
  rw [settleChoice] at h
  split at h
  · obtain ⟨holds, -, hchosen⟩ := Option.bind_eq_some_iff.1 h
    split at hchosen
    · exact htrue w hchosen
    · exact hfalse w hchosen
  · obtain ⟨a, ha, hmap⟩ := Option.bind_eq_some_iff.1 h
    obtain ⟨b, hb, rfl⟩ := Option.map_eq_some_iff.1 hmap
    simp [Expr.isPortable, ht, htrue a ha, hfalse b hb]

/-- A call with portable arguments. -/
theorem isPortable_settleCall (hargs : ∀ a ∈ u.args, a.isPortable false = true) {b : Builtin} {loc : Location}
    {name : Text} {args : List Expr} {w : Expr} (hall : ∀ v ∈ args, v.isPortable false = true)
    (h : settleCall u b loc name args = some w) : w.isPortable false = true := by
  rw [settleCall] at h
  split at h
  · exact isPortable_apply hargs (eq_ok_of_toOption h)
  · cases h
    rw [Expr.isPortable]
    exact Expr.allPortable_iff.2 hall

mutual

/-- If names lead to portable expressions, what is left of any expression is portable. -/
theorem isPortable_outcome (hargs : ∀ a ∈ u.args, a.isPortable false = true)
    (hf : ∀ loc name v, f loc name = some v → v.isPortable false = true) :
    ∀ (e : Expr) (propagate : Bool) (v : Expr), outcome u radix f e propagate = some v →
      v.isPortable false = true := by
  intro e propagate v h
  cases e with
  | numeral loc digits =>
    rw [outcome] at h
    obtain ⟨n, -, rfl⟩ := Option.map_eq_some_iff.1 h
    rfl
  | identifier loc name =>
    rw [outcome] at h
    exact isPortable_spell hf h
  | unary loc op value =>
    rw [outcome] at h
    by_cases hop : op = .macroLocal
    · rw [if_pos hop] at h
      obtain ⟨v', -, hname⟩ := Option.bind_eq_some_iff.1 h
      obtain ⟨name, -, hspell⟩ := Option.bind_eq_some_iff.1 hname
      exact isPortable_spell hf hspell
    · rw [if_neg hop] at h
      obtain ⟨v', hv', hsettle⟩ := Option.bind_eq_some_iff.1 h
      exact isPortable_settleUnary hop (isPortable_outcome hargs hf value propagate v' hv') hsettle
  | binary loc op left right =>
    have hleft := isPortable_outcome hargs hf left
    have hright := isPortable_outcome hargs hf right
    rw [outcome] at h
    cases hop : treatment op with
    | joins =>
      rw [hop] at h
      obtain ⟨l, -, hname⟩ := Option.bind_eq_some_iff.1 h
      obtain ⟨name, -, hrest⟩ := Option.bind_eq_some_iff.1 hname
      obtain ⟨r, -, hmore⟩ := Option.bind_eq_some_iff.1 hrest
      obtain ⟨more, -, hspell⟩ := Option.bind_eq_some_iff.1 hmore
      exact isPortable_spell hf hspell
    | joinsNumber =>
      rw [hop] at h
      obtain ⟨l, hl, hname⟩ := Option.bind_eq_some_iff.1 h
      obtain ⟨name, -, hrest⟩ := Option.bind_eq_some_iff.1 hname
      obtain ⟨r, hr, hsettle⟩ := Option.bind_eq_some_iff.1 hrest
      exact isPortable_settleJoin hf (hleft false l hl) (hright true r hr) hsettle
    | decides stop =>
      rw [hop] at h
      obtain ⟨l, hl, hsettle⟩ := Option.bind_eq_some_iff.1 h
      exact isPortable_settleDecided (hleft propagate l hl) (hright propagate) hsettle
    | strict =>
      rw [hop] at h
      obtain ⟨l, hl, hrest⟩ := Option.bind_eq_some_iff.1 h
      obtain ⟨r, hr, hsettle⟩ := Option.bind_eq_some_iff.1 hrest
      exact isPortable_settleBinary (hleft propagate l hl) (hright propagate r hr) hsettle
  | ternary loc test onTrue onFalse =>
    rw [outcome] at h
    obtain ⟨t, ht, hsettle⟩ := Option.bind_eq_some_iff.1 h
    exact isPortable_settleChoice (isPortable_outcome hargs hf test propagate t ht)
      (isPortable_outcome hargs hf onTrue propagate) (isPortable_outcome hargs hf onFalse propagate) hsettle
  | call loc name params =>
    rw [outcome] at h
    obtain ⟨b, -, hrest⟩ := Option.bind_eq_some_iff.1 h
    obtain ⟨args, hvalues, hsettle⟩ := Option.bind_eq_some_iff.1 hrest
    exact isPortable_settleCall hargs (isPortable_outcomeAll hargs hf params propagate args hvalues) hsettle
  | absolute loc address =>
    rw [outcome] at h
    obtain ⟨a, ha, rfl⟩ := Option.map_eq_some_iff.1 h
    exact isPortable_outcome hargs hf address propagate a ha
  | displaced loc base displace =>
    rw [outcome] at h
    obtain ⟨a, ha, rfl⟩ := Option.map_eq_some_iff.1 h
    exact isPortable_outcome hargs hf displace propagate a ha
  | offset loc base value =>
    rw [outcome] at h
    obtain ⟨a, ha, rfl⟩ := Option.map_eq_some_iff.1 h
    exact isPortable_outcome hargs hf value propagate a ha
  | _ =>
    rw [outcome] at h
    cases h
    rfl

/-- If names lead to portable expressions, what is left of the expressions of a list is portable. -/
theorem isPortable_outcomeAll (hargs : ∀ a ∈ u.args, a.isPortable false = true)
    (hf : ∀ loc name v, f loc name = some v → v.isPortable false = true) :
    ∀ (es : List Expr) (propagate : Bool) (vs : List Expr), outcomeAll u radix f es propagate = some vs →
      ∀ v ∈ vs, v.isPortable false = true := by
  intro es propagate vs h
  cases es with
  | nil =>
    rw [outcomeAll] at h
    cases h
    exact fun v hv => absurd hv List.not_mem_nil
  | cons e rest =>
    rw [outcomeAll] at h
    obtain ⟨v, hv, hmap⟩ := Option.bind_eq_some_iff.1 h
    obtain ⟨vs', hvs, rfl⟩ := Option.map_eq_some_iff.1 hmap
    exact List.forall_mem_cons.2
      ⟨isPortable_outcome hargs hf e propagate v hv, isPortable_outcomeAll hargs hf rest propagate vs' hvs⟩

end

end Leaves

section Elsewhere

mutual

/-- What is left of a portable expression depends neither on the name of the block nor, unless there are numerals
in it, on the radix. -/
theorem outcome_of_isPortable (hargs : u'.args = u.args) (hradix : digits = true → radix' = radix)
    (f : Following) :
    ∀ (e : Expr) (propagate : Bool), e.isPortable digits = true →
      outcome u' radix' f e propagate = outcome u radix f e propagate := by
  intro e propagate he
  cases e with
  | numeral loc text =>
    rw [outcome, outcome, hradix he]
  | unary loc op value =>
    rw [Expr.isPortable, Bool.and_eq_true, bne_iff_ne] at he
    rw [outcome, outcome, if_neg he.1, if_neg he.1, outcome_of_isPortable hargs hradix f value _ he.2]
  | binary loc op left right =>
    rw [Expr.isPortable, Bool.and_eq_true] at he
    have hleft := fun p => outcome_of_isPortable hargs hradix f left p he.1
    have hright := fun p => outcome_of_isPortable hargs hradix f right p he.2
    rw [outcome, outcome]
    cases treatment op <;> simp only [hleft, hright]
  | ternary loc test onTrue onFalse =>
    rw [Expr.isPortable, Bool.and_eq_true, Bool.and_eq_true] at he
    rw [outcome, outcome, outcome_of_isPortable hargs hradix f test _ he.1.1,
      outcome_of_isPortable hargs hradix f onTrue _ he.1.2, outcome_of_isPortable hargs hradix f onFalse _ he.2]
  | call loc name params =>
    rw [Expr.isPortable] at he
    have hsettle : ∀ b, settleCall u' b loc name = settleCall u b loc name := by
      intro b
      funext args
      rw [settleCall, settleCall, hargs]
    simp only [outcome, outcomeAll_of_allPortable hargs hradix f params _ he, hsettle]
  | absolute loc address =>
    rw [Expr.isPortable] at he
    rw [outcome, outcome, outcome_of_isPortable hargs hradix f address _ he]
  | displaced loc base displace =>
    rw [Expr.isPortable] at he
    rw [outcome, outcome, outcome_of_isPortable hargs hradix f displace _ he]
  | offset loc base value =>
    rw [Expr.isPortable] at he
    rw [outcome, outcome, outcome_of_isPortable hargs hradix f value _ he]
  | _ => rw [outcome, outcome]

/-- What is left of portable expressions depends neither on the name of the block nor on the radix. -/
theorem outcomeAll_of_allPortable (hargs : u'.args = u.args) (hradix : digits = true → radix' = radix)
    (f : Following) :
    ∀ (es : List Expr) (propagate : Bool), Expr.allPortable digits es = true →
      outcomeAll u' radix' f es propagate = outcomeAll u radix f es propagate := by
  intro es propagate hes
  cases es with
  | nil => rw [outcomeAll, outcomeAll]
  | cons e rest =>
    rw [Expr.allPortable, Bool.and_eq_true] at hes
    rw [outcomeAll, outcomeAll, outcome_of_isPortable hargs hradix f e _ hes.1,
      outcomeAll_of_allPortable hargs hradix f rest _ hes.2]

end

end Elsewhere

/-- Names that stand for portable values, in which numerals may be left. -/
def PortableNames (b : Text → Binding) : Prop :=
  ∀ name v, (b name).value = some v → v.isPortable true = true

section Names

variable {b : Text → Binding} {e v : Expr}

/-- Names that stand for portable values lead to portable expressions. -/
theorem isPortable_follow (hargs : ∀ a ∈ u.args, a.isPortable false = true) (n : Nat) (loc : Location)
    (name : Text) (v : Expr) (h : follow u radix b n loc name = some v) : v.isPortable false = true := by
  induction n generalizing loc name v with
  | zero =>
    rw [follow, lookup] at h
    split at h
    · cases h
    · split at h
      · cases h
      · cases h
        rfl
  | succ n ih =>
    rw [follow, lookup] at h
    split at h
    · cases h
    · split at h
      · obtain ⟨w, hw, rfl⟩ := Option.map_eq_some_iff.1 h
        rw [isPortable_tag]
        exact isPortable_outcome hargs ih _ true w hw
      · cases h
        rfl

/-- What is left of an expression is portable. -/
theorem Leaves.isPortable (hargs : ∀ a ∈ u.args, a.isPortable false = true)
    (h : Leaves u radix b e propagate v) : v.isPortable false = true := by
  obtain ⟨n, hn⟩ := h
  exact isPortable_outcome hargs (isPortable_follow hargs n) e propagate v hn

/-- Names that stand for portable values lead to the same in every block. -/
theorem follow_of_portableNames (hargs : u'.args = u.args) (hb : PortableNames b) (n : Nat) :
    follow u' radix b n = follow u radix b n := by
  induction n with
  | zero => rfl
  | succ n ih =>
    funext loc name
    rw [follow, follow, lookup, lookup]
    split
    · rfl
    · split
      · rename_i value hvalue
        rw [ih, outcome_of_isPortable hargs (fun _ => rfl) _ value true (hb name value hvalue)]
      · rfl

/-- The same is left of a portable expression in every block. -/
theorem Leaves.elsewhere (hargs : u'.args = u.args) (hb : PortableNames b) (he : e.isPortable true = true)
    (h : Leaves u radix b e propagate v) : Leaves u' radix b e propagate v := by
  obtain ⟨n, hn⟩ := h
  refine ⟨n, ?_⟩
  rw [follow_of_portableNames hargs hb, outcome_of_isPortable hargs (fun _ => rfl) _ e propagate he]
  exact hn

/-- A name may be bound to what is left of an expression. -/
theorem PortableNames.update (hb : PortableNames b) (name : Text) {binding : Binding}
    (hv : ∀ v, binding.value = some v → v.isPortable true = true) :
    PortableNames (Function.update b name binding) := by
  intro other w hw
  by_cases hother : other = name
  · subst hother
    rw [Function.update_self] at hw
    exact hv w hw
  · rw [Function.update_of_ne hother] at hw
    exact hb other w hw

end Names

end Eval

end MacroAsm
