import Mathlib.Data.Finset.Card
import Mathlib.Order.Nat
import MacroAsm.Eval.Flatten

/-!
# Evaluation without a state

Evaluation declares names ahead and marks them as used, but what it gives depends on the values that
names are bound to and on nothing else. `Eval.outcome` is evaluation as a function of how a name is
followed: the expression that is left, or nothing if it fails.

Names are followed in two ways. `Eval.guarded` keeps the list of the names being followed, as the
evaluator does, and fails when one of them is met again. `Eval.follow` keeps no list and gives up after
so many names. What a guard lets pass, enough steps reach without it (`guarded_le_follow`), and what some
number of steps reach, no guard is in the way of (`follow_le_guarded`). So following a name is a fixed
point of looking it up once (`guarded_eq_lookup`), in which no trace of the guard is left.
-/

namespace MacroAsm

/-- What a name stands for: the value it is bound to, if any, and whether it is a macro. -/
structure Binding where
  /-- The value. -/
  value : Option Expr
  /-- Whether it is a macro, which is no value. -/
  isMacro : Bool

namespace Binding

/-- The binding of a name that stands for nothing. -/
def unset : Binding := ⟨none, false⟩

/-- Whether a name stands for something. -/
def isSet (b : Binding) : Bool := b.value.isSome || b.isMacro

/-- The radix that is in force if this is the binding of the reserved name. -/
def radix (b : Binding) : Nat :=
  match b.value with
  | some (.number _ v _) => if 2 ≤ v && v ≤ 36 then v.toInt.toNat else Scope.defaultRadix
  | _ => Scope.defaultRadix

end Binding

/-- What the name of a symbol stands for. -/
def Symbol.binding (s : Symbol) : Binding := ⟨s.value, s.isMacro⟩

/-- What a name stands for in a scope. -/
def Scope.binding (s : Scope) (name : Text) : Binding :=
  ((s.find? name).map Symbol.binding).getD Binding.unset

/-- The radix of a scope is read off the binding of the reserved name. -/
theorem Scope.radix_eq (s : Scope) : s.radix = (s.binding Scope.radixName).radix := by
  rw [Scope.radix, Scope.binding]
  cases s.find? Scope.radixName with
  | none => rfl
  | some sym =>
    obtain ⟨value, _⟩ := sym
    cases value with
    | none => rfl
    | some e => cases e <;> rfl

/-- The name an expression is, if it is one. -/
def Expr.name? : Expr → Option Text
  | .identifier _ name => some name
  | _ => none

namespace Eval

/-- How an operator treats its operands. -/
inductive Treatment where
  /-- Both are names, which are joined. -/
  | joins
  /-- The left one is a name, which a number is appended to. -/
  | joinsNumber
  /-- The left one is the result if its truth is `stop`. -/
  | decides (stop : Bool)
  /-- Both are evaluated. -/
  | strict
deriving DecidableEq

/-- How an operator treats its operands. -/
def treatment : BinaryOp → Treatment
  | .joinNames => .joins
  | .joinDecimal | .joinHex => .joinsNumber
  | .or => .decides true
  | .and => .decides false
  | _ => .strict

/-- How names are followed. -/
abbrev Following := Location → Text → Option Expr

/-- A name that was built, followed where `propagate` asks for it. -/
def spell (follow : Following) (propagate : Bool) (loc : Location) (name : Text) : Option Expr :=
  if propagate then follow loc name else some (.identifier loc name)

/-- A unary operation on an evaluated operand. -/
def settleUnary (op : UnaryOp) (loc : Location) (v : Expr) : Option Expr :=
  if v.isConcrete then (applyUnary op loc v).toOption else some (.unary loc op v)

/-- A binary operation on evaluated operands. -/
def settleBinary (op : BinaryOp) (loc : Location) (l r : Expr) : Option Expr :=
  if l.isConcrete && r.isConcrete then (applyBinary op loc l r).toOption
  else some (.binary loc op l r)

/-- The name `name`, which the expression `l` is, followed by the number that `r` is. -/
def settleJoin (follow : Following) (propagate : Bool) (op : BinaryOp) (loc : Location) (l : Expr)
    (name : Text) (r : Expr) : Option Expr :=
  if r.isConcrete then
    r.asNumber.toOption.bind fun n => spell follow propagate loc (name ++ suffix op n)
  else some (.binary loc op l r)

/-- An operation whose left operand `l` may decide it, given what is left of the right one. -/
def settleDecided (op : BinaryOp) (stop : Bool) (loc : Location) (right : Option Expr) (l : Expr) :
    Option Expr :=
  if l.isConcrete then l.asTruth.toOption.bind fun t => if t = stop then some l else right
  else right.map (.binary loc op l)

/-- A choice between two expressions by `t`, given what is left of them. -/
def settleChoice (loc : Location) (onTrue onFalse : Option Expr) (t : Expr) : Option Expr :=
  if t.isConcrete then t.asTruth.toOption.bind fun holds => if holds then onTrue else onFalse
  else onTrue.bind fun a => onFalse.map (.ternary loc t a)

/-- A call with evaluated arguments. -/
def settleCall (u : Surroundings) (f : Builtin) (loc : Location) (name : Text) (args : List Expr) :
    Option Expr :=
  if f.isLazy || args.all Expr.isConcrete then (f.apply u.args loc args).toOption
  else some (.call loc name args)

mutual

/-- What is left of an expression, given how names are followed. -/
def outcome (u : Surroundings) (radix : Nat) (follow : Following) : Expr → Bool → Option Expr
  | .numeral loc digits, _ => (digits.toInt64? radix).map (.literal loc)
  | .identifier loc name, propagate => spell follow propagate loc name
  | .unary loc op value, propagate =>
    if op = .macroLocal then
      (outcome u radix follow value false).bind fun v => v.name?.bind fun name =>
        spell follow propagate loc (u.unit ++ "." ++ name)
    else (outcome u radix follow value propagate).bind (settleUnary op loc)
  | .binary loc op left right, propagate =>
    match treatment op with
    | .joins =>
      (outcome u radix follow left false).bind fun l => l.name?.bind fun name =>
        (outcome u radix follow right false).bind fun r => r.name?.bind fun more =>
          spell follow propagate loc (name ++ more)
    | .joinsNumber =>
      (outcome u radix follow left false).bind fun l => l.name?.bind fun name =>
        (outcome u radix follow right true).bind (settleJoin follow propagate op loc l name)
    | .decides stop =>
      (outcome u radix follow left propagate).bind
        (settleDecided op stop loc (outcome u radix follow right propagate))
    | .strict =>
      (outcome u radix follow left propagate).bind fun l =>
        (outcome u radix follow right propagate).bind (settleBinary op loc l)
  | .ternary loc test onTrue onFalse, propagate =>
    (outcome u radix follow test propagate).bind
      (settleChoice loc (outcome u radix follow onTrue propagate)
        (outcome u radix follow onFalse propagate))
  | .call loc name params, propagate =>
    (Builtin.ofName? name).bind fun f =>
      (outcomeAll u radix follow params propagate).bind (settleCall u f loc name)
  | .absolute loc address, propagate =>
    (outcome u radix follow address propagate).map (.absolute loc)
  | .displaced loc base displace, propagate =>
    (outcome u radix follow displace propagate).map (.displaced loc base)
  | .offset loc base value, propagate =>
    (outcome u radix follow value propagate).map (.offset loc base)
  | .number loc value via, _ => some (.number loc value via)
  | .string loc value via, _ => some (.string loc value via)
  | .fragment loc id label, _ => some (.fragment loc id label)
  | .here loc, _ => some (.here loc)
  | .register r, _ => some (.register r)
  | .condition c, _ => some (.condition c)
  | .indirect loc base, _ => some (.indirect loc base)
  | .indexed loc base index, _ => some (.indexed loc base index)

/-- What is left of the expressions of a list. -/
def outcomeAll (u : Surroundings) (radix : Nat) (follow : Following) :
    List Expr → Bool → Option (List Expr)
  | [], _ => some []
  | e :: rest, propagate =>
    (outcome u radix follow e propagate).bind fun v =>
      (outcomeAll u radix follow rest propagate).map (v :: ·)

end

/-- The name that an expression spells. -/
def spelled (u : Surroundings) (radix : Nat) (follow : Following) (e : Expr) : Option Text :=
  (outcome u radix follow e false).bind Expr.name?

/-- The number that an expression stands for. -/
def counted (u : Surroundings) (radix : Nat) (follow : Following) (e : Expr) : Option Int64 :=
  (outcome u radix follow e true).bind fun v => if v.isConcrete then v.asNumber.toOption else none

mutual

/-- The names that evaluating an expression asks for, those in operands that may be skipped included. Names
that are built count once they are. -/
def asked (u : Surroundings) (radix : Nat) (follow : Following) : Expr → Bool → List Text
  | .identifier _ name, propagate => if propagate then [name] else []
  | .unary _ op value, propagate =>
    if op = .macroLocal then
      asked u radix follow value false ++ if propagate then
        ((spelled u radix follow value).map (u.unit ++ "." ++ ·)).toList else []
    else asked u radix follow value propagate
  | .binary _ op left right, propagate =>
    match treatment op with
    | .joins =>
      asked u radix follow left false ++ asked u radix follow right false ++ if propagate then
        ((spelled u radix follow left).bind fun name =>
          (spelled u radix follow right).map (name ++ ·)).toList else []
    | .joinsNumber =>
      asked u radix follow left false ++ asked u radix follow right true ++ if propagate then
        ((spelled u radix follow left).bind fun name =>
          (counted u radix follow right).map (name ++ suffix op ·)).toList else []
    | _ => asked u radix follow left propagate ++ asked u radix follow right propagate
  | .ternary _ test onTrue onFalse, propagate =>
    asked u radix follow test propagate ++
      (asked u radix follow onTrue propagate ++ asked u radix follow onFalse propagate)
  | .call _ _ params, propagate => askedAll u radix follow params propagate
  | .absolute _ address, propagate => asked u radix follow address propagate
  | .displaced _ _ displace, propagate => asked u radix follow displace propagate
  | .offset _ _ value, propagate => asked u radix follow value propagate
  | _, _ => []

/-- The names that evaluating the expressions of a list asks for. -/
def askedAll (u : Surroundings) (radix : Nat) (follow : Following) : List Expr → Bool → List Text
  | [], _ => []
  | e :: rest, propagate => asked u radix follow e propagate ++ askedAll u radix follow rest propagate

end

/-- Looks a name up once. The value it is bound to is evaluated by `next`. -/
def lookup (bindings : Text → Binding) (next : Expr → Option Expr) : Following := fun loc name =>
  if (bindings name).isMacro then none
  else
    match (bindings name).value with
    | some value => (next value).map (tag name)
    | none => some (.identifier loc name)

/-- Follows a name through the values it leads to, for at most so many names. -/
def follow (u : Surroundings) (radix : Nat) (bindings : Text → Binding) : Nat → Following
  | 0 => lookup bindings fun _ => none
  | n + 1 => lookup bindings fun value =>
      outcome u radix (follow u radix bindings n) value true

/-- Follows a name through the values it leads to, and fails when a name of `guard` is met again. A name
that is left when the fuel is spent stays what it is. -/
def guarded (u : Surroundings) (radix : Nat) (bindings : Text → Binding) :
    Nat → List Text → Following
  | 0, guard, loc, name =>
    if name ∈ guard then none else lookup bindings (fun _ => some (.identifier loc name)) loc name
  | fuel + 1, guard, loc, name =>
    if name ∈ guard then none
    else
      lookup bindings
        (fun value => outcome u radix (guarded u radix bindings fuel (guard ++ [name])) value true)
        loc name

/-- Every result of `x` is the result of `y`. -/
def Below {α : Type} (x y : Option α) : Prop := ∀ a, x = some a → y = some a

namespace Below

variable {α β : Type} {x y z : Option α}

theorem refl (x : Option α) : Below x x := fun _ h => h

theorem trans (hxy : Below x y) (hyz : Below y z) : Below x z := fun a h => hyz a (hxy a h)

/-- Two computations that are each below the other are equal. -/
theorem antisymm (hxy : Below x y) (hyx : Below y x) : x = y := by
  cases x with
  | none =>
    cases y with
    | none => rfl
    | some b => exact (hyx b rfl)
  | some a => exact (hxy a rfl).symm

/-- Where the greater one fails the smaller one does. -/
theorem eq_none (hxy : Below x y) (hy : y = none) : x = none := by
  cases hx : x with
  | none => rfl
  | some a =>
    have := hxy a hx
    rw [hy] at this
    cases this

/-- A result that is processed further stays below. -/
theorem bind {g h : α → Option β} (hxy : Below x y) (hgh : ∀ a, Below (g a) (h a)) :
    Below (x.bind g) (y.bind h) := by
  intro b hb
  obtain ⟨a, ha, hga⟩ := Option.bind_eq_some_iff.1 hb
  exact Option.bind_eq_some_iff.2 ⟨a, hxy a ha, hgh a b hga⟩

/-- A result that is changed stays below. -/
theorem map (hxy : Below x y) (g : α → β) : Below (x.map g) (y.map g) := by
  intro b hb
  obtain ⟨a, ha, rfl⟩ := Option.map_eq_some_iff.1 hb
  exact Option.map_eq_some_iff.2 ⟨a, hxy a ha, rfl⟩

end Below

section Monotone

variable {u : Surroundings} {radix : Nat} {f g : Following}

/-- A built name that is followed further gives no less. -/
theorem spell_mono (hfg : ∀ loc name, Below (f loc name) (g loc name)) (propagate : Bool)
    (loc : Location) (name : Text) :
    Below (spell f propagate loc name) (spell g propagate loc name) := by
  cases propagate with
  | true => exact hfg loc name
  | false => exact Below.refl _

/-- A name with a number at its end that is followed further gives no less. -/
theorem settleJoin_mono (hfg : ∀ loc name, Below (f loc name) (g loc name)) (propagate : Bool)
    (op : BinaryOp) (loc : Location) (l : Expr) (name : Text) (r : Expr) :
    Below (settleJoin f propagate op loc l name r) (settleJoin g propagate op loc l name r) := by
  rw [settleJoin, settleJoin]
  split
  · exact (Below.refl _).bind fun n => spell_mono hfg propagate loc _
  · exact Below.refl _

/-- An operation whose right operand is followed further gives no less. -/
theorem settleDecided_mono (op : BinaryOp) (stop : Bool) (loc : Location) {x y : Option Expr}
    (hxy : Below x y) (l : Expr) :
    Below (settleDecided op stop loc x l) (settleDecided op stop loc y l) := by
  rw [settleDecided, settleDecided]
  split
  · refine (Below.refl _).bind fun t => ?_
    split
    · exact Below.refl _
    · exact hxy
  · exact hxy.map _

/-- A choice between expressions that are followed further gives no less. -/
theorem settleChoice_mono (loc : Location) {x x' y y' : Option Expr} (hx : Below x x')
    (hy : Below y y') (t : Expr) : Below (settleChoice loc x y t) (settleChoice loc x' y' t) := by
  rw [settleChoice, settleChoice]
  split
  · refine (Below.refl _).bind fun holds => ?_
    split
    · exact hx
    · exact hy
  · exact hx.bind fun a => hy.map _

mutual

/-- Names that are followed further leave no less of an expression. -/
theorem outcome_mono (hfg : ∀ loc name, Below (f loc name) (g loc name)) :
    ∀ (e : Expr) (propagate : Bool),
      Below (outcome u radix f e propagate) (outcome u radix g e propagate) := by
  intro e propagate
  cases e with
  | identifier loc name =>
    rw [outcome, outcome]
    exact spell_mono hfg propagate loc name
  | unary loc op value =>
    rw [outcome, outcome]
    split
    · refine (outcome_mono hfg value false).bind fun v => (Below.refl _).bind fun name => ?_
      exact spell_mono hfg propagate loc _
    · exact (outcome_mono hfg value propagate).bind fun v => Below.refl _
  | binary loc op left right =>
    rw [outcome, outcome]
    cases treatment op with
    | joins =>
      refine (outcome_mono hfg left false).bind fun l => (Below.refl _).bind fun name => ?_
      refine (outcome_mono hfg right false).bind fun r => (Below.refl _).bind fun more => ?_
      exact spell_mono hfg propagate loc _
    | joinsNumber =>
      refine (outcome_mono hfg left false).bind fun l => (Below.refl _).bind fun name => ?_
      refine (outcome_mono hfg right true).bind fun r => ?_
      exact settleJoin_mono hfg propagate op loc l name r
    | decides stop =>
      exact (outcome_mono hfg left propagate).bind fun l =>
        settleDecided_mono op stop loc (outcome_mono hfg right propagate) l
    | strict =>
      refine (outcome_mono hfg left propagate).bind fun l => ?_
      exact (outcome_mono hfg right propagate).bind fun r => Below.refl _
  | ternary loc test onTrue onFalse =>
    rw [outcome, outcome]
    exact (outcome_mono hfg test propagate).bind fun t =>
      settleChoice_mono loc (outcome_mono hfg onTrue propagate) (outcome_mono hfg onFalse propagate) t
  | call loc name params =>
    rw [outcome, outcome]
    refine (Below.refl _).bind fun b => ?_
    exact (outcomeAll_mono hfg params propagate).bind fun args => Below.refl _
  | absolute loc address =>
    rw [outcome, outcome]
    exact (outcome_mono hfg address propagate).map _
  | displaced loc base displace =>
    rw [outcome, outcome]
    exact (outcome_mono hfg displace propagate).map _
  | offset loc base value =>
    rw [outcome, outcome]
    exact (outcome_mono hfg value propagate).map _
  | _ =>
    rw [outcome, outcome]
    exact Below.refl _

/-- Names that are followed further leave no less of a list. -/
theorem outcomeAll_mono (hfg : ∀ loc name, Below (f loc name) (g loc name)) :
    ∀ (es : List Expr) (propagate : Bool),
      Below (outcomeAll u radix f es propagate) (outcomeAll u radix g es propagate) := by
  intro es propagate
  cases es with
  | nil =>
    rw [outcomeAll, outcomeAll]
    exact Below.refl _
  | cons e rest =>
    rw [outcomeAll, outcomeAll]
    refine (outcome_mono hfg e propagate).bind fun v => ?_
    exact (outcomeAll_mono hfg rest propagate).map _

end

end Monotone

section Following

variable {u : Surroundings} {radix : Nat} {bindings : Text → Binding}

/-- A value that is followed further gives no less when its name is looked up. -/
theorem lookup_mono_of_mem {next next' : Expr → Option Expr} {name : Text}
    (h : ∀ value, (bindings name).value = some value → Below (next value) (next' value))
    (loc : Location) : Below (lookup bindings next loc name) (lookup bindings next' loc name) := by
  rw [lookup, lookup]
  split
  · exact Below.refl _
  · split
    · exact (h _ ‹_›).map _
    · exact Below.refl _

/-- Values that are followed further give no less when a name is looked up. -/
theorem lookup_mono {next next' : Expr → Option Expr} (h : ∀ value, Below (next value) (next' value))
    (loc : Location) (name : Text) :
    Below (lookup bindings next loc name) (lookup bindings next' loc name) :=
  lookup_mono_of_mem (fun value _ => h value) loc

/-- The place where a name is looked up does not decide whether that fails. -/
theorem lookup_eq_none {next : Expr → Option Expr} {loc : Location} {name : Text}
    (h : lookup bindings next loc name = none) (loc' : Location) :
    lookup bindings next loc' name = none := by
  rw [lookup] at h ⊢
  split at h
  · rw [if_pos ‹_›]
  · rw [if_neg ‹_›]
    split at h
    · exact h
    · cases h

/-- Following for one more name gives no less. -/
theorem follow_le_succ (n : Nat) (loc : Location) (name : Text) :
    Below (follow u radix bindings n loc name) (follow u radix bindings (n + 1) loc name) := by
  induction n generalizing loc name with
  | zero => exact lookup_mono (fun value a h => by cases h) loc name
  | succ n ih => exact lookup_mono (fun value => outcome_mono ih value true) loc name

/-- Following for more names gives no less. -/
theorem follow_mono {m n : Nat} (hmn : m ≤ n) (loc : Location) (name : Text) :
    Below (follow u radix bindings m loc name) (follow u radix bindings n loc name) := by
  induction n, hmn using Nat.le_induction with
  | base => exact Below.refl _
  | succ n _ ih => exact ih.trans (follow_le_succ n loc name)

/-- The place where a name is followed does not decide whether that fails. -/
theorem follow_eq_none {n : Nat} {loc : Location} {name : Text}
    (h : follow u radix bindings n loc name = none) (loc' : Location) :
    follow u radix bindings n loc' name = none := by
  cases n with
  | zero => exact lookup_eq_none h loc'
  | succ n => exact lookup_eq_none h loc'

variable {dom : Finset Text}

/-- Putting a bound name under guard leaves fewer bound names without one. -/
theorem card_sdiff_guard {guard : List Text} {name : Text} (hmem : name ∈ dom)
    (hguard : name ∉ guard) :
    (dom \ (guard ++ [name]).toFinset).card < (dom \ guard.toFinset).card := by
  apply Finset.card_lt_card
  rw [Finset.ssubset_iff_of_subset (Finset.sdiff_subset_sdiff subset_rfl (by simp))]
  exact ⟨name, by simp [hmem, hguard], by simp⟩

/-- What a guard lets pass, enough steps reach without it. Each name that is followed goes under guard,
so there are no more steps than bound names. -/
theorem guarded_le_follow (hdom : ∀ name, (bindings name).value.isSome → name ∈ dom) (fuel : Nat)
    (guard : List Text) (hfuel : (dom \ guard.toFinset).card < fuel) (loc : Location) (name : Text) :
    Below (guarded u radix bindings fuel guard loc name) (follow u radix bindings fuel loc name) := by
  induction fuel generalizing guard loc name with
  | zero => omega
  | succ fuel ih =>
    rw [guarded, follow]
    split
    · intro a h
      cases h
    · rename_i hguard
      refine lookup_mono_of_mem (fun value hvalue => ?_) loc
      have hmem : name ∈ dom := hdom name (by rw [hvalue]; rfl)
      have hcard := card_sdiff_guard hmem hguard
      exact outcome_mono (ih _ (by omega)) value true

/-- What some number of steps reach, no guard is in the way of, if its names lead nowhere in that number
of steps. -/
theorem follow_le_guarded (hdom : ∀ name, (bindings name).value.isSome → name ∈ dom) (n fuel : Nat)
    (guard : List Text) (hfuel : (dom \ guard.toFinset).card < fuel)
    (hguard : ∀ name ∈ guard, ∀ loc, follow u radix bindings n loc name = none) (loc : Location)
    (name : Text) :
    Below (follow u radix bindings n loc name) (guarded u radix bindings fuel guard loc name) := by
  induction n using Nat.strong_induction_on generalizing fuel guard loc name with
  | _ n ih =>
  intro a ha
  have hname : name ∉ guard := by
    intro hmem
    rw [hguard name hmem loc] at ha
    cases ha
  -- the least number of steps that reaches the name: it leads nowhere in any smaller number
  classical
  have hex : ∃ k, follow u radix bindings k loc name = some a := ⟨n, ha⟩
  obtain ⟨m, hm, hleast, hmn⟩ : ∃ m, follow u radix bindings m loc name = some a ∧
      (∀ k < m, follow u radix bindings k loc name ≠ some a) ∧ m ≤ n :=
    ⟨Nat.find hex, Nat.find_spec hex, fun k hk => Nat.find_min hex hk, Nat.find_min' hex ha⟩
  -- before that number the name leads nowhere either, so it can go under guard
  have hnone : ∀ k < m, ∀ other ∈ guard ++ [name], ∀ loc',
      follow u radix bindings k loc' other = none := by
    intro k hk other hother loc'
    rcases List.mem_append.1 hother with hold | hnew
    · exact (follow_mono (by omega) loc' other).eq_none (hguard other hold loc')
    · have hfail : follow u radix bindings k loc name = none := by
        by_contra hsome
        obtain ⟨b, hb⟩ := Option.ne_none_iff_exists'.1 hsome
        have hab := follow_mono (Nat.le_of_lt hk) loc name b hb
        rw [hm] at hab
        exact hleast k hk (hab ▸ hb)
      rw [List.mem_singleton.1 hnew]
      exact follow_eq_none hfail loc'
  cases fuel with
  | zero => omega
  | succ fuel =>
    rw [guarded, if_neg hname]
    cases m with
    | zero => exact lookup_mono (fun value b h => by cases h) loc name a hm
    | succ m =>
      refine lookup_mono_of_mem (fun value hvalue => ?_) loc a hm
      have hmem : name ∈ dom := hdom name (by rw [hvalue]; rfl)
      have hcard := card_sdiff_guard hmem hname
      exact outcome_mono (ih m hmn fuel _ (by omega) (hnone m (Nat.lt_succ_self m))) value true

/-- Following a name is a fixed point of looking it up once, in which no trace of the guard is left. -/
theorem guarded_eq_lookup (hdom : ∀ name, (bindings name).value.isSome → name ∈ dom) {fuel : Nat}
    (hfuel : dom.card < fuel) (loc : Location) (name : Text) :
    guarded u radix bindings fuel [] loc name =
      lookup bindings (fun value => outcome u radix (guarded u radix bindings fuel []) value true)
        loc name := by
  have hcard : (dom \ ([] : List Text).toFinset).card < fuel := by simpa using hfuel
  have hle : ∀ loc name, Below (guarded u radix bindings fuel [] loc name)
      (follow u radix bindings fuel loc name) := guarded_le_follow hdom fuel [] hcard
  have hge : ∀ n loc name, Below (follow u radix bindings n loc name)
      (guarded u radix bindings fuel [] loc name) :=
    fun n => follow_le_guarded hdom n fuel [] hcard (by simp)
  refine Below.antisymm ((hle loc name).trans ?_) ?_
  · cases fuel with
    | zero => omega
    | succ fuel => exact lookup_mono (fun value => outcome_mono (hge fuel) value true) loc name
  · refine Below.trans (lookup_mono (fun value => outcome_mono hle value true) loc name) ?_
    exact hge (fuel + 1) loc name

end Following

end Eval

end MacroAsm
