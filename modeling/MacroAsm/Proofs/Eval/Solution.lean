import MacroAsm.Proofs.Eval.Ignored

/-!
# Solutions of definitions

Bindings are equations: each name that is bound leads to what its value leads to. A way to follow names
solves them if it makes these equations true (`Eval.Solves`), up to the places where expressions were read and
the names that values were resolved through. While definitions are bound one after the other, names are
followed through those that are bound by then, and what is left is stored. A solution cannot tell the
difference: an expression and what is left of it lead to the same (`Eval.Solves.leaves`). Once nothing is left
to be bound, what is left of an expression is what the solution says (`Eval.Solves.total`).
-/

namespace MacroAsm

/-- What a name stands for, without arguments that are ignored. -/
def Binding.strip (b : Binding) : Binding := ⟨b.value.map Expr.strip, b.isMacro⟩

namespace Eval

variable {both : Prop} {u : Surroundings} {radix : Nat} {f g : Following}

section Agreement

/-- Names that agree agree where they are followed. -/
theorem spell_agrees (hfg : ∀ loc name, Agrees both Expr.erase (f loc name) (g loc name))
    (propagate : Bool) (loc : Location) (name : Text) :
    Agrees both Expr.erase (spell f propagate loc name) (spell g propagate loc name) := by
  cases propagate with
  | true => exact hfg loc name
  | false => exact Agrees.refl _

/-- Computations that go on alike with the name of results that look alike agree. -/
theorem Agrees.bind_names {x y : Option Expr} {k k' : Expr → Text → Option Expr}
    (hxy : Agrees both Expr.erase x y)
    (hk : ∀ l l' name, l.erase = l'.erase → Agrees both Expr.erase (k l name) (k' l' name)) :
    Agrees both Expr.erase (x.bind fun l => l.name?.bind (k l)) (y.bind fun l => l.name?.bind (k' l)) := by
  refine hxy.bind fun l l' hl => ?_
  rw [name?_congr hl]
  cases l'.name? with
  | none => exact Agrees.refl _
  | some name => exact hk l l' name hl

/-- What agrees in both directions agrees the other way around. -/
theorem Agrees.symm {α β : Type} {er : α → β} {x y : Option α} (h : Agrees True er x y) :
    Agrees both er y x where
  forth b hb := by
    obtain ⟨a, ha, hab⟩ := h.back trivial b hb
    exact ⟨a, ha, hab.symm⟩
  back _ a ha := by
    obtain ⟨b, hb, hab⟩ := h.forth a ha
    exact ⟨b, hb, hab.symm⟩

/-- Names agree if what is left of the values that they are bound to does. -/
theorem lookup_agrees {bindings : Text → Binding} {next next' : Expr → Option Expr}
    (h : ∀ value, Agrees both Expr.erase (next value) (next' value)) (loc : Location) (name : Text) :
    Agrees both Expr.erase (lookup bindings next loc name) (lookup bindings next' loc name) := by
  rw [lookup, lookup]
  split
  · exact Agrees.refl _
  · split
    · exact (h _).map fun a b hab => by rw [erase_tag, erase_tag, hab]
    · exact Agrees.refl _

mutual

/-- What is left of an expression agrees if names do. -/
theorem outcome_agrees (hfg : ∀ loc name, Agrees both Expr.erase (f loc name) (g loc name)) :
    ∀ (e : Expr) (propagate : Bool),
      Agrees both Expr.erase (outcome u radix f e propagate) (outcome u radix g e propagate) := by
  intro e propagate
  cases e with
  | identifier loc name =>
    rw [outcome, outcome]
    exact spell_agrees hfg propagate loc name
  | unary loc op value =>
    rw [outcome, outcome]
    split
    · exact (outcome_agrees hfg value false).bind_names fun _ _ _ _ => spell_agrees hfg propagate loc _
    · exact (outcome_agrees hfg value propagate).bind fun _ _ h => settleUnary_agrees op loc h
  | binary loc op left right =>
    rw [outcome, outcome]
    cases treatment op with
    | joins =>
      refine (outcome_agrees hfg left false).bind_names fun _ _ _ _ => ?_
      exact (outcome_agrees hfg right false).bind_names fun _ _ _ _ => spell_agrees hfg propagate loc _
    | joinsNumber =>
      refine (outcome_agrees hfg left false).bind_names fun l l' name hl => ?_
      refine (outcome_agrees hfg right true).bind fun r r' hr => ?_
      -- the operands look alike first, and then the name that they make is followed
      refine (settleJoin_agrees f propagate op loc name hl hr).trans ?_
      rw [settleJoin, settleJoin]
      split
      · cases r'.asNumber.toOption with
        | none => exact Agrees.refl _
        | some n => exact spell_agrees hfg propagate loc _
      · exact Agrees.refl _
    | decides stop =>
      exact (outcome_agrees hfg left propagate).bind fun _ _ h =>
        settleDecided_agrees op stop loc (outcome_agrees hfg right propagate) h
    | strict =>
      refine (outcome_agrees hfg left propagate).bind fun _ _ hl => ?_
      exact (outcome_agrees hfg right propagate).bind fun _ _ hr => settleBinary_agrees op loc hl hr
  | ternary loc test onTrue onFalse =>
    rw [outcome, outcome]
    exact (outcome_agrees hfg test propagate).bind fun _ _ h =>
      settleChoice_agrees loc (outcome_agrees hfg onTrue propagate) (outcome_agrees hfg onFalse propagate) h
  | call loc name params =>
    rw [outcome, outcome]
    cases Builtin.ofName? name with
    | none => exact Agrees.refl _
    | some b =>
      exact (outcomeAll_agrees hfg params propagate).bind fun _ _ h => settleCall_agrees u b loc name h
  | absolute loc address =>
    rw [outcome, outcome]
    exact (outcome_agrees hfg address propagate).map fun _ _ h => by rw [Expr.erase, Expr.erase, h]
  | displaced loc base displace =>
    rw [outcome, outcome]
    exact (outcome_agrees hfg displace propagate).map fun _ _ h => by rw [Expr.erase, Expr.erase, h]
  | offset loc base value =>
    rw [outcome, outcome]
    exact (outcome_agrees hfg value propagate).map fun _ _ h => by rw [Expr.erase, Expr.erase, h]
  | _ =>
    rw [outcome, outcome]
    exact Agrees.refl _

/-- What is left of the expressions of a list agrees if names do. -/
theorem outcomeAll_agrees (hfg : ∀ loc name, Agrees both Expr.erase (f loc name) (g loc name)) :
    ∀ (es : List Expr) (propagate : Bool),
      Agrees both Expr.eraseAll (outcomeAll u radix f es propagate) (outcomeAll u radix g es propagate) := by
  intro es propagate
  cases es with
  | nil => exact Agrees.refl _
  | cons e rest =>
    rw [outcomeAll, outcomeAll]
    refine (outcome_agrees hfg e propagate).bind fun _ _ h => ?_
    exact (outcomeAll_agrees hfg rest propagate).map fun _ _ hs => by
      rw [Expr.eraseAll, Expr.eraseAll, h, hs]

end

end Agreement

/-- What names stand for, without arguments that are ignored. -/
def stripped (bindings : Text → Binding) (name : Text) : Binding := (bindings name).strip

/-- The expression `v` is left of `e` if names are followed through the bindings far enough. -/
def Leaves (u : Surroundings) (radix : Nat) (bindings : Text → Binding) (e : Expr) (propagate : Bool)
    (v : Expr) : Prop :=
  ∃ n, outcome u radix (follow u radix bindings n) e propagate = some v

/-- A way to follow names by which each name that is bound leads to what its value does. -/
def Solves (u : Surroundings) (radix : Nat) (g : Following) (bindings : Text → Binding) : Prop :=
  ∀ name, (bindings name).isSet = true → ∀ loc, Agrees True Expr.erase (g loc name)
    (lookup (stripped bindings) (fun value => outcome u radix g value true) loc name)

/-- A name that is not bound stays what it is. -/
theorem lookup_of_unset {bindings : Text → Binding} {name : Text} (h : (bindings name).isSet = false)
    (next : Expr → Option Expr) (loc : Location) :
    lookup bindings next loc name = some (.identifier loc name) := by
  rw [Binding.isSet, Bool.or_eq_false_iff, Option.isSome_eq_false_iff, Option.isNone_iff_eq_none] at h
  rw [lookup, h.2, h.1]
  rfl

section Stripped

variable {bindings : Text → Binding}

@[simp]
theorem isSet_stripped (bindings : Text → Binding) (name : Text) :
    (stripped bindings name).isSet = (bindings name).isSet := by
  simp [stripped, Binding.strip, Binding.isSet]

/-- What names lead to is what they lead to without ignored arguments. -/
theorem follow_le_stripped (n : Nat) (loc : Location) (name : Text) :
    Below (follow u radix bindings n loc name) (follow u radix (stripped bindings) n loc name) := by
  induction n generalizing loc name with
  | zero =>
    rw [follow, follow, lookup, lookup, stripped, Binding.strip]
    cases (bindings name).value with
    | none => exact Below.refl _
    | some value => exact Below.refl _
  | succ n ih =>
    rw [follow, follow, lookup, lookup, stripped, Binding.strip]
    split
    · exact Below.refl _
    · cases (bindings name).value with
      | none => exact Below.refl _
      | some value => exact ((outcome_mono ih value true).trans (outcome_le_strip value true)).map _

/-- What is left of an expression is left of it without ignored arguments. -/
theorem Leaves.stripped {e v : Expr} {propagate : Bool} (h : Leaves u radix bindings e propagate v) :
    Leaves u radix (stripped bindings) e.strip propagate v := by
  obtain ⟨n, hn⟩ := h
  exact ⟨n, outcome_le_strip e propagate v (outcome_mono (follow_le_stripped n) e propagate v hn)⟩

/-- What names lead to has no ignored arguments. -/
theorem isStripped_follow (hargs : u.args = []) (n : Nat) (loc : Location) (name : Text) (left : Expr)
    (h : follow u radix (Eval.stripped bindings) n loc name = some left) : left.IsStripped := by
  have hnone : ∀ a ∈ u.args, a.IsStripped := by simp [hargs]
  induction n generalizing loc name left with
  | zero =>
    rw [follow, lookup] at h
    split at h
    · cases h
    · split at h
      · cases h
      · cases h
        rfl
  | succ n ih =>
    rw [follow, lookup] at h
    split at h
    · cases h
    · split at h
      · obtain ⟨v, hv, rfl⟩ := Option.map_eq_some_iff.1 h
        rw [Expr.IsStripped, Expr.strip_tag, isStripped_outcome hnone ih _ true v hv]
      · cases h
        rfl

end Stripped

namespace Solves

variable {bindings : Text → Binding} (hargs : u.args = []) (hg : Solves u radix g bindings)
include hargs hg

/-- What bound names lead to leads to what the names do. -/
theorem anticipates (n : Nat) : Anticipates True u radix (follow u radix (stripped bindings) n) g := by
  have hnone : ∀ a ∈ u.args, Settled u radix a := by simp [hargs]
  -- a name that leads nowhere yet stays what it is
  have hunset : ∀ loc name, Restates True u radix g (.identifier loc name) true (.identifier loc name) :=
    fun loc name => ⟨Agrees.refl _, rfl⟩
  induction n with
  | zero =>
    intro loc name left h
    rw [follow, lookup] at h
    split at h
    · cases h
    · split at h
      · cases h
      · cases h
        exact hunset loc name
  | succ n ih =>
    intro loc name left h
    rw [follow, lookup] at h
    split at h
    · cases h
    · rename_i hkind
      split at h
      · rename_i value hvalue
        obtain ⟨v, hv, rfl⟩ := Option.map_eq_some_iff.1 h
        have hplain : value.isPlain = true := by
          obtain ⟨raw, -, rfl⟩ := Option.map_eq_some_iff.1 hvalue
          exact Expr.isPlain_strip raw
        have hstep := outcome_restates hnone ih value true v (fun _ => hplain) hv
        have hset : (bindings name).isSet = true := by
          rw [← isSet_stripped, Binding.isSet, hvalue]
          rfl
        have hname := hg name hset loc
        rw [lookup, if_neg hkind, hvalue] at hname
        constructor
        · rw [outcome, spell, if_pos rfl]
          refine hname.trans ((map_tag_agrees name _).trans ?_)
          exact hstep.agrees.trans (outcome_tag_agrees g name v true)
        · have hread := hstep.isRead
          cases v <;> exact hread
      · cases h
        exact hunset loc name

/-- An expression and what is left of it lead to the same, and nothing is ignored in what is left. -/
theorem leaves {e v : Expr} {propagate : Bool} (h : Leaves u radix bindings e propagate v) :
    Agrees True Expr.erase (outcome u radix g e.strip propagate) (outcome u radix g v propagate) ∧
      v.IsStripped := by
  obtain ⟨n, hn⟩ := h.stripped
  have hnone : ∀ a ∈ u.args, Settled u radix a := by simp [hargs]
  have hstripped : ∀ a ∈ u.args, a.IsStripped := by simp [hargs]
  refine ⟨?_, isStripped_outcome hstripped (isStripped_follow hargs n) e.strip propagate v hn⟩
  exact (outcome_restates hnone (anticipates hargs hg n) e.strip propagate v
    (fun _ => Expr.isPlain_strip e) hn).agrees

omit hargs in
/-- If the solution leaves alone what is not bound, then names lead to what it says. -/
theorem follow_agrees (hrest : ∀ name, (bindings name).isSet = false → ∀ loc,
      g loc name = some (.identifier loc name)) (n : Nat) (loc : Location) (name : Text) :
    Agrees False Expr.erase (follow u radix (stripped bindings) n loc name) (g loc name) := by
  have hall : ∀ loc name, Agrees False Expr.erase
      (lookup (stripped bindings) (fun value => outcome u radix g value true) loc name) (g loc name) := by
    intro loc name
    cases hname : (bindings name).isSet with
    | true => exact (hg name hname loc).symm
    | false =>
      rw [lookup_of_unset ((isSet_stripped bindings name).trans hname), hrest name hname loc]
      exact Agrees.refl _
  induction n generalizing loc name with
  | zero =>
    have hnone : ∀ x, Agrees False Expr.erase none x := fun x => ⟨fun _ h => (nomatch h), False.elim⟩
    exact (lookup_agrees (fun value => hnone _) loc name).trans (hall loc name)
  | succ n ih =>
    exact (lookup_agrees (fun value => outcome_agrees ih value true) loc name).trans (hall loc name)

omit hargs in
/-- If the solution leaves alone what is not bound, then what is left of an expression is what the solution
says. -/
theorem total (hrest : ∀ name, (bindings name).isSet = false → ∀ loc,
      g loc name = some (.identifier loc name)) {e v : Expr} {propagate : Bool}
    (h : Leaves u radix bindings e propagate v) :
    ∃ a, outcome u radix g e.strip propagate = some a ∧ v.erase = a.erase := by
  obtain ⟨n, hn⟩ := h.stripped
  exact (outcome_agrees (follow_agrees hg hrest n) e.strip propagate).forth v hn

omit hargs in
/-- A solution solves fewer equations as well. -/
theorem of_extends {fewer : Text → Binding}
    (hextends : ∀ name, (fewer name).isSet = true → bindings name = fewer name) :
    Solves u radix g fewer := by
  intro name hset loc
  have hname := hextends name hset
  have hsolves := hg name (by rw [hname]; exact hset) loc
  rwa [lookup, stripped, hname] at hsolves

omit hargs in
/-- A solution by which a name leads to what an expression does solves the binding of the name to what is left
of the expression. -/
theorem update {name : Text} {e v : Expr} (hv : v.IsStripped)
    (hname : ∀ loc, Agrees True Expr.erase (g loc name) (outcome u radix g e.strip true))
    (hagrees : Agrees True Expr.erase (outcome u radix g e.strip true) (outcome u radix g v true)) :
    Solves u radix g (Function.update bindings name ⟨some v, false⟩) := by
  intro other hset loc
  by_cases hother : other = name
  · subst hother
    rw [lookup, stripped, Function.update_self, Binding.strip, Option.map_some, hv]
    exact (hname loc).trans (hagrees.trans (map_tag_agrees other _).symm)
  · rw [Function.update_of_ne hother] at hset
    rw [lookup, stripped, Function.update_of_ne hother]
    exact hg other hset loc

end Solves

section Exists

variable {bindings : Text → Binding} {dom : Finset Text}

/-- The equations of finitely many names have a solution that leaves all other names alone. -/
theorem exists_solves (u : Surroundings) (radix : Nat)
    (hdom : ∀ name, (bindings name).value.isSome → name ∈ dom) :
    ∃ g, Solves u radix g bindings ∧
      ∀ name, (bindings name).isSet = false → ∀ loc, g loc name = some (.identifier loc name) := by
  have hdom' : ∀ name, (stripped bindings name).value.isSome → name ∈ dom := by
    intro name hname
    rw [stripped, Binding.strip, Option.isSome_map] at hname
    exact hdom name hname
  let g := guarded u radix (stripped bindings) (dom.card + 1) []
  have hfixed : ∀ loc name, g loc name =
      lookup (stripped bindings) (fun value => outcome u radix g value true) loc name :=
    guarded_eq_lookup hdom' (Nat.lt_succ_self dom.card)
  refine ⟨g, fun name _ loc => ?_, fun name hname loc => ?_⟩
  · rw [← hfixed]
    exact Agrees.refl _
  · rw [hfixed, lookup_of_unset ((isSet_stripped bindings name).trans hname)]

/-- What is left of an expression and waits for no name is what it leads to, however names are followed. -/
theorem Leaves.settled (hargs : u.args = []) (hdom : ∀ name, (bindings name).value.isSome → name ∈ dom)
    {e v : Expr} {propagate : Bool} (h : Leaves u radix bindings e propagate v) (hv : v.isResolved = true) :
    ∃ a, v.erase = a.erase ∧ ∀ (f : Following) (q : Bool), outcome u radix f v q = some a := by
  obtain ⟨g, hg, hrest⟩ := exists_solves u radix hdom
  obtain ⟨a, ha, hva⟩ := hg.total hrest h
  obtain ⟨b, hb, hab⟩ := (Solves.leaves hargs hg h).1.forth a ha
  have hnone : ∀ a ∈ u.args, a.isResolved = true := by simp [hargs]
  exact ⟨b, hva.trans hab, fun f q => outcome_of_isResolved hnone f v propagate q hv b hb⟩

end Exists

end Eval

end MacroAsm
