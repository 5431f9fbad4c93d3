import MacroAsm.Proofs.Eval.Agreement
import MacroAsm.Proofs.Eval.Computes
import MacroAsm.Proofs.Eval.Settled

/-!
# Evaluating in two stages

An expression that waits for a name is evaluated again once more is known. The main result,
`Eval.flatten_twice`, says that this is as good as evaluating it once, over the later scope.

The step is `Eval.outcome_restates`: if following a name and then evaluating what it leads to is as good as
following it over the later scope, then the same goes for every expression. It is used for the names of
the earlier scope, which are followed for one name after the other (`Eval.follow_anticipates`).

One thing is lost in between. A function that ignores its arguments runs while they are still pending, and
what would fail in them later on is gone by then. So the second evaluation may succeed where a single one
fails, unless the expressions give such a function no arguments (`Expr.isPlain`).
-/

namespace MacroAsm

namespace Expr

mutual

/-- Whether an expression never gives arguments to the function that ignores them. -/
def isPlain : Expr → Bool
  | .unary _ _ value => value.isPlain
  | .binary _ _ left right => left.isPlain && right.isPlain
  | .ternary _ test onTrue onFalse => test.isPlain && onTrue.isPlain && onFalse.isPlain
  | .call _ name params =>
    (Builtin.ofName? name != some .assembler || params.isEmpty) && allPlain params
  | .absolute _ address => address.isPlain
  | .displaced _ _ displace => displace.isPlain
  | .offset _ _ value => value.isPlain
  | _ => true

/-- Whether every expression of a list is plain. -/
def allPlain : List Expr → Bool
  | [] => true
  | e :: rest => e.isPlain && allPlain rest

end

end Expr

namespace Eval

variable {both : Prop} {u : Surroundings} {radix : Nat} {f g : Following}

/-- The expression `e`, of which `left` is left, and what is left of it, evaluated with names followed by
`g`. The two agree, and the numerals of `e` were read. -/
structure Restates (both : Prop) (u : Surroundings) (radix : Nat) (g : Following) (e : Expr)
    (propagate : Bool) (left : Expr) : Prop where
  /-- The two agree. -/
  agrees : Agrees both Expr.erase (outcome u radix g e propagate)
    (outcome u radix g left propagate)
  /-- No numeral is left. -/
  isRead : left.isNumeral = false

/-- Following a name by `f` and evaluating what it leads to is as good as following it by `g`. -/
def Anticipates (both : Prop) (u : Surroundings) (radix : Nat) (f g : Following) : Prop :=
  ∀ loc name left, f loc name = some left → Restates both u radix g (.identifier loc name) true left

/-- An expression that evaluation settles is restated by what is left of it. -/
theorem Restates.of_settled {e left : Expr} {propagate : Bool} (hleft : Settled u radix left)
    (h : Agrees both Expr.erase (outcome u radix g e propagate) (some left)) :
    Restates both u radix g e propagate left :=
  ⟨by rw [hleft g propagate]; exact h, hleft.isNumeral_eq_false⟩

/-- A built name is restated by what it leads to. -/
theorem spell_restates (hfg : Anticipates both u radix f g) {propagate : Bool} {loc : Location}
    {name : Text} {left : Expr} (h : spell f propagate loc name = some left) :
    Agrees both Expr.erase (spell g propagate loc name) (outcome u radix g left propagate) ∧
      left.isNumeral = false := by
  cases propagate with
  | true =>
    have hname := hfg loc name left h
    have hagrees := hname.agrees
    rw [outcome] at hagrees
    exact ⟨hagrees, hname.isRead⟩
  | false =>
    cases h
    rw [outcome]
    exact ⟨Agrees.refl _, rfl⟩

/-- A name is left as it is where it is not to be followed. -/
theorem outcome_of_name? {l : Expr} {name : Text} (h : l.name? = some name) (f : Following) :
    outcome u radix f l false = some l := by
  cases l with
  | identifier loc other =>
    rw [outcome]
    rfl
  | _ => cases h

/-- What is built from a name agrees with what is built from any expression that agrees with it. -/
theorem Agrees.bind_name? {x : Option Expr} {l : Expr} {name : Text}
    (hx : Agrees both Expr.erase x (some l)) (hname : l.name? = some name)
    (k : Text → Option Expr) :
    Agrees both Expr.erase (x.bind fun v => v.name?.bind k) (k name) := by
  have hbind : Agrees both Expr.erase (x.bind fun v => v.name?.bind k)
      ((some l).bind fun v => v.name?.bind k) :=
    hx.bind fun a b hab => by
      rw [name?_congr hab]
      exact Agrees.refl _
  simpa [hname] using hbind

/-- What is left of a unary operation is what the operator makes of what is left of its operand. -/
theorem outcome_of_settleUnary (u : Surroundings) (radix : Nat) (g : Following) {op : UnaryOp}
    (hop : op ≠ .macroLocal) {loc : Location} {v left : Expr} (hread : v.isNumeral = false) (h : settleUnary op loc v = some left)
    (propagate : Bool) :
    outcome u radix g left propagate =
        (outcome u radix g v propagate).bind (settleUnary op loc) ∧
      left.isNumeral = false := by
  by_cases hconcrete : v.isConcrete
  · rw [outcome_of_isConcrete hconcrete hread, Option.bind_some, h]
    rw [settleUnary, if_pos hconcrete] at h
    have hsettled : Settled u radix left := settled_applyUnary (eq_ok_of_toOption h)
    exact ⟨hsettled g propagate, hsettled.isNumeral_eq_false⟩
  · rw [settleUnary, if_neg hconcrete] at h
    cases h
    rw [outcome, if_neg hop]
    exact ⟨rfl, rfl⟩

/-- What is left of a binary operation is what the operator makes of what is left of its operands. -/
theorem outcome_of_settleBinary (u : Surroundings) (radix : Nat) (g : Following) {op : BinaryOp}
    (hop : treatment op = .strict) {loc : Location} {l r left : Expr} (hl : l.isNumeral = false) (hr : r.isNumeral = false)
    (h : settleBinary op loc l r = some left) (propagate : Bool) :
    outcome u radix g left propagate =
        (outcome u radix g l propagate).bind (fun l =>
          (outcome u radix g r propagate).bind (settleBinary op loc l)) ∧
      left.isNumeral = false := by
  by_cases hconcrete : l.isConcrete ∧ r.isConcrete
  · rw [outcome_of_isConcrete hconcrete.1 hl, outcome_of_isConcrete hconcrete.2 hr,
      Option.bind_some, Option.bind_some, h]
    rw [settleBinary, if_pos (Bool.and_eq_true_iff.2 hconcrete)] at h
    have hsettled : Settled u radix left := settled_applyBinary (eq_ok_of_toOption h)
    exact ⟨hsettled g propagate, hsettled.isNumeral_eq_false⟩
  · rw [settleBinary, if_neg (by simpa using hconcrete)] at h
    cases h
    rw [outcome, hop]
    exact ⟨rfl, rfl⟩

/-- What is left of a call is what the function makes of what is left of its arguments, unless it ignores
them. -/
theorem outcome_of_settleCall (g : Following) (hargs : ∀ a ∈ u.args, Settled u radix a) {b : Builtin}
    (hlazy : b.isLazy = false) {loc : Location} {name : Text} (hname : Builtin.ofName? name = some b)
    {args : List Expr} {left : Expr} (hread : ∀ a ∈ args, a.isNumeral = false)
    (h : settleCall u b loc name args = some left) (propagate : Bool) :
    outcome u radix g left propagate =
        (outcomeAll u radix g args propagate).bind (settleCall u b loc name) ∧
      left.isNumeral = false := by
  by_cases hconcrete : args.all Expr.isConcrete
  · rw [outcomeAll_of_all_isConcrete hconcrete hread, Option.bind_some, h]
    rw [settleCall, hlazy, hconcrete] at h
    have hsettled : Settled u radix left := settled_apply hargs (eq_ok_of_toOption h)
    exact ⟨hsettled g propagate, hsettled.isNumeral_eq_false⟩
  · rw [settleCall, hlazy, if_neg (by simpa using hconcrete)] at h
    cases h
    rw [outcome, hname]
    exact ⟨rfl, rfl⟩

/-- A function that ignores its arguments gives one result at most. The one that counts the arguments of
the macro call takes none. -/
theorem settleCall_of_isLazy {b : Builtin} (hlazy : b.isLazy = true) {loc : Location} {name : Text}
    {args : List Expr} {left : Expr} (h : settleCall u b loc name args = some left) :
    (∀ args' left', settleCall u b loc name args' = some left' → left' = left) ∧
      (b = .assembler ∨ args = []) := by
  -- the number of arguments is all that is looked at
  have hcount : ∀ (args : List Expr) (left : Expr), settleCall u .cnt loc name args = some left →
      args = [] ∧ left = .literal loc (Int64.ofNat u.args.length) := by
    intro args left h
    cases args with
    | nil =>
      cases h
      exact ⟨rfl, rfl⟩
    | cons e rest => cases h
  cases b with
  | cnt =>
    obtain ⟨hnil, rfl⟩ := hcount args left h
    exact ⟨fun args' left' h' => (hcount args' left' h').2, Or.inr hnil⟩
  | assembler =>
    cases h
    refine ⟨fun args' left' h' => ?_, Or.inl rfl⟩
    cases h'
    rfl
  | _ => cases hlazy

/-- Nothing is left of a list only if there was nothing in it. -/
theorem eq_nil_of_outcomeAll_eq_nil {es : List Expr} {propagate : Bool}
    (h : outcomeAll u radix f es propagate = some []) : es = [] := by
  cases es with
  | nil => rfl
  | cons e rest =>
    rw [outcomeAll] at h
    obtain ⟨v, -, hmap⟩ := Option.bind_eq_some_iff.1 h
    obtain ⟨vs, -, hcons⟩ := Option.map_eq_some_iff.1 hmap
    cases hcons

mutual

/-- What is left of an expression restates it, if names are followed by `f` now and by `g` later. -/
theorem outcome_restates (hargs : ∀ a ∈ u.args, Settled u radix a)
    (hfg : Anticipates both u radix f g) :
    ∀ (e : Expr) (propagate : Bool) (left : Expr), (both → e.isPlain = true) →
      outcome u radix f e propagate = some left → Restates both u radix g e propagate left := by
  intro e propagate left hplain h
  cases e with
  | numeral loc digits =>
    rw [outcome] at h
    obtain ⟨v, hv, rfl⟩ := Option.map_eq_some_iff.1 h
    refine Restates.of_settled (settled_literal loc v) ?_
    rw [outcome, hv]
    exact Agrees.refl _
  | identifier loc name =>
    rw [outcome] at h
    obtain ⟨hagrees, hread⟩ := spell_restates hfg h
    refine ⟨?_, hread⟩
    rw [outcome]
    exact hagrees
  | unary loc op value =>
    have hvalue : both → value.isPlain = true := fun hb => by simpa [Expr.isPlain] using hplain hb
    rw [outcome] at h
    by_cases hop : op = .macroLocal
    · rw [if_pos hop] at h
      obtain ⟨v, hv, hname⟩ := Option.bind_eq_some_iff.1 h
      obtain ⟨name, hvname, hspell⟩ := Option.bind_eq_some_iff.1 hname
      have ih := (outcome_restates hargs hfg value false v hvalue hv).agrees
      rw [outcome_of_name? hvname] at ih
      obtain ⟨hagrees, hread⟩ := spell_restates hfg hspell
      refine ⟨Agrees.trans ?_ hagrees, hread⟩
      rw [outcome, if_pos hop]
      exact ih.bind_name? hvname fun name => spell g propagate loc (u.unit ++ "." ++ name)
    · rw [if_neg hop] at h
      obtain ⟨v, hv, hsettle⟩ := Option.bind_eq_some_iff.1 h
      have ih := outcome_restates hargs hfg value propagate v hvalue hv
      have hleft := outcome_of_settleUnary u radix g hop ih.isRead hsettle propagate
      refine ⟨?_, hleft.2⟩
      rw [outcome, if_neg hop, hleft.1]
      exact ih.agrees.bind fun a b hab => settleUnary_agrees op loc hab
  | binary loc op l r =>
    have hl : both → l.isPlain = true := fun hb => by
      have := hplain hb
      simp only [Expr.isPlain, Bool.and_eq_true] at this
      exact this.1
    have hr : both → r.isPlain = true := fun hb => by
      have := hplain hb
      simp only [Expr.isPlain, Bool.and_eq_true] at this
      exact this.2
    rw [outcome] at h
    cases hop : treatment op with
    | joins =>
      rw [hop] at h
      obtain ⟨a, ha, hname⟩ := Option.bind_eq_some_iff.1 h
      obtain ⟨name, haname, hright⟩ := Option.bind_eq_some_iff.1 hname
      obtain ⟨b, hb, hmore⟩ := Option.bind_eq_some_iff.1 hright
      obtain ⟨more, hbmore, hspell⟩ := Option.bind_eq_some_iff.1 hmore
      have ihl := (outcome_restates hargs hfg l false a hl ha).agrees
      have ihr := (outcome_restates hargs hfg r false b hr hb).agrees
      rw [outcome_of_name? haname] at ihl
      rw [outcome_of_name? hbmore] at ihr
      obtain ⟨hagrees, hread⟩ := spell_restates hfg hspell
      refine ⟨Agrees.trans ?_ hagrees, hread⟩
      rw [outcome, hop]
      refine (ihl.bind_name? haname _).trans ?_
      exact ihr.bind_name? hbmore fun more => spell g propagate loc (name ++ more)
    | joinsNumber =>
      rw [hop] at h
      obtain ⟨a, ha, hname⟩ := Option.bind_eq_some_iff.1 h
      obtain ⟨name, haname, hright⟩ := Option.bind_eq_some_iff.1 hname
      obtain ⟨b, hb, hsettle⟩ := Option.bind_eq_some_iff.1 hright
      have ihl := (outcome_restates hargs hfg l false a hl ha).agrees
      have ihr := outcome_restates hargs hfg r true b hr hb
      have hlater : Agrees both Expr.erase (outcome u radix g (.binary loc op l r) propagate)
          ((outcome u radix g a false).bind fun l => l.name?.bind fun name =>
            (outcome u radix g b true).bind (settleJoin g propagate op loc l name)) := by
        rw [outcome, hop]
        refine ihl.bind fun x y hxy => ?_
        rw [name?_congr hxy]
        cases y.name? with
        | none => exact Agrees.refl _
        | some name => exact ihr.agrees.bind fun x' y' hxy' =>
            settleJoin_agrees g propagate op loc name hxy hxy'
      by_cases hconcrete : b.isConcrete
      · -- the name is complete, and is followed
        rw [settleJoin, if_pos hconcrete] at hsettle
        obtain ⟨n, hn, hspell⟩ := Option.bind_eq_some_iff.1 hsettle
        obtain ⟨hagrees, hread⟩ := spell_restates hfg hspell
        rw [outcome_of_name? haname, outcome_of_isConcrete hconcrete ihr.isRead, Option.bind_some,
          haname, Option.bind_some, Option.bind_some, settleJoin, if_pos hconcrete, hn] at hlater
        exact ⟨hlater.trans hagrees, hread⟩
      · rw [settleJoin, if_neg hconcrete] at hsettle
        cases hsettle
        refine ⟨hlater.trans ?_, rfl⟩
        rw [outcome, hop]
        exact Agrees.refl _
    | decides stop =>
      rw [hop] at h
      obtain ⟨a, ha, hsettle⟩ := Option.bind_eq_some_iff.1 h
      have ihl := outcome_restates hargs hfg l propagate a hl ha
      have hlater : ∀ x, Agrees both Expr.erase (outcome u radix g r propagate) x →
          Agrees both Expr.erase (outcome u radix g (.binary loc op l r) propagate)
            ((outcome u radix g a propagate).bind (settleDecided op stop loc x)) := by
        intro x hx
        rw [outcome, hop]
        exact ihl.agrees.bind fun l l' hll => settleDecided_agrees op stop loc hx hll
      rw [settleDecided] at hsettle
      by_cases hconcrete : a.isConcrete
      · rw [if_pos hconcrete] at hsettle
        obtain ⟨t, ht, hright⟩ := Option.bind_eq_some_iff.1 hsettle
        rw [outcome_of_isConcrete hconcrete ihl.isRead] at hlater
        simp only [Option.bind_some, settleDecided, hconcrete, ht, if_true] at hlater
        by_cases hstop : t = stop
        · -- the right operand is skipped
          rw [if_pos hstop] at hright
          cases hright
          simp only [if_pos hstop] at hlater
          refine ⟨(hlater _ (Agrees.refl _)).trans ?_, ihl.isRead⟩
          rw [outcome_of_isConcrete hconcrete ihl.isRead]
          exact Agrees.refl _
        · rw [if_neg hstop] at hright
          simp only [if_neg hstop] at hlater
          have ihr := outcome_restates hargs hfg r propagate left hr hright
          exact ⟨hlater _ ihr.agrees, ihr.isRead⟩
      · rw [if_neg hconcrete] at hsettle
        obtain ⟨b, hb, rfl⟩ := Option.map_eq_some_iff.1 hsettle
        have ihr := outcome_restates hargs hfg r propagate b hr hb
        refine ⟨(hlater _ ihr.agrees).trans ?_, rfl⟩
        rw [outcome, hop]
        exact Agrees.refl _
    | strict =>
      rw [hop] at h
      obtain ⟨a, ha, hright⟩ := Option.bind_eq_some_iff.1 h
      obtain ⟨b, hb, hsettle⟩ := Option.bind_eq_some_iff.1 hright
      have ihl := outcome_restates hargs hfg l propagate a hl ha
      have ihr := outcome_restates hargs hfg r propagate b hr hb
      have hleft := outcome_of_settleBinary u radix g hop ihl.isRead ihr.isRead hsettle propagate
      refine ⟨?_, hleft.2⟩
      rw [outcome, hop, hleft.1]
      exact ihl.agrees.bind fun a a' haa => ihr.agrees.bind fun b b' hbb =>
        settleBinary_agrees op loc haa hbb
  | ternary loc test onTrue onFalse =>
    have hparts : both → test.isPlain = true ∧ onTrue.isPlain = true ∧ onFalse.isPlain = true := by
      intro hb
      have := hplain hb
      simpa [Expr.isPlain, and_assoc] using this
    rw [outcome] at h
    obtain ⟨t, ht, hsettle⟩ := Option.bind_eq_some_iff.1 h
    have iht := outcome_restates hargs hfg test propagate t (fun hb => (hparts hb).1) ht
    have hlater : ∀ x y, Agrees both Expr.erase (outcome u radix g onTrue propagate) x →
        Agrees both Expr.erase (outcome u radix g onFalse propagate) y →
        Agrees both Expr.erase (outcome u radix g (.ternary loc test onTrue onFalse) propagate)
          ((outcome u radix g t propagate).bind (settleChoice loc x y)) := by
      intro x y hx hy
      rw [outcome]
      exact iht.agrees.bind fun t t' htt => settleChoice_agrees loc hx hy htt
    rw [settleChoice] at hsettle
    by_cases hconcrete : t.isConcrete
    · rw [if_pos hconcrete] at hsettle
      obtain ⟨holds, hholds, hchosen⟩ := Option.bind_eq_some_iff.1 hsettle
      rw [outcome_of_isConcrete hconcrete iht.isRead] at hlater
      simp only [Option.bind_some, settleChoice, hconcrete, hholds, if_true] at hlater
      -- the arm that was not chosen is not looked at later on either
      cases holds with
      | true =>
        have iha := outcome_restates hargs hfg onTrue propagate left (fun hb => (hparts hb).2.1) hchosen
        exact ⟨hlater _ _ iha.agrees (Agrees.refl _), iha.isRead⟩
      | false =>
        have ihb := outcome_restates hargs hfg onFalse propagate left (fun hb => (hparts hb).2.2) hchosen
        exact ⟨hlater _ _ (Agrees.refl _) ihb.agrees, ihb.isRead⟩
    · rw [if_neg hconcrete] at hsettle
      obtain ⟨a, ha, hmap⟩ := Option.bind_eq_some_iff.1 hsettle
      obtain ⟨b, hb, rfl⟩ := Option.map_eq_some_iff.1 hmap
      have iha := outcome_restates hargs hfg onTrue propagate a (fun hb => (hparts hb).2.1) ha
      have ihb := outcome_restates hargs hfg onFalse propagate b (fun hb => (hparts hb).2.2) hb
      refine ⟨(hlater _ _ iha.agrees ihb.agrees).trans ?_, rfl⟩
      rw [outcome]
      exact Agrees.refl _
  | call loc name params =>
    rw [outcome] at h
    obtain ⟨b, hb, hparams⟩ := Option.bind_eq_some_iff.1 h
    obtain ⟨args, hvalues, hsettle⟩ := Option.bind_eq_some_iff.1 hparams
    have hall : both → Expr.allPlain params = true := fun hb => by
      have := hplain hb
      simp only [Expr.isPlain, Bool.and_eq_true] at this
      exact this.2
    obtain ⟨ih, hread⟩ := outcomeAll_restates hargs hfg params propagate args hall hvalues
    by_cases hlazy : b.isLazy
    · -- the arguments are gone after the first evaluation, so they must not fail in the second
      obtain ⟨hunique, harity⟩ := settleCall_of_isLazy hlazy hsettle
      have hsettled : Settled u radix left := by
        rw [settleCall, hlazy] at hsettle
        exact settled_apply hargs (eq_ok_of_toOption hsettle)
      refine Restates.of_settled hsettled ⟨?_, ?_⟩
      · intro a ha
        rw [outcome, hb, Option.bind_some] at ha
        obtain ⟨args', -, ha'⟩ := Option.bind_eq_some_iff.1 ha
        exact ⟨left, rfl, by rw [hunique args' a ha']⟩
      · intro hboth a ha
        have hnil : params = [] := by
          have hparams := hplain hboth
          simp only [Expr.isPlain, hb, Bool.and_eq_true] at hparams
          rcases harity with hassembler | hargsnil
          · simpa [hassembler] using hparams.1
          · exact eq_nil_of_outcomeAll_eq_nil (hargsnil ▸ hvalues)
        subst hnil
        rw [outcomeAll] at hvalues
        cases hvalues
        refine ⟨left, ?_, by rw [Option.some.inj ha]⟩
        rw [outcome, hb, outcomeAll]
        exact hsettle
    · have hleft := outcome_of_settleCall g hargs (by simpa using hlazy) hb hread hsettle propagate
      refine ⟨?_, hleft.2⟩
      rw [outcome, hb, hleft.1]
      exact ih.bind fun as bs hab => settleCall_agrees u b loc name hab
  | absolute loc address =>
    rw [outcome] at h
    obtain ⟨v, hv, rfl⟩ := Option.map_eq_some_iff.1 h
    have haddress : both → address.isPlain = true := fun hb => by
      simpa [Expr.isPlain] using hplain hb
    have ih := outcome_restates hargs hfg address propagate v haddress hv
    refine ⟨?_, rfl⟩
    rw [outcome, outcome]
    exact ih.agrees.map fun a b hab => by rw [Expr.erase, Expr.erase, hab]
  | displaced loc base displace =>
    rw [outcome] at h
    obtain ⟨v, hv, rfl⟩ := Option.map_eq_some_iff.1 h
    have hdisplace : both → displace.isPlain = true := fun hb => by
      simpa [Expr.isPlain] using hplain hb
    have ih := outcome_restates hargs hfg displace propagate v hdisplace hv
    refine ⟨?_, rfl⟩
    rw [outcome, outcome]
    exact ih.agrees.map fun a b hab => by rw [Expr.erase, Expr.erase, hab]
  | offset loc base value =>
    rw [outcome] at h
    obtain ⟨v, hv, rfl⟩ := Option.map_eq_some_iff.1 h
    have hvalue : both → value.isPlain = true := fun hb => by
      simpa [Expr.isPlain] using hplain hb
    have ih := outcome_restates hargs hfg value propagate v hvalue hv
    refine ⟨?_, rfl⟩
    rw [outcome, outcome]
    exact ih.agrees.map fun a b hab => by rw [Expr.erase, Expr.erase, hab]
  | _ =>
    rw [outcome] at h
    cases h
    exact ⟨Agrees.refl _, rfl⟩

/-- What is left of the expressions of a list restates them. -/
theorem outcomeAll_restates (hargs : ∀ a ∈ u.args, Settled u radix a)
    (hfg : Anticipates both u radix f g) :
    ∀ (es : List Expr) (propagate : Bool) (left : List Expr), (both → Expr.allPlain es = true) →
      outcomeAll u radix f es propagate = some left →
      Agrees both Expr.eraseAll (outcomeAll u radix g es propagate)
        (outcomeAll u radix g left propagate) ∧ ∀ l ∈ left, l.isNumeral = false := by
  intro es propagate left hplain h
  cases es with
  | nil =>
    rw [outcomeAll] at h
    cases h
    exact ⟨Agrees.refl _, by simp⟩
  | cons e rest =>
    have he : both → e.isPlain = true := fun hb => by
      have := hplain hb
      simp only [Expr.allPlain, Bool.and_eq_true] at this
      exact this.1
    have hrest : both → Expr.allPlain rest = true := fun hb => by
      have := hplain hb
      simp only [Expr.allPlain, Bool.and_eq_true] at this
      exact this.2
    rw [outcomeAll] at h
    obtain ⟨v, hv, hmap⟩ := Option.bind_eq_some_iff.1 h
    obtain ⟨vs, hvs, rfl⟩ := Option.map_eq_some_iff.1 hmap
    have ih := outcome_restates hargs hfg e propagate v he hv
    obtain ⟨ihs, hread⟩ := outcomeAll_restates hargs hfg rest propagate vs hrest hvs
    constructor
    · rw [outcomeAll, outcomeAll]
      exact ih.agrees.bind fun a b hab => ihs.map fun as bs habs => by
        rw [Expr.eraseAll, Expr.eraseAll, hab, habs]
    · intro l hl
      rcases List.mem_cons.1 hl with rfl | hl
      · exact ih.isRead
      · exact hread l hl

end

/-- The name that a value was resolved through makes no difference. -/
theorem outcome_tag_agrees (g : Following) (name : Text) (e : Expr) (propagate : Bool) :
    Agrees both Expr.erase (outcome u radix g e propagate)
      (outcome u radix g (tag name e) propagate) := by
  cases e with
  | number loc v via =>
    rw [tag, outcome, outcome]
    exact Agrees.of_eq rfl
  | string loc t via =>
    rw [tag, outcome, outcome]
    exact Agrees.of_eq rfl
  | _ => exact Agrees.refl _

/-- A value looks the same whichever name it was resolved through. -/
theorem map_tag_agrees (name : Text) (x : Option Expr) :
    Agrees both Expr.erase (x.map (tag name)) x := by
  cases x with
  | none => exact Agrees.refl _
  | some e => exact Agrees.of_eq (by cases e <;> rfl)

/-- The names of the earlier bindings, followed for any number of names, anticipate the later ones: what
they lead to is evaluated over the later bindings to what they lead to there. -/
theorem follow_anticipates (hargs : ∀ a ∈ u.args, Settled u radix a) {now later : Text → Binding}
    (hextends : ∀ name, (now name).isSet = true → later name = now name)
    (hplain : both → ∀ name value, (now name).value = some value → value.isPlain = true)
    (hg : ∀ loc name, g loc name =
      lookup later (fun value => outcome u radix g value true) loc name) (n : Nat) :
    Anticipates both u radix (follow u radix now n) g := by
  -- a name that leads nowhere yet stays what it is
  have hunset : ∀ loc name, Restates both u radix g (.identifier loc name) true
      (.identifier loc name) := fun loc name => ⟨Agrees.refl _, rfl⟩
  induction n with
  | zero =>
    intro loc name left h
    rw [follow, lookup] at h
    split at h
    · cases h
    · split at h
      · cases h
      · cases h
        exact hunset loc name
  | succ n ih =>
    intro loc name left h
    rw [follow, lookup] at h
    split at h
    · cases h
    · rename_i hnone
      split at h
      · rename_i value hvalue
        obtain ⟨v, hv, rfl⟩ := Option.map_eq_some_iff.1 h
        have hvalueplain : both → value.isPlain = true := fun hb => hplain hb name value hvalue
        have hstep := outcome_restates hargs ih value true v hvalueplain hv
        -- a name that is bound now is bound to the same value later on
        have hlater : later name = now name := by
          refine hextends name ?_
          rw [Binding.isSet, hvalue]
          rfl
        constructor
        · rw [outcome, spell, if_pos rfl, hg, lookup, hlater, if_neg hnone, hvalue]
          refine Agrees.trans ?_ (outcome_tag_agrees g name v true)
          refine Agrees.trans ?_ hstep.agrees
          exact map_tag_agrees name _
        · have hread := hstep.isRead
          cases v <;> exact hread
      · cases h
        exact hunset loc name

/-- Whether two evaluations both fail, or both give the same expression. -/
def sameResult : Except Failure Expr → Except Failure Expr → Bool
  | .ok a, .ok b => a.similar b
  | .error _, .error _ => true
  | _, _ => false

/-- Evaluations that agree in both directions give the same result. -/
theorem sameResult_of_agrees {x y : Except Failure Expr}
    (h : Agrees True Expr.erase x.toOption y.toOption) : sameResult x y = true := by
  cases x with
  | ok a =>
    obtain ⟨b, hb, hab⟩ := h.forth a rfl
    cases y with
    | ok b' =>
      cases hb
      exact (Expr.similar_iff_erase_eq a b).2 hab
    | error f => cases hb
  | error f =>
    cases y with
    | ok b =>
      obtain ⟨a, ha, -⟩ := h.back trivial b rfl
      cases ha
    | error f' => rfl

/-- An evaluation that gives a result gives the same one as an evaluation that agrees with it. -/
theorem sameResult_of_forth {x y : Except Failure Expr} (hx : x.toOption.isSome = true)
    (h : Agrees False Expr.erase x.toOption y.toOption) : sameResult x y = true := by
  cases x with
  | ok a =>
    obtain ⟨b, hb, hab⟩ := h.forth a rfl
    cases y with
    | ok b' =>
      cases hb
      exact (Expr.similar_iff_erase_eq a b).2 hab
    | error f => cases hb
  | error f => cases hx

/-- What is left of an expression over one state, evaluated over a state that binds more names, agrees with
the expression evaluated there at once. -/
theorem flatten_agrees {both : Prop} {u : Surroundings} {s s2 : State} {e e1 : Expr}
    (hargs : ∀ a ∈ u.args, a.isResolved = true ∧ ((flatten u a).exec s).1 = .ok a)
    (hradix : s2.scope.radix = s.scope.radix)
    (hextends : ∀ name, (s.scope.binding name).isSet = true →
      s2.scope.binding name = s.scope.binding name)
    (hplain : both → e.isPlain = true ∧
      ∀ name value, (s.scope.binding name).value = some value → value.isPlain = true)
    (h : ((flatten u e).exec s).1 = .ok e1) :
    Agrees both Expr.erase ((flatten u e).exec s2).1.toOption
      ((flatten u e1).exec s2).1.toOption := by
  have hresolved : ∀ a ∈ u.args, a.isResolved = true := fun a ha => (hargs a ha).1
  have hsettled : ∀ a ∈ u.args, Settled u s.scope.radix a := by
    intro a ha
    have hflat := flatten_eq_outcome u a s
    rw [(hargs a ha).2] at hflat
    exact fun f q => outcome_of_isResolved hresolved f a true q (hresolved a ha) a hflat.symm
  -- the names of the first state take finitely many steps, each of which the second state repeats
  have hanticipates : Anticipates both u s.scope.radix
      (follow u s.scope.radix s.scope.binding (resolveFuel s.scope)) (following u s2.scope) := by
    refine follow_anticipates hsettled hextends (fun hb => (hplain hb).2) (fun loc name => ?_) _
    rw [following_eq, hradix]
  have hfirst : outcome u s.scope.radix
      (follow u s.scope.radix s.scope.binding (resolveFuel s.scope)) e true = some e1 := by
    refine outcome_mono (following_le_follow u s.scope) e true e1 ?_
    rw [← flatten_eq_outcome, h]
    rfl
  rw [flatten_eq_outcome, flatten_eq_outcome, hradix]
  exact (outcome_restates hsettled hanticipates e true e1 (fun hb => (hplain hb).1) hfirst).agrees

/-- Evaluating in two stages is as good as evaluating once. Let `e1` be what is left of `e` over a state,
and let a second state bind every name that the first one does to the same, and maybe more. If `e` can be
evaluated over the second state, then `e1` can, with the same result. If no expression that is involved
gives arguments to the function that ignores them, then the two either both fail, or give the same. -/
theorem flatten_twice (u : Surroundings) (s s2 : State) (e e1 : Expr)
    (hargs : ∀ a ∈ u.args, a.isResolved = true ∧ ((flatten u a).exec s).1 = .ok a)
    (hradix : s2.scope.radix = s.scope.radix)
    (hextends : ∀ name, (s.scope.binding name).isSet = true →
      s2.scope.binding name = s.scope.binding name)
    (h : ((flatten u e).exec s).1 = .ok e1) :
    (((flatten u e).exec s2).1.toOption.isSome = true →
      sameResult ((flatten u e).exec s2).1 ((flatten u e1).exec s2).1 = true) ∧
    (e.isPlain = true →
      (∀ name value, (s.scope.binding name).value = some value → value.isPlain = true) →
      sameResult ((flatten u e).exec s2).1 ((flatten u e1).exec s2).1 = true) := by
  constructor
  · intro hsome
    exact sameResult_of_forth hsome (flatten_agrees hargs hradix hextends False.elim h)
  · intro he hvalues
    exact sameResult_of_agrees (flatten_agrees hargs hradix hextends (fun _ => ⟨he, hvalues⟩) h)

/-- The initial state with one more name in the root frame. -/
def stateWith (name : Text) (value : Expr) : State :=
  State.start { Scope.initial with root := Scope.initial.root.insert name { value := some value } }

/-- The initial state binds the reserved name and no other. -/
theorem eq_radixName_of_isSet {name : Text}
    (h : ((State.start Scope.initial).scope.binding name).isSet = true) :
    name = Scope.radixName := by
  by_contra hne
  have hroot : Scope.initial.find? name = none := by
    rw [Scope.find?_eq]
    simp only [Scope.initial, Scope.findIn, Frame.find?_insert, if_neg hne]
    rfl
  rw [State.start, Scope.binding, hroot] at h
  cases h

/-- The state with one more name binds what the initial one does. -/
theorem binding_stateWith {name : Text} (hname : name ≠ Scope.radixName) (value : Expr)
    (other : Text) (h : ((State.start Scope.initial).scope.binding other).isSet = true) :
    (stateWith name value).scope.binding other =
      (State.start Scope.initial).scope.binding other := by
  have hroot : (stateWith name value).scope.root.find? Scope.radixName =
      Scope.initial.root.find? Scope.radixName := by
    simp only [stateWith, State.start, Frame.find?_insert, if_neg hname.symm]
  rw [eq_radixName_of_isSet h, Scope.binding, Scope.binding, Scope.find?_eq, Scope.find?_eq, hroot]
  rfl

/-- A sum with a name that is bound later gives the same in two stages as in one. -/
theorem flatten_twice_sum :
    sameResult
      ((flatten ⟨"m", []⟩ (.binary Location.none .add
        (.binary Location.none .add (.literal Location.none 1) (.literal Location.none 2))
        (.identifier Location.none "X"))).exec (stateWith "X" (.literal Location.none 4))).1
      ((flatten ⟨"m", []⟩ (.binary Location.none .add (.literal Location.none 3)
        (.identifier Location.none "X"))).exec (stateWith "X" (.literal Location.none 4))).1 = true := by
  refine (flatten_twice ⟨"m", []⟩ (State.start Scope.initial)
    (stateWith "X" (.literal Location.none 4)) _ _ (by simp) rfl
    (binding_stateWith (by decide) _) rfl).2 rfl ?_
  intro name value h
  have hset : ((State.start Scope.initial).scope.binding name).isSet = true := by
    rw [Binding.isSet, h]
    rfl
  rw [eq_radixName_of_isSet hset] at h
  cases h
  rfl

/-- The two stages differ on a call that ignores its argument, once a divisor in that is bound to zero: the
argument fails if it is evaluated, and it is gone after the first stage. -/
theorem not_sameResult_of_ignored_argument :
    ¬ ∀ (u : Surroundings) (s s2 : State) (e e1 : Expr),
      (∀ a ∈ u.args, a.isResolved = true ∧ ((flatten u a).exec s).1 = .ok a) →
      s2.scope.radix = s.scope.radix →
      (∀ name, (s.scope.binding name).isSet = true →
        s2.scope.binding name = s.scope.binding name) →
      ((flatten u e).exec s).1 = .ok e1 →
      sameResult ((flatten u e).exec s2).1 ((flatten u e1).exec s2).1 = true := by
  intro hclaim
  have hsame := hclaim ⟨"m", []⟩ (State.start Scope.initial)
    (stateWith "X" (.literal Location.none 0))
    (.call Location.none "AS88" [.binary Location.none .divide (.literal Location.none 1)
      (.identifier Location.none "X")])
    (.quoted Location.none "AS88 (c88as)") (by simp) rfl (binding_stateWith (by decide) _) rfl
  exact absurd hsame (by decide)

end Eval

end MacroAsm
