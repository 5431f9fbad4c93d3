import MacroAsm.Proofs.Eval.Computes
import MacroAsm.Proofs.Eval.Requests

/-!
# Expressions that evaluation is done with

An expression is final if evaluating it asks for no name and leaves it as it is, in any radix and however names
are followed. If every name leads to a final expression, all that evaluation leaves is final
(`Eval.final_of_outcome`). This covers names that a number is to be appended to which only the linker knows: they
stay in the expression, but are not asked for.
-/

namespace MacroAsm

namespace Eval

variable {u : Surroundings} {radix : Nat} {f : Following} {propagate : Bool}

/-- Evaluation asks for no name and leaves the expression as it is. -/
def Final (u : Surroundings) (propagate : Bool) (v : Expr) : Prop :=
  ∀ radix follow, outcome u radix follow v propagate = some v ∧ asked u radix follow v propagate = []

/-- Evaluation asks for no name and leaves the expressions of a list as they are. -/
def FinalAll (u : Surroundings) (propagate : Bool) (vs : List Expr) : Prop :=
  ∀ radix follow, outcomeAll u radix follow vs propagate = some vs ∧ askedAll u radix follow vs propagate = []

/-- The expressions of a list are final one by one. -/
theorem finalAll_of_forall {vs : List Expr} (h : ∀ v ∈ vs, Final u propagate v) : FinalAll u propagate vs := by
  intro radix follow
  induction vs with
  | nil => exact ⟨by rw [outcomeAll], by rw [askedAll]⟩
  | cons v rest ih =>
    rw [List.forall_mem_cons] at h
    obtain ⟨hv, hasked⟩ := h.1 radix follow
    obtain ⟨hrest, haskedRest⟩ := ih h.2
    constructor
    · rw [outcomeAll, hv, hrest]
      rfl
    · rw [askedAll, hasked, haskedRest]
      rfl

theorem final_number (loc : Location) (n : Int64) (via : Text) : Final u propagate (.number loc n via) :=
  fun _ _ => ⟨by rw [outcome], by rw [asked] <;> simp⟩

theorem final_string (loc : Location) (t via : Text) : Final u propagate (.string loc t via) :=
  fun _ _ => ⟨by rw [outcome], by rw [asked] <;> simp⟩

/-- A value stays final under the name that it was resolved through. -/
theorem Final.tag {v : Expr} (h : Final u propagate v) (name : Text) : Final u propagate (tag name v) := by
  cases v with
  | number loc n via => exact final_number loc n name
  | string loc t via => exact final_string loc t name
  | _ => exact h

/-- What a function gives is final, if the arguments of the macro call are. -/
theorem final_apply (hargs : ∀ a ∈ u.args, ∀ p, Final u p a) {b : Builtin} {loc : Location} {args : List Expr}
    {v : Expr} (h : b.apply u.args loc args = .ok v) : Final u propagate v := by
  rcases Builtin.apply_cases h with ⟨n, rfl⟩ | ⟨t, rfl⟩ | hmem
  · exact final_number loc n _
  · exact final_string loc t _
  · exact hargs v hmem propagate

/-- A built name leads to a final expression where it is followed, and is one where it is not. -/
theorem final_of_spell (hf : ∀ loc name v, f loc name = some v → Final u true v) {loc : Location} {name : Text}
    {v : Expr} (h : spell f propagate loc name = some v) : Final u propagate v := by
  cases propagate with
  | true => exact hf loc name v h
  | false =>
    cases h
    exact fun _ _ => ⟨by rw [outcome]; rfl, by rw [asked]; rfl⟩

/-- A unary operation on a final expression. -/
theorem final_of_settleUnary {op : UnaryOp} (hop : op ≠ .macroLocal) {loc : Location} {v w : Expr}
    (hv : Final u propagate v) (h : settleUnary op loc v = some w) : Final u propagate w := by
  rw [settleUnary] at h
  split at h
  · obtain ⟨n, rfl⟩ := applyUnary_cases (eq_ok_of_toOption h)
    exact final_number loc n _
  · rename_i hconcrete
    cases h
    refine fun radix follow => ⟨?_, ?_⟩
    · rw [outcome, if_neg hop, (hv radix follow).1, Option.bind_some, settleUnary, if_neg hconcrete]
    · rw [asked, if_neg hop, (hv radix follow).2]

/-- A binary operation on final expressions. -/
theorem final_of_settleBinary {op : BinaryOp} (hop : treatment op = .strict) {loc : Location} {l r w : Expr}
    (hl : Final u propagate l) (hr : Final u propagate r) (h : settleBinary op loc l r = some w) :
    Final u propagate w := by
  rw [settleBinary] at h
  split at h
  · rcases applyBinary_cases (eq_ok_of_toOption h) with ⟨n, rfl⟩ | ⟨t, rfl⟩
    · exact final_number loc n _
    · exact final_string loc t _
  · rename_i hconcrete
    cases h
    refine fun radix follow => ⟨?_, ?_⟩
    · rw [outcome, hop]
      simp only [(hl radix follow).1, (hr radix follow).1, Option.bind_some, settleBinary, if_neg hconcrete]
    · rw [asked, hop]
      simp only [(hl radix follow).2, (hr radix follow).2, List.append_nil]

/-- A name that a number is appended to. -/
theorem final_of_settleJoin (hf : ∀ loc name v, f loc name = some v → Final u true v) {op : BinaryOp}
    (hop : treatment op = .joinsNumber) {loc : Location} {l r w : Expr} {name : Text}
    (hname : l.name? = some name) (hr : Final u true r)
    (h : settleJoin f propagate op loc l name r = some w) : Final u propagate w := by
  rw [settleJoin] at h
  split at h
  · obtain ⟨n, -, hspell⟩ := Option.bind_eq_some_iff.1 h
    exact final_of_spell hf hspell
  · rename_i hconcrete
    cases h
    cases l with
    -- the name on the left is spelled and not resolved, so it stays as it is
    | identifier loc' other =>
      have hl : ∀ radix follow, outcome u radix follow (.identifier loc' other) false =
          some (.identifier loc' other) := fun radix follow => by rw [outcome]; rfl
      refine fun radix follow => ⟨?_, ?_⟩
      · rw [outcome, hop]
        simp only [hl, Option.bind_some, Expr.name?, (hr radix follow).1, settleJoin, if_neg hconcrete]
      · rw [asked, hop]
        have hnone : counted u radix follow r = none := by
          rw [counted, (hr radix follow).1, Option.bind_some, if_neg hconcrete]
        simp [asked, (hr radix follow).2, hnone]
    | _ => cases hname

/-- An operation that a final left operand may decide. -/
theorem final_of_settleDecided {op : BinaryOp} {stop : Bool} (hop : treatment op = .decides stop)
    {loc : Location} {l w : Expr} {right : Option Expr} (hl : Final u propagate l)
    (hright : ∀ r, right = some r → Final u propagate r)
    (h : settleDecided op stop loc right l = some w) : Final u propagate w := by
  rw [settleDecided] at h
  split at h
  · obtain ⟨t, -, hchosen⟩ := Option.bind_eq_some_iff.1 h
    split at hchosen
    · cases hchosen
      exact hl
    · exact hright w hchosen
  · rename_i hconcrete
    obtain ⟨r, hr, rfl⟩ := Option.map_eq_some_iff.1 h
    have hr := hright r hr
    refine fun radix follow => ⟨?_, ?_⟩
    · rw [outcome, hop]
      simp only [(hl radix follow).1, (hr radix follow).1, Option.bind_some, settleDecided,
        if_neg hconcrete, Option.map_some]
    · rw [asked, hop]
      simp only [(hl radix follow).2, (hr radix follow).2, List.append_nil]

/-- A choice between expressions by a final one. -/
theorem final_of_settleChoice {loc : Location} {t w : Expr} {onTrue onFalse : Option Expr}
    (ht : Final u propagate t) (htrue : ∀ a, onTrue = some a → Final u propagate a)
    (hfalse : ∀ b, onFalse = some b → Final u propagate b) (h : settleChoice loc onTrue onFalse t = some w) :
    Final u propagate w := by
  rw [settleChoice] at h
  split at h
  · obtain ⟨holds, -, hchosen⟩ := Option.bind_eq_some_iff.1 h
    split at hchosen
    · exact htrue w hchosen
    · exact hfalse w hchosen
  · rename_i hconcrete
    obtain ⟨a, ha, hmap⟩ := Option.bind_eq_some_iff.1 h
    obtain ⟨b, hb, rfl⟩ := Option.map_eq_some_iff.1 hmap
    have ha := htrue a ha
    have hb := hfalse b hb
    refine fun radix follow => ⟨?_, ?_⟩
    · rw [outcome]
      simp only [(ht radix follow).1, (ha radix follow).1, (hb radix follow).1, Option.bind_some,
        settleChoice, if_neg hconcrete, Option.map_some]
    · rw [asked, (ht radix follow).2, (ha radix follow).2, (hb radix follow).2]
      rfl

/-- A call with final arguments. -/
theorem final_of_settleCall (hargs : ∀ a ∈ u.args, ∀ p, Final u p a) {b : Builtin} {name : Text}
    (hname : Builtin.ofName? name = some b) {loc : Location} {args : List Expr} {w : Expr}
    (hall : ∀ v ∈ args, Final u propagate v) (h : settleCall u b loc name args = some w) :
    Final u propagate w := by
  rw [settleCall] at h
  split at h
  · exact final_apply hargs (eq_ok_of_toOption h)
  · rename_i hlazy
    cases h
    have hall := finalAll_of_forall hall
    refine fun radix follow => ⟨?_, ?_⟩
    · rw [outcome, hname, Option.bind_some, (hall radix follow).1, Option.bind_some, settleCall, if_neg hlazy]
    · rw [asked, (hall radix follow).2]

mutual

/-- If names lead to final expressions, what is left of an expression is final. -/
theorem final_of_outcome (hargs : ∀ a ∈ u.args, ∀ p, Final u p a)
    (hf : ∀ loc name v, f loc name = some v → Final u true v) :
    ∀ (e : Expr) (propagate : Bool) (v : Expr), outcome u radix f e propagate = some v →
      Final u propagate v := by
  intro e propagate v h
  cases e with
  | numeral loc digits =>
    rw [outcome] at h
    obtain ⟨n, -, rfl⟩ := Option.map_eq_some_iff.1 h
    exact final_number loc n _
  | identifier loc name =>
    rw [outcome] at h
    exact final_of_spell hf h
  | unary loc op value =>
    rw [outcome] at h
    by_cases hop : op = .macroLocal
    · rw [if_pos hop] at h
      obtain ⟨v', -, hname⟩ := Option.bind_eq_some_iff.1 h
      obtain ⟨name, -, hspell⟩ := Option.bind_eq_some_iff.1 hname
      exact final_of_spell hf hspell
    · rw [if_neg hop] at h
      obtain ⟨v', hv', hsettle⟩ := Option.bind_eq_some_iff.1 h
      exact final_of_settleUnary hop (final_of_outcome hargs hf value propagate v' hv') hsettle
  | binary loc op left right =>
    have hleft := final_of_outcome hargs hf left
    have hright := final_of_outcome hargs hf right
    rw [outcome] at h
    cases hop : treatment op with
    | joins =>
      rw [hop] at h
      -- two names are joined into one, which is then followed
      obtain ⟨l, -, hname⟩ := Option.bind_eq_some_iff.1 h
      obtain ⟨name, -, hrest⟩ := Option.bind_eq_some_iff.1 hname
      obtain ⟨r, -, hmore⟩ := Option.bind_eq_some_iff.1 hrest
      obtain ⟨more, -, hspell⟩ := Option.bind_eq_some_iff.1 hmore
      exact final_of_spell hf hspell
    | joinsNumber =>
      rw [hop] at h
      obtain ⟨l, -, hname⟩ := Option.bind_eq_some_iff.1 h
      obtain ⟨name, hlname, hrest⟩ := Option.bind_eq_some_iff.1 hname
      obtain ⟨r, hr, hsettle⟩ := Option.bind_eq_some_iff.1 hrest
      exact final_of_settleJoin hf hop hlname (hright true r hr) hsettle
    | decides stop =>
      rw [hop] at h
      obtain ⟨l, hl, hsettle⟩ := Option.bind_eq_some_iff.1 h
      exact final_of_settleDecided hop (hleft propagate l hl) (hright propagate) hsettle
    | strict =>
      rw [hop] at h
      obtain ⟨l, hl, hrest⟩ := Option.bind_eq_some_iff.1 h
      obtain ⟨r, hr, hsettle⟩ := Option.bind_eq_some_iff.1 hrest
      exact final_of_settleBinary hop (hleft propagate l hl) (hright propagate r hr) hsettle
  | ternary loc test onTrue onFalse =>
    rw [outcome] at h
    obtain ⟨t, ht, hsettle⟩ := Option.bind_eq_some_iff.1 h
    exact final_of_settleChoice (final_of_outcome hargs hf test propagate t ht)
      (final_of_outcome hargs hf onTrue propagate) (final_of_outcome hargs hf onFalse propagate) hsettle
  | call loc name params =>
    rw [outcome] at h
    obtain ⟨b, hname, hrest⟩ := Option.bind_eq_some_iff.1 h
    obtain ⟨args, hvalues, hsettle⟩ := Option.bind_eq_some_iff.1 hrest
    exact final_of_settleCall hargs hname (final_of_outcomeAll hargs hf params propagate args hvalues) hsettle
  | absolute loc address =>
    rw [outcome] at h
    obtain ⟨a, ha, rfl⟩ := Option.map_eq_some_iff.1 h
    have ha := final_of_outcome hargs hf address propagate a ha
    exact fun radix follow => ⟨by rw [outcome, (ha radix follow).1]; rfl, by rw [asked, (ha radix follow).2]⟩
  | displaced loc base displace =>
    rw [outcome] at h
    obtain ⟨a, ha, rfl⟩ := Option.map_eq_some_iff.1 h
    have ha := final_of_outcome hargs hf displace propagate a ha
    exact fun radix follow => ⟨by rw [outcome, (ha radix follow).1]; rfl, by rw [asked, (ha radix follow).2]⟩
  | offset loc base value =>
    rw [outcome] at h
    obtain ⟨a, ha, rfl⟩ := Option.map_eq_some_iff.1 h
    have ha := final_of_outcome hargs hf value propagate a ha
    exact fun radix follow => ⟨by rw [outcome, (ha radix follow).1]; rfl, by rw [asked, (ha radix follow).2]⟩
  | _ =>
    rw [outcome] at h
    cases h
    exact fun _ _ => ⟨by rw [outcome], by rw [asked] <;> simp⟩

/-- If names lead to final expressions, what is left of the expressions of a list is final. -/
theorem final_of_outcomeAll (hargs : ∀ a ∈ u.args, ∀ p, Final u p a)
    (hf : ∀ loc name v, f loc name = some v → Final u true v) :
    ∀ (es : List Expr) (propagate : Bool) (vs : List Expr), outcomeAll u radix f es propagate = some vs →
      ∀ v ∈ vs, Final u propagate v := by
  intro es propagate vs h
  cases es with
  | nil =>
    rw [outcomeAll] at h
    cases h
    exact fun v hv => absurd hv List.not_mem_nil
  | cons e rest =>
    rw [outcomeAll] at h
    obtain ⟨v, hv, hmap⟩ := Option.bind_eq_some_iff.1 h
    obtain ⟨vs', hvs, rfl⟩ := Option.map_eq_some_iff.1 hmap
    exact List.forall_mem_cons.2
      ⟨final_of_outcome hargs hf e propagate v hv, final_of_outcomeAll hargs hf rest propagate vs' hvs⟩

end

/-- Evaluating final expressions leaves them and the scope as they are. -/
theorem exec_evaluateAll_of_final {vs : List Expr} (h : FinalAll u true vs) (s : State) :
    ∃ s', (evaluateAll u true vs).exec s = (.ok vs, s') ∧ s'.scope = s.scope := by
  -- no name is asked for, so it does not matter what the scope holds
  have hprovides : Provides u (fun s' => s'.scope = s.scope) (fun _ => True) s.scope.radix [] (fun _ => False)
      fun _ _ => none :=
    ⟨fun _ hs => by rw [hs], fun _ _ hscope hs => hscope.trans hs, fun _ _ => trivial, fun _ _ _ => False.elim⟩
  have hasked : ∀ name ∈ askedAll u s.scope.radix (fun _ _ => none) vs true, False := by
    rw [(h _ _).2]
    exact fun name hname => List.not_mem_nil hname
  obtain ⟨hresult, -, hscope⟩ := (hprovides.evaluateAll hasked) s rfl
  rw [(h _ _).1] at hresult
  rcases hexec : (evaluateAll u true vs).exec s with ⟨x, s'⟩
  rw [hexec] at hresult hscope
  cases x with
  | error f => cases hresult
  | ok vs' =>
    cases hresult
    exact ⟨s', rfl, hscope⟩

end Eval

end MacroAsm
