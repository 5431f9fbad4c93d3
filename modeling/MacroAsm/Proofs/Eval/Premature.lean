import MacroAsm.Proofs.Eval.Requests
import MacroAsm.Proofs.Eval.Solution
import MacroAsm.Proofs.Eval.TwoStage

/-!
# Errors that come too early

An expression may be evaluated while some of its names are not bound yet, and again once they are. Most errors
wait until their cause is known, but two kinds do not. While a test waits, the operands that it chooses from
are evaluated, and one that would be skipped once the test is known may fail. And what a name is built of must
be a name already, so that a name which waits for a number to be appended to it fails there.

There is no third kind: where an expression evaluates over more bindings, it evaluates over fewer of them if and
only if nothing in it is of these two kinds (`Eval.Patient`).

Main statement: `Eval.flatten_of_later`.
-/

namespace MacroAsm

namespace Expr

/-- Whether an expression is a name that waits for the number to be appended to it. -/
def awaitsNumber : Expr → Bool
  | .binary _ op _ _ => op.isJoin
  | _ => false

/-- Whether an expression has no parts that are evaluated. -/
def isAtom : Expr → Bool
  | .identifier .. | .unary .. | .binary .. | .ternary .. | .call .. | .absolute .. | .displaced ..
  | .offset .. => false
  | _ => true

end Expr

namespace Eval

variable {u : Surroundings} {s s2 : Scope}

/-- What evaluation over a scope leaves of an expression. -/
def remainder (u : Surroundings) (s : Scope) (e : Expr) (propagate : Bool) : Option Expr :=
  outcome u s.radix (following u s) e propagate

/-- An evaluated test is known, and is `stop`. -/
def Stops (stop : Bool) (t : Expr) : Prop := t.isConcrete = true ∧ t.asTruth.toOption = some stop

/-- Over a scope a test is known to be `stop`, so that what it guards is skipped. -/
def Skips (u : Surroundings) (s : Scope) (stop : Bool) (test : Expr) (propagate : Bool) : Prop :=
  ∃ t, remainder u s test propagate = some t ∧ Stops stop t

/-- Over a scope an expression is not a name that waits for a number. -/
def Ready (u : Surroundings) (s : Scope) (e : Expr) : Prop :=
  ∀ v, remainder u s e false = some v → v.awaitsNumber = false

/-- Evaluating an expression over the scope `s` meets no error that evaluating it over `s2`, where more names
are bound, does not meet: an operand that is skipped there and not here evaluates here, and what names are
built of is ready here. -/
inductive Patient (u : Surroundings) (s s2 : Scope) : Expr → Bool → Prop where
  /-- There is nothing to evaluate. -/
  | atom {e : Expr} {propagate : Bool} (h : e.isAtom = true) : Patient u s s2 e propagate
  /-- A name leads to the value that it is bound to. -/
  | name {loc : Location} {name : Text} {propagate : Bool}
    (h : propagate = true → ∀ value, (s.binding name).value = some value → Patient u s s2 value true) :
    Patient u s s2 (.identifier loc name) propagate
  /-- A name is put behind the name of the unit. -/
  | caret {loc : Location} {value : Expr} {propagate : Bool} (hvalue : Patient u s s2 value false)
    (hready : Ready u s value)
    (hname : ∀ name, (remainder u s value false).bind Expr.name? = some name →
      Patient u s s2 (.identifier loc (u.unit ++ "." ++ name)) propagate) :
    Patient u s s2 (.unary loc .macroLocal value) propagate
  /-- The operand is evaluated. -/
  | unary {loc : Location} {op : UnaryOp} {value : Expr} {propagate : Bool} (hop : op ≠ .macroLocal)
    (hvalue : Patient u s s2 value propagate) : Patient u s s2 (.unary loc op value) propagate
  /-- Two names are joined. -/
  | joins {loc : Location} {op : BinaryOp} {left right : Expr} {propagate : Bool}
    (hop : treatment op = .joins) (hleft : Patient u s s2 left false) (hright : Patient u s s2 right false)
    (hready : Ready u s left) (hready' : Ready u s right)
    (hname : ∀ name more, (remainder u s left false).bind Expr.name? = some name →
      (remainder u s right false).bind Expr.name? = some more →
        Patient u s s2 (.identifier loc (name ++ more)) propagate) :
    Patient u s s2 (.binary loc op left right) propagate
  /-- A number is appended to a name. -/
  | joinsNumber {loc : Location} {op : BinaryOp} {left right : Expr} {propagate : Bool}
    (hop : treatment op = .joinsNumber) (hleft : Patient u s s2 left false)
    (hright : Patient u s s2 right true) (hready : Ready u s left)
    (hname : ∀ name r n, (remainder u s left false).bind Expr.name? = some name →
      remainder u s right true = some r → r.isConcrete = true → r.asNumber.toOption = some n →
        Patient u s s2 (.identifier loc (name ++ suffix op n)) propagate) :
    Patient u s s2 (.binary loc op left right) propagate
  /-- The left operand may decide, so that the right one is skipped. -/
  | decides {loc : Location} {op : BinaryOp} {stop : Bool} {left right : Expr} {propagate : Bool}
    (hop : treatment op = .decides stop) (hleft : Patient u s s2 left propagate)
    (hright : ¬Skips u s stop left propagate → ¬Skips u s2 stop left propagate →
      Patient u s s2 right propagate)
    (hskipped : ¬Skips u s stop left propagate → Skips u s2 stop left propagate →
      (remainder u s right propagate).isSome = true) :
    Patient u s s2 (.binary loc op left right) propagate
  /-- Both operands are evaluated. -/
  | strict {loc : Location} {op : BinaryOp} {left right : Expr} {propagate : Bool}
    (hop : treatment op = .strict) (hleft : Patient u s s2 left propagate)
    (hright : Patient u s s2 right propagate) : Patient u s s2 (.binary loc op left right) propagate
  /-- The test chooses, so that one of the other operands is skipped. -/
  | ternary {loc : Location} {test onTrue onFalse : Expr} {propagate : Bool}
    (htest : Patient u s s2 test propagate)
    (htrue : ¬Skips u s false test propagate → ¬Skips u s2 false test propagate →
      Patient u s s2 onTrue propagate)
    (htrueSkipped : ¬Skips u s false test propagate → Skips u s2 false test propagate →
      (remainder u s onTrue propagate).isSome = true)
    (hfalse : ¬Skips u s true test propagate → ¬Skips u s2 true test propagate →
      Patient u s s2 onFalse propagate)
    (hfalseSkipped : ¬Skips u s true test propagate → Skips u s2 true test propagate →
      (remainder u s onFalse propagate).isSome = true) :
    Patient u s s2 (.ternary loc test onTrue onFalse) propagate
  /-- The arguments are evaluated. -/
  | call {loc : Location} {name : Text} {params : List Expr} {propagate : Bool}
    (h : ∀ e ∈ params, Patient u s s2 e propagate) : Patient u s s2 (.call loc name params) propagate
  /-- The address is evaluated. -/
  | absolute {loc : Location} {address : Expr} {propagate : Bool}
    (h : Patient u s s2 address propagate) : Patient u s s2 (.absolute loc address) propagate
  /-- The displacement is evaluated. -/
  | displaced {loc : Location} {base : Register} {displace : Expr} {propagate : Bool}
    (h : Patient u s s2 displace propagate) : Patient u s s2 (.displaced loc base displace) propagate
  /-- The offset is evaluated. -/
  | offset {loc : Location} {base : Register} {value : Expr} {propagate : Bool}
    (h : Patient u s s2 value propagate) : Patient u s s2 (.offset loc base value) propagate

section Foresees

variable {propagate : Bool} {a b l r l' r' : Expr}

/-- What is left of an expression over fewer bindings, beside what is left over more. What is known stays. Where
names are only built nothing becomes known, and a name stays one unless it waits for a number. -/
structure Foresees (propagate : Bool) (a b : Expr) : Prop where
  /-- What is known is known to be the same. -/
  known : a.isConcrete = true → a.erase = b.erase
  /-- Nothing becomes known where names are left alone. -/
  isConcrete : propagate = false → b.isConcrete = true → a.isConcrete = true
  /-- Names that do not wait for a number are built. -/
  name : propagate = false → a.awaitsNumber = true ∨ a.name? = b.name?

namespace Foresees

theorem refl (a : Expr) : Foresees propagate a a := ⟨fun _ => rfl, fun _ h => h, fun _ => Or.inr rfl⟩

/-- Where names are followed, what is known is known to be the same. -/
theorem of_known (h : a.isConcrete = true → a.erase = b.erase) : Foresees true a b where
  known := h
  isConcrete hp := absurd hp.symm Bool.false_ne_true
  name hp := absurd hp.symm Bool.false_ne_true

/-- What is not known over fewer bindings, and no name over more of them where names are left alone. -/
theorem of_waiting (ha : a.isConcrete = false)
    (hbuilt : propagate = false → b.isConcrete = false ∧ (a.awaitsNumber = true ∨ a.name? = b.name?)) :
    Foresees propagate a b where
  known h := by
    rw [ha] at h
    cases h
  isConcrete hp h := by
    rw [(hbuilt hp).1] at h
    cases h
  name hp := (hbuilt hp).2

theorem isConcrete_eq (h : Foresees propagate a b) (ha : a.isConcrete = true) : b.isConcrete = true := by
  rw [← Expr.isConcrete_congr (h.known ha), ha]

/-- What is not known where names are left alone does not become known. -/
theorem isConcrete_eq_false (h : Foresees propagate a b) (hp : propagate = false)
    (ha : a.isConcrete = false) : b.isConcrete = false := by
  cases hb : b.isConcrete with
  | false => rfl
  | true => rw [h.isConcrete hp hb] at ha; cases ha

/-- A name that does not wait for a number is built over fewer bindings. -/
theorem name?_eq {name : Text} (h : Foresees false a b) (hready : a.awaitsNumber = false)
    (hname : b.name? = some name) : a.name? = some name := by
  rcases h.name rfl with hwaits | heq
  · rw [hready] at hwaits
    cases hwaits
  · rw [heq, hname]

end Foresees

/-- Where more bindings give a result, fewer of them give one that foresees it. -/
def Precedes (propagate : Bool) (x y : Option Expr) : Prop :=
  ∀ b, y = some b → ∃ a, x = some a ∧ Foresees propagate a b

namespace Precedes

theorem refl (x : Option Expr) : Precedes propagate x x := fun b hb => ⟨b, hb, .refl b⟩

/-- Results that are processed further. -/
theorem bind {x y : Option Expr} {k k' : Expr → Option Expr} {later : Bool} (h : Precedes propagate x y)
    (hk : ∀ a b, Foresees propagate a b → Precedes later (k a) (k' b)) :
    Precedes later (x.bind k) (y.bind k') := by
  intro c hc
  obtain ⟨b, hb, hkb⟩ := Option.bind_eq_some_iff.1 hc
  obtain ⟨a, ha, hab⟩ := h b hb
  obtain ⟨d, hd, hdc⟩ := hk a b hab c hkb
  exact ⟨d, Option.bind_eq_some_iff.2 ⟨a, ha, hd⟩, hdc⟩

/-- Results that are changed. -/
theorem map {x y : Option Expr} {k k' : Expr → Expr} (h : Precedes propagate x y)
    (hk : ∀ a b, Foresees propagate a b → Foresees propagate (k a) (k' b)) :
    Precedes propagate (x.map k) (y.map k') := by
  rw [Option.map_eq_bind, Option.map_eq_bind]
  refine h.bind fun a b hab c hc => ?_
  cases hc
  exact ⟨k a, rfl, hk a b hab⟩

end Precedes

/-- A name that does not wait for a number is spelled over fewer bindings as it is over more. -/
theorem Precedes.exists_name {e : Expr} {name : Text}
    (h : Precedes false (remainder u s e false) (remainder u s2 e false)) (hready : Ready u s e)
    (hb : remainder u s2 e false = some b) (hname : b.name? = some name) :
    ∃ a, remainder u s e false = some a ∧ a.name? = some name := by
  obtain ⟨a, ha, hforesees⟩ := h b hb
  exact ⟨a, ha, hforesees.name?_eq (hready a ha) hname⟩

/-- A name waits as long as the number that is appended to it. -/
theorem settleJoin_precedes {f g : Following} {op : BinaryOp} (loc : Location) (l' : Expr) {name : Text}
    (hop : treatment op = .joinsNumber) (h : Foresees true r r')
    (hname : r.isConcrete = true → ∀ n, r.asNumber.toOption = some n →
      Precedes propagate (spell f propagate loc (name ++ suffix op n))
        (spell g propagate loc (name ++ suffix op n))) :
    Precedes propagate (settleJoin f propagate op loc l name r) (settleJoin g propagate op loc l' name r') := by
  intro b hb
  cases hr : r.isConcrete with
  | true =>
    rw [settleJoin, if_pos (h.isConcrete_eq hr), ← Expr.asNumber_congr (h.known hr)] at hb
    obtain ⟨n, hn, hb⟩ := Option.bind_eq_some_iff.1 hb
    obtain ⟨a, ha, hab⟩ := hname hr n hn b hb
    exact ⟨a, by rw [settleJoin, if_pos hr, hn]; exact ha, hab⟩
  | false =>
    have hjoin : op.isJoin = true := by cases op <;> first | rfl | cases hop
    refine ⟨.binary loc op l r, by rw [settleJoin, hr]; rfl, .of_waiting rfl fun hp => ⟨?_, Or.inl hjoin⟩⟩
    subst hp
    rw [settleJoin] at hb
    split at hb
    · obtain ⟨n, -, hb⟩ := Option.bind_eq_some_iff.1 hb
      cases hb
      rfl
    · cases hb
      rfl

/-- A unary operation waits as long as its operand does. -/
theorem settleUnary_precedes (op : UnaryOp) (loc : Location) (h : Foresees propagate a b) :
    Precedes propagate (settleUnary op loc a) (settleUnary op loc b) := by
  cases ha : a.isConcrete with
  | true =>
    have hsame : settleUnary op loc a = settleUnary op loc b := by
      rw [settleUnary, settleUnary, if_pos ha, if_pos (h.isConcrete_eq ha), ← applyUnary_erase op loc a,
        h.known ha, applyUnary_erase]
    rw [hsame]
    exact .refl _
  | false =>
    intro v hv
    refine ⟨.unary loc op a, by rw [settleUnary, ha]; rfl, .of_waiting rfl fun hp => ?_⟩
    rw [settleUnary, h.isConcrete_eq_false hp ha] at hv
    cases hv
    exact ⟨rfl, Or.inr rfl⟩

/-- A binary operation waits as long as one of its operands does. -/
theorem settleBinary_precedes (op : BinaryOp) (loc : Location) (hl : Foresees propagate l l')
    (hr : Foresees propagate r r') :
    Precedes propagate (settleBinary op loc l r) (settleBinary op loc l' r') := by
  cases hboth : l.isConcrete && r.isConcrete with
  | true =>
    obtain ⟨hlc, hrc⟩ := Bool.and_eq_true_iff.1 hboth
    have hsame : settleBinary op loc l r = settleBinary op loc l' r' := by
      have happly : applyBinary op loc l r = applyBinary op loc l' r' := by
        rw [← applyBinary_erase op loc l, hl.known hlc, hr.known hrc, applyBinary_erase]
      simp only [settleBinary, hlc, hrc, hl.isConcrete_eq hlc, hr.isConcrete_eq hrc, happly, Bool.and_self,
        if_true]
    rw [hsame]
    exact .refl _
  | false =>
    intro v hv
    refine ⟨.binary loc op l r, by rw [settleBinary, hboth]; rfl, .of_waiting rfl fun hp => ?_⟩
    have hboth' : (l'.isConcrete && r'.isConcrete) = false := by
      rcases Bool.and_eq_false_iff.1 hboth with hlc | hrc
      · rw [hl.isConcrete_eq_false hp hlc, Bool.false_and]
      · rw [hr.isConcrete_eq_false hp hrc, Bool.and_false]
    rw [settleBinary, hboth'] at hv
    cases hv
    exact ⟨rfl, Or.inr rfl⟩

/-- Expressions are known, where names are left alone, if those that they foresee are. -/
theorem all_isConcrete_of_forall₂ {as bs : List Expr} (h : List.Forall₂ (Foresees propagate) as bs)
    (hp : propagate = false) (hbs : bs.all Expr.isConcrete = true) : as.all Expr.isConcrete = true := by
  induction h with
  | nil => rfl
  | cons hab _ ih =>
    rw [List.all_cons, Bool.and_eq_true] at hbs ⊢
    exact ⟨hab.isConcrete hp hbs.1, ih hbs.2⟩

/-- A function that ignores its arguments gives the same whatever these are. -/
theorem apply_of_isLazy {f : Builtin} (hf : f.isLazy = true) (macroArgs : List Expr) (loc : Location)
    {as bs : List Expr} (h : as.length = bs.length) : f.apply macroArgs loc as = f.apply macroArgs loc bs := by
  cases f with
  | assembler => rfl
  | cnt => simp only [Builtin.apply, Builtin.checkArity, h]
  | _ => cases hf

/-- A call waits as long as one of its arguments does, unless it ignores them. -/
theorem settleCall_precedes (u : Surroundings) (f : Builtin) (loc : Location) (name : Text)
    {as bs : List Expr} (h : List.Forall₂ (Foresees propagate) as bs) :
    Precedes propagate (settleCall u f loc name as) (settleCall u f loc name bs) := by
  cases hlazy : f.isLazy with
  | true =>
    have hsame : settleCall u f loc name as = settleCall u f loc name bs := by
      simp only [settleCall, hlazy, Bool.true_or, if_true, apply_of_isLazy hlazy u.args loc h.length_eq]
    rw [hsame]
    exact .refl _
  | false =>
    cases hall : as.all Expr.isConcrete with
    | true =>
      have herase : Expr.eraseAll as = Expr.eraseAll bs := by
        clear hlazy
        induction h with
        | nil => rfl
        | cons hab _ ih =>
          rw [List.all_cons, Bool.and_eq_true] at hall
          rw [Expr.eraseAll, Expr.eraseAll, hab.known hall.1, ih hall.2]
      have hsame : settleCall u f loc name as = settleCall u f loc name bs := by
        have hall' : bs.all Expr.isConcrete = true := by
          rw [← Expr.all_isConcrete_eraseAll, ← herase, Expr.all_isConcrete_eraseAll, hall]
        have happly : f.apply u.args loc as = f.apply u.args loc bs := by
          rw [← Builtin.apply_eraseAll f u.args loc as, herase, Builtin.apply_eraseAll]
        simp only [settleCall, hall, hall', happly, Bool.or_true, if_true]
      rw [hsame]
      exact .refl _
    | false =>
      intro v hv
      refine ⟨.call loc name as, by rw [settleCall, hlazy, hall]; rfl, .of_waiting rfl fun hp => ?_⟩
      have hall' : bs.all Expr.isConcrete = false := by
        rw [← Bool.not_eq_true] at hall ⊢
        exact fun hbs => hall (all_isConcrete_of_forall₂ h hp hbs)
      rw [settleCall, hlazy, hall'] at hv
      cases hv
      exact ⟨rfl, Or.inr rfl⟩

end Foresees

section Guarded

variable {propagate stop : Bool} {t t' : Expr} {x x' y y' : Option Expr}

/-- What a test guards has a result over fewer bindings, if it has one over more or is skipped there. -/
theorem isSome_of_guarded (ht : ¬Stops stop t) (hboth : ¬Stops stop t → ¬Stops stop t' → Precedes propagate x y)
    (hskipped : ¬Stops stop t → Stops stop t' → x.isSome = true) (hy : ¬Stops stop t' → ∃ b, y = some b) :
    ∃ a, x = some a := by
  by_cases ht' : Stops stop t'
  · exact Option.isSome_iff_exists.1 (hskipped ht ht')
  · obtain ⟨b, hb⟩ := hy ht'
    obtain ⟨a, ha, -⟩ := hboth ht ht' b hb
    exact ⟨a, ha⟩

/-- What is not known does not stop anything. -/
theorem not_stops (ht : t.isConcrete = false) : ¬Stops stop t := by
  rintro ⟨hconcrete, -⟩
  rw [ht] at hconcrete
  cases hconcrete

/-- A known test that is not `stop` does not stop anything. -/
theorem not_stops_of_ne {holds : Bool} (htruth : t.asTruth.toOption = some holds) (hne : holds ≠ stop) :
    ¬Stops stop t := by
  rintro ⟨-, hstop⟩
  rw [htruth] at hstop
  cases hstop
  exact hne rfl

theorem Foresees.asTruth_eq (h : Foresees propagate t t') (ht : t.isConcrete = true) :
    t'.asTruth = t.asTruth := (Expr.asTruth_congr (h.known ht)).symm

/-- What a test does not stop is evaluated. -/
theorem exists_of_settleDecided {op : BinaryOp} {loc : Location} {b : Expr}
    (h : settleDecided op stop loc y t = some b) (ht : ¬Stops stop t) : ∃ r, y = some r := by
  rw [settleDecided] at h
  split at h
  · rename_i hconcrete
    obtain ⟨holds, hvalue, hrest⟩ := Option.bind_eq_some_iff.1 h
    rw [if_neg fun heq : holds = stop => ht ⟨hconcrete, heq ▸ hvalue⟩] at hrest
    exact ⟨b, hrest⟩
  · obtain ⟨r, hr, -⟩ := Option.map_eq_some_iff.1 h
    exact ⟨r, hr⟩

/-- The operands that a choice does not rule out are evaluated. -/
theorem exists_of_settleChoice {loc : Location} {b : Expr} (h : settleChoice loc y y' t = some b) :
    (¬Stops false t → ∃ r, y = some r) ∧ (¬Stops true t → ∃ r, y' = some r) := by
  rw [settleChoice] at h
  split at h
  · rename_i hconcrete
    obtain ⟨holds, hvalue, hrest⟩ := Option.bind_eq_some_iff.1 h
    cases holds with
    | true => exact ⟨fun _ => ⟨b, hrest⟩, fun hno => absurd ⟨hconcrete, hvalue⟩ hno⟩
    | false => exact ⟨fun hno => absurd ⟨hconcrete, hvalue⟩ hno, fun _ => ⟨b, hrest⟩⟩
  · obtain ⟨r, hr, hrest⟩ := Option.bind_eq_some_iff.1 h
    obtain ⟨r', hr', -⟩ := Option.map_eq_some_iff.1 hrest
    exact ⟨fun _ => ⟨r, hr⟩, fun _ => ⟨r', hr'⟩⟩

/-- An operation whose left operand may decide waits as long as that does. -/
theorem settleDecided_precedes (op : BinaryOp) (loc : Location) (h : Foresees propagate t t')
    (hboth : ¬Stops stop t → ¬Stops stop t' → Precedes propagate x y)
    (hskipped : ¬Stops stop t → Stops stop t' → x.isSome = true) :
    Precedes propagate (settleDecided op stop loc x t) (settleDecided op stop loc y t') := by
  intro b hb
  cases ht : t.isConcrete with
  | true =>
    have htruth := h.asTruth_eq ht
    rw [settleDecided, if_pos (h.isConcrete_eq ht), htruth] at hb
    rw [settleDecided, if_pos ht]
    cases hvalue : t.asTruth.toOption with
    | none => simp [hvalue] at hb
    | some holds =>
      simp only [hvalue, Option.bind_some] at hb ⊢
      by_cases hstop : holds = stop
      · rw [if_pos hstop] at hb ⊢
        cases hb
        exact ⟨t, rfl, h⟩
      · rw [if_neg hstop] at hb ⊢
        refine hboth (not_stops_of_ne hvalue hstop) (not_stops_of_ne ?_ hstop) b hb
        rw [htruth, hvalue]
  | false =>
    -- the test waits, so the operand is evaluated
    obtain ⟨a, ha⟩ := isSome_of_guarded (not_stops ht) hboth hskipped (exists_of_settleDecided hb)
    refine ⟨.binary loc op t a, by rw [settleDecided, ht, ha]; rfl, .of_waiting rfl fun hp => ?_⟩
    rw [settleDecided, h.isConcrete_eq_false hp ht] at hb
    obtain ⟨r, -, rfl⟩ := Option.map_eq_some_iff.1 hb
    exact ⟨rfl, Or.inr rfl⟩

/-- A choice waits as long as its test does. -/
theorem settleChoice_precedes (loc : Location) (h : Foresees propagate t t')
    (htrue : ¬Stops false t → ¬Stops false t' → Precedes propagate x y)
    (htrueSkipped : ¬Stops false t → Stops false t' → x.isSome = true)
    (hfalse : ¬Stops true t → ¬Stops true t' → Precedes propagate x' y')
    (hfalseSkipped : ¬Stops true t → Stops true t' → x'.isSome = true) :
    Precedes propagate (settleChoice loc x x' t) (settleChoice loc y y' t') := by
  intro b hb
  cases ht : t.isConcrete with
  | true =>
    have htruth := h.asTruth_eq ht
    rw [settleChoice, if_pos (h.isConcrete_eq ht), htruth] at hb
    rw [settleChoice, if_pos ht]
    cases hvalue : t.asTruth.toOption with
    | none => simp [hvalue] at hb
    | some holds =>
      have hvalue' : t'.asTruth.toOption = some holds := by rw [htruth, hvalue]
      simp only [hvalue, Option.bind_some] at hb ⊢
      cases holds with
      | true =>
        exact htrue (not_stops_of_ne hvalue (by decide)) (not_stops_of_ne hvalue' (by decide)) b hb
      | false =>
        exact hfalse (not_stops_of_ne hvalue (by decide)) (not_stops_of_ne hvalue' (by decide)) b hb
  | false =>
    -- the test waits, so both operands are evaluated
    have hevaluated := exists_of_settleChoice hb
    obtain ⟨a, ha⟩ := isSome_of_guarded (not_stops ht) htrue htrueSkipped hevaluated.1
    obtain ⟨a', ha'⟩ := isSome_of_guarded (not_stops ht) hfalse hfalseSkipped hevaluated.2
    refine ⟨.ternary loc t a a', by rw [settleChoice, ht, ha, ha']; rfl, .of_waiting rfl fun hp => ?_⟩
    rw [settleChoice, h.isConcrete_eq_false hp ht] at hb
    obtain ⟨r, -, hrest⟩ := Option.bind_eq_some_iff.1 hb
    obtain ⟨r', -, rfl⟩ := Option.map_eq_some_iff.1 hrest
    exact ⟨rfl, Or.inr rfl⟩

end Guarded

section Forward

/-- Whether a test skips what it guards is told by what is left of it. -/
theorem skips_iff {propagate stop : Bool} {test t : Expr} (ht : remainder u s test propagate = some t) :
    Skips u s stop test propagate ↔ Stops stop t := by
  refine ⟨fun ⟨t', ht', h⟩ => ?_, fun h => ⟨t, ht, h⟩⟩
  rw [ht] at ht'
  cases ht'
  exact h

variable (hextends : ∀ name, (s.binding name).isSet = true → s2.binding name = s.binding name)
include hextends

/-- A name leads to what it is bound to, or waits. -/
theorem following_precedes {loc : Location} {name : Text}
    (h : ∀ value, (s.binding name).value = some value →
      Precedes true (remainder u s value true) (remainder u s2 value true)) :
    Precedes true (following u s loc name) (following u s2 loc name) := by
  intro b hb
  cases hset : (s.binding name).isSet with
  | false =>
    -- the name is not bound yet
    rw [following_eq, lookup_of_unset hset]
    exact ⟨_, rfl, .of_known fun h => absurd h Bool.false_ne_true⟩
  | true =>
    rw [following_eq, lookup, hextends name hset] at hb
    rw [following_eq, lookup]
    by_cases hmacro : (s.binding name).isMacro = true
    · rw [if_pos hmacro] at hb
      cases hb
    · rw [if_neg hmacro] at hb ⊢
      cases hvalue : (s.binding name).value with
      | none => exact ⟨_, rfl, .of_known fun h => absurd h Bool.false_ne_true⟩
      | some value =>
        rw [hvalue] at hb
        obtain ⟨v', hv', rfl⟩ := Option.map_eq_some_iff.1 hb
        obtain ⟨v, hv, hforesees⟩ := h value hvalue v' hv'
        refine ⟨tag name v, Option.map_eq_some_iff.2 ⟨v, hv, rfl⟩, .of_known fun hconcrete => ?_⟩
        rw [erase_tag, erase_tag]
        apply hforesees.known
        cases v <;> exact hconcrete

omit hextends in
/-- Expressions that evaluate over more bindings one by one evaluate over fewer as a list. -/
theorem outcomeAll_precedes {es : List Expr} {propagate : Bool}
    (h : ∀ e ∈ es, Precedes propagate (remainder u s e propagate) (remainder u s2 e propagate))
    {bs : List Expr} (hbs : outcomeAll u s2.radix (following u s2) es propagate = some bs) :
    ∃ as, outcomeAll u s.radix (following u s) es propagate = some as ∧
      List.Forall₂ (Foresees propagate) as bs := by
  induction es generalizing bs with
  | nil =>
    rw [outcomeAll] at hbs
    cases hbs
    exact ⟨[], rfl, .nil⟩
  | cons e rest ih =>
    rw [List.forall_mem_cons] at h
    rw [outcomeAll] at hbs ⊢
    obtain ⟨b, hb, hbs⟩ := Option.bind_eq_some_iff.1 hbs
    obtain ⟨bs', hbs', rfl⟩ := Option.map_eq_some_iff.1 hbs
    obtain ⟨a, ha, hab⟩ := h.1 b hb
    obtain ⟨as, has, hforesees⟩ := ih h.2 hbs'
    rw [remainder] at ha
    exact ⟨a :: as, by rw [ha, has]; rfl, .cons hab hforesees⟩

variable (hradix : s2.radix = s.radix)
include hradix

/-- Where nothing is evaluated before its time, an expression that evaluates over more bindings evaluates over
fewer. -/
theorem Patient.precedes {e : Expr} {propagate : Bool} (h : Patient u s s2 e propagate) :
    Precedes propagate (remainder u s e propagate) (remainder u s2 e propagate) := by
  induction h with
  | @atom e propagate h =>
    cases e with
    | numeral loc digits =>
      rw [remainder, remainder, outcome, outcome, hradix]
      exact .refl _
    | identifier | unary | binary | ternary | call | absolute | displaced | offset => cases h
    | _ => exact .refl _
  | @name loc name propagate h ih =>
    rw [remainder, remainder, outcome, outcome]
    cases propagate with
    | true => exact following_precedes hextends fun value hvalue => ih rfl value hvalue
    | false => exact .refl _
  | @caret loc value propagate hvalue hready hname ihvalue ihname =>
    intro b hb
    rw [remainder, outcome, if_pos rfl] at hb ⊢
    obtain ⟨v', hv', hb⟩ := Option.bind_eq_some_iff.1 hb
    obtain ⟨name, hname', hb⟩ := Option.bind_eq_some_iff.1 hb
    obtain ⟨v, hv, hspelled⟩ := ihvalue.exists_name hready hv' hname'
    obtain ⟨a, ha, hab⟩ := ihname name (Option.bind_eq_some_iff.2 ⟨v, hv, hspelled⟩) b hb
    refine ⟨a, Option.bind_eq_some_iff.2 ⟨v, hv, ?_⟩, hab⟩
    exact Option.bind_eq_some_iff.2 ⟨name, hspelled, ha⟩
  | unary hop hvalue ih =>
    rw [remainder, remainder, outcome, outcome, if_neg hop, if_neg hop]
    exact ih.bind fun _ _ => settleUnary_precedes _ _
  | @joins loc op left right propagate hop hleft hright hready hready' hname ihleft ihright ihname =>
    intro b hb
    rw [remainder, outcome, hop] at hb ⊢
    obtain ⟨l', hl', hb⟩ := Option.bind_eq_some_iff.1 hb
    obtain ⟨name, hleft', hb⟩ := Option.bind_eq_some_iff.1 hb
    obtain ⟨r', hr', hb⟩ := Option.bind_eq_some_iff.1 hb
    obtain ⟨more, hright', hb⟩ := Option.bind_eq_some_iff.1 hb
    obtain ⟨l, hl, hlname⟩ := ihleft.exists_name hready hl' hleft'
    obtain ⟨r, hr, hrname⟩ := ihright.exists_name hready' hr' hright'
    obtain ⟨a, ha, hab⟩ := ihname name more (Option.bind_eq_some_iff.2 ⟨l, hl, hlname⟩)
      (Option.bind_eq_some_iff.2 ⟨r, hr, hrname⟩) b hb
    refine ⟨a, Option.bind_eq_some_iff.2 ⟨l, hl, Option.bind_eq_some_iff.2 ⟨name, hlname, ?_⟩⟩, hab⟩
    exact Option.bind_eq_some_iff.2 ⟨r, hr, Option.bind_eq_some_iff.2 ⟨more, hrname, ha⟩⟩
  | @joinsNumber loc op left right propagate hop hleft hright hready hname ihleft ihright ihname =>
    intro b hb
    rw [remainder, outcome, hop] at hb ⊢
    obtain ⟨l', hl', hb⟩ := Option.bind_eq_some_iff.1 hb
    obtain ⟨name, hleft', hb⟩ := Option.bind_eq_some_iff.1 hb
    obtain ⟨r', hr', hb⟩ := Option.bind_eq_some_iff.1 hb
    obtain ⟨l, hl, hlname⟩ := ihleft.exists_name hready hl' hleft'
    obtain ⟨r, hr, hforesees⟩ := ihright r' hr'
    obtain ⟨a, ha, hab⟩ := settleJoin_precedes loc l' hop hforesees (fun hconcrete n hn =>
      ihname name r n (Option.bind_eq_some_iff.2 ⟨l, hl, hlname⟩) hr hconcrete hn) b hb
    refine ⟨a, Option.bind_eq_some_iff.2 ⟨l, hl, Option.bind_eq_some_iff.2 ⟨name, hlname, ?_⟩⟩, hab⟩
    exact Option.bind_eq_some_iff.2 ⟨r, hr, ha⟩
  | @decides loc op stop left right propagate hop hleft hright hskipped ihleft ihright =>
    intro b hb
    rw [remainder, outcome, hop] at hb ⊢
    obtain ⟨l', hl', hb⟩ := Option.bind_eq_some_iff.1 hb
    obtain ⟨l, hl, hforesees⟩ := ihleft l' hl'
    rw [skips_iff hl, skips_iff hl'] at ihright hskipped
    obtain ⟨a, ha, hab⟩ := settleDecided_precedes op loc hforesees ihright hskipped b hb
    exact ⟨a, Option.bind_eq_some_iff.2 ⟨l, hl, ha⟩, hab⟩
  | strict hop hleft hright ihleft ihright =>
    rw [remainder, remainder, outcome, outcome, hop]
    exact ihleft.bind fun _ _ hl => ihright.bind fun _ _ hr => settleBinary_precedes _ _ hl hr
  | @ternary loc test onTrue onFalse propagate htest htrue htrueSkipped hfalse hfalseSkipped ihtest ihtrue
      ihfalse =>
    intro b hb
    rw [remainder, outcome] at hb ⊢
    obtain ⟨t', ht', hb⟩ := Option.bind_eq_some_iff.1 hb
    obtain ⟨t, ht, hforesees⟩ := ihtest t' ht'
    rw [skips_iff ht, skips_iff ht'] at ihtrue htrueSkipped ihfalse hfalseSkipped
    obtain ⟨a, ha, hab⟩ :=
      settleChoice_precedes loc hforesees ihtrue htrueSkipped ihfalse hfalseSkipped b hb
    exact ⟨a, Option.bind_eq_some_iff.2 ⟨t, ht, ha⟩, hab⟩
  | @call loc name params propagate h ih =>
    intro b hb
    rw [remainder, outcome] at hb ⊢
    obtain ⟨f, hf, hb⟩ := Option.bind_eq_some_iff.1 hb
    obtain ⟨args', hargs', hb⟩ := Option.bind_eq_some_iff.1 hb
    obtain ⟨args, hargs, hforesees⟩ := outcomeAll_precedes ih hargs'
    obtain ⟨a, ha, hab⟩ := settleCall_precedes u f loc name hforesees b hb
    exact ⟨a, Option.bind_eq_some_iff.2 ⟨f, hf, Option.bind_eq_some_iff.2 ⟨args, hargs, ha⟩⟩, hab⟩
  | absolute h ih =>
    rw [remainder, remainder, outcome, outcome]
    exact ih.map fun _ _ _ => .of_waiting rfl fun _ => ⟨rfl, Or.inr rfl⟩
  | displaced h ih =>
    rw [remainder, remainder, outcome, outcome]
    exact ih.map fun _ _ _ => .of_waiting rfl fun _ => ⟨rfl, Or.inr rfl⟩
  | offset h ih =>
    rw [remainder, remainder, outcome, outcome]
    exact ih.map fun _ _ _ => .of_waiting rfl fun _ => ⟨rfl, Or.inr rfl⟩

end Forward

section Backward

theorem awaitsNumber_of_name? {v : Expr} {name : Text} (h : v.name? = some name) :
    v.awaitsNumber = false := by
  cases v <;> first | rfl | cases h

/-- What is left of an expression that spells a name is ready. -/
theorem ready_of_name? {e v : Expr} {name : Text} (hv : remainder u s e false = some v)
    (hname : v.name? = some name) : Ready u s e := by
  intro w hw
  rw [hv] at hw
  cases hw
  exact awaitsNumber_of_name? hname

/-- An expression spells one name. -/
theorem name_eq_of_spelled {e v : Expr} {name other : Text} (hv : remainder u s e false = some v)
    (hname : v.name? = some name) (hother : (remainder u s e false).bind Expr.name? = some other) :
    other = name := by
  rw [hv, Option.bind_some, hname] at hother
  cases hother
  rfl

variable (hextends : ∀ name, (s.binding name).isSet = true → s2.binding name = s.binding name)
  (hradix : s2.radix = s.radix)
include hextends hradix

/-- A name that is built over both scopes is the same. -/
theorem Patient.name_eq {e v v' : Expr} {name name' : Text} (h : Patient u s s2 e false)
    (hv : remainder u s e false = some v) (hname : v.name? = some name)
    (hv' : remainder u s2 e false = some v') (hname' : v'.name? = some name') : name' = name := by
  obtain ⟨a, ha, hforesees⟩ := h.precedes hextends hradix v' hv'
  rw [hv] at ha
  cases ha
  have hsame := hforesees.name?_eq (awaitsNumber_of_name? hname) hname'
  rw [hname] at hsame
  cases hsame
  rfl

omit hextends hradix

/-- A way to follow names over a scope `s` that goes no further than evaluation, beside evaluation over a scope
`s2` that binds more. -/
structure Reaches (u : Surroundings) (s s2 : Scope) (f : Following) : Prop where
  /-- The scopes have the same radix. -/
  radix : s2.radix = s.radix
  /-- What is bound is bound to the same. -/
  binding : ∀ name, (s.binding name).isSet = true → s2.binding name = s.binding name
  /-- Whatever is reached is what evaluation gives. -/
  below : ∀ loc name, Below (f loc name) (following u s loc name)
  /-- A name that is reached is bound to a value in which nothing is evaluated before its time. -/
  name : ∀ loc name a b, f loc name = some a → following u s2 loc name = some b →
    Patient u s s2 (.identifier loc name) true

variable {f : Following}

/-- A built name that is followed over both scopes. -/
theorem patient_spell (hf : Reaches u s s2 f) {propagate : Bool} {loc : Location} {name : Text} {a b : Expr}
    (ha : spell f propagate loc name = some a) (hb : spell (following u s2) propagate loc name = some b) :
    Patient u s s2 (.identifier loc name) propagate := by
  cases propagate with
  | true => exact hf.name loc name a b ha hb
  | false => exact .name nofun

/-- An operand that a test guards, over both scopes: where the test skips it over neither, nothing in it is
evaluated before its time, and where the test skips it over more bindings only, it evaluates over fewer. -/
theorem patient_guarded {stop propagate : Bool} {test t t' e : Expr}
    (hbelow : ∀ loc name, Below (f loc name) (following u s loc name))
    (ht : outcome u s.radix f test propagate = some t) (ht' : remainder u s2 test propagate = some t')
    (hhere : ¬Stops stop t → ∃ a, outcome u s.radix f e propagate = some a)
    (hthere : ¬Stops stop t' → ∃ b, remainder u s2 e propagate = some b)
    (hpatient : ∀ a b, outcome u s.radix f e propagate = some a → remainder u s2 e propagate = some b →
      Patient u s s2 e propagate) :
    (¬Skips u s stop test propagate → ¬Skips u s2 stop test propagate → Patient u s s2 e propagate) ∧
    (¬Skips u s stop test propagate → Skips u s2 stop test propagate →
      (remainder u s e propagate).isSome = true) := by
  rw [skips_iff (outcome_mono hbelow test propagate t ht), skips_iff ht']
  refine ⟨fun h h' => ?_, fun h _ => ?_⟩
  · obtain ⟨a, ha⟩ := hhere h
    obtain ⟨b, hb⟩ := hthere h'
    exact hpatient a b ha hb
  · obtain ⟨a, ha⟩ := hhere h
    rw [remainder, outcome_mono hbelow e propagate a ha, Option.isSome_some]

mutual

/-- Where an expression evaluates over both scopes, nothing in it is evaluated before its time. -/
theorem patient_of_outcome (hf : Reaches u s s2 f) : ∀ (e : Expr) (propagate : Bool) (a b : Expr),
    outcome u s.radix f e propagate = some a → remainder u s2 e propagate = some b →
      Patient u s s2 e propagate := by
  intro e propagate a b ha hb
  have hmono : ∀ (e : Expr) (q : Bool) (v : Expr), outcome u s.radix f e q = some v →
      remainder u s e q = some v := fun e q => outcome_mono hf.below e q
  cases e with
  | identifier loc name =>
    rw [outcome] at ha
    rw [remainder, outcome] at hb
    exact patient_spell hf ha hb
  | unary loc op value =>
    rw [outcome] at ha
    rw [remainder, outcome] at hb
    by_cases hop : op = .macroLocal
    · subst hop
      rw [if_pos rfl] at ha hb
      obtain ⟨v, hv, ha⟩ := Option.bind_eq_some_iff.1 ha
      obtain ⟨name, hname, ha⟩ := Option.bind_eq_some_iff.1 ha
      obtain ⟨v', hv', hb⟩ := Option.bind_eq_some_iff.1 hb
      obtain ⟨name', hname', hb⟩ := Option.bind_eq_some_iff.1 hb
      have hvalue := patient_of_outcome hf value false v v' hv hv'
      obtain rfl := hvalue.name_eq hf.binding hf.radix (hmono _ _ _ hv) hname hv' hname'
      refine .caret hvalue (ready_of_name? (hmono _ _ _ hv) hname) fun other hother => ?_
      rw [name_eq_of_spelled (hmono _ _ _ hv) hname hother]
      exact patient_spell hf ha hb
    · rw [if_neg hop] at ha hb
      obtain ⟨v, hv, -⟩ := Option.bind_eq_some_iff.1 ha
      obtain ⟨v', hv', -⟩ := Option.bind_eq_some_iff.1 hb
      exact .unary hop (patient_of_outcome hf value propagate v v' hv hv')
  | binary loc op left right =>
    rw [outcome] at ha
    rw [remainder, outcome] at hb
    cases hop : treatment op with
    | joins =>
      rw [hop] at ha hb
      obtain ⟨l, hl, ha⟩ := Option.bind_eq_some_iff.1 ha
      obtain ⟨name, hname, ha⟩ := Option.bind_eq_some_iff.1 ha
      obtain ⟨r, hr, ha⟩ := Option.bind_eq_some_iff.1 ha
      obtain ⟨more, hmore, ha⟩ := Option.bind_eq_some_iff.1 ha
      obtain ⟨l', hl', hb⟩ := Option.bind_eq_some_iff.1 hb
      obtain ⟨name', hname', hb⟩ := Option.bind_eq_some_iff.1 hb
      obtain ⟨r', hr', hb⟩ := Option.bind_eq_some_iff.1 hb
      obtain ⟨more', hmore', hb⟩ := Option.bind_eq_some_iff.1 hb
      have hleft := patient_of_outcome hf left false l l' hl hl'
      have hright := patient_of_outcome hf right false r r' hr hr'
      obtain rfl := hleft.name_eq hf.binding hf.radix (hmono _ _ _ hl) hname hl' hname'
      obtain rfl := hright.name_eq hf.binding hf.radix (hmono _ _ _ hr) hmore hr' hmore'
      refine .joins hop hleft hright (ready_of_name? (hmono _ _ _ hl) hname)
        (ready_of_name? (hmono _ _ _ hr) hmore) fun first second hfirst hsecond => ?_
      rw [name_eq_of_spelled (hmono _ _ _ hl) hname hfirst, name_eq_of_spelled (hmono _ _ _ hr) hmore hsecond]
      exact patient_spell hf ha hb
    | joinsNumber =>
      rw [hop] at ha hb
      obtain ⟨l, hl, ha⟩ := Option.bind_eq_some_iff.1 ha
      obtain ⟨name, hname, ha⟩ := Option.bind_eq_some_iff.1 ha
      obtain ⟨r, hr, ha⟩ := Option.bind_eq_some_iff.1 ha
      obtain ⟨l', hl', hb⟩ := Option.bind_eq_some_iff.1 hb
      obtain ⟨name', hname', hb⟩ := Option.bind_eq_some_iff.1 hb
      obtain ⟨r', hr', hb⟩ := Option.bind_eq_some_iff.1 hb
      have hleft := patient_of_outcome hf left false l l' hl hl'
      have hright := patient_of_outcome hf right true r r' hr hr'
      obtain rfl := hleft.name_eq hf.binding hf.radix (hmono _ _ _ hl) hname hl' hname'
      refine .joinsNumber hop hleft hright (ready_of_name? (hmono _ _ _ hl) hname)
        fun other r₁ n hother hr₁ hconcrete hn => ?_
      rw [name_eq_of_spelled (hmono _ _ _ hl) hname hother]
      rw [hmono _ _ _ hr] at hr₁
      cases hr₁
      -- the number is known over more bindings too
      obtain ⟨r₂, hr₂, hforesees⟩ := hright.precedes hf.binding hf.radix r' hr'
      rw [hmono _ _ _ hr] at hr₂
      cases hr₂
      rw [settleJoin, if_pos hconcrete, hn] at ha
      rw [settleJoin, if_pos (hforesees.isConcrete_eq hconcrete),
        ← Expr.asNumber_congr (hforesees.known hconcrete), hn] at hb
      exact patient_spell hf ha hb
    | decides stop =>
      rw [hop] at ha hb
      obtain ⟨l, hl, ha⟩ := Option.bind_eq_some_iff.1 ha
      obtain ⟨l', hl', hb⟩ := Option.bind_eq_some_iff.1 hb
      have hguarded := patient_guarded hf.below hl hl' (exists_of_settleDecided ha) (exists_of_settleDecided hb)
        (patient_of_outcome hf right propagate)
      exact .decides hop (patient_of_outcome hf left propagate l l' hl hl') hguarded.1 hguarded.2
    | strict =>
      rw [hop] at ha hb
      obtain ⟨l, hl, ha⟩ := Option.bind_eq_some_iff.1 ha
      obtain ⟨r, hr, -⟩ := Option.bind_eq_some_iff.1 ha
      obtain ⟨l', hl', hb⟩ := Option.bind_eq_some_iff.1 hb
      obtain ⟨r', hr', -⟩ := Option.bind_eq_some_iff.1 hb
      exact .strict hop (patient_of_outcome hf left propagate l l' hl hl')
        (patient_of_outcome hf right propagate r r' hr hr')
  | ternary loc test onTrue onFalse =>
    rw [outcome] at ha
    rw [remainder, outcome] at hb
    obtain ⟨t, ht, ha⟩ := Option.bind_eq_some_iff.1 ha
    obtain ⟨t', ht', hb⟩ := Option.bind_eq_some_iff.1 hb
    have hhere := exists_of_settleChoice ha
    have hthere := exists_of_settleChoice hb
    have htrue := patient_guarded hf.below ht ht' hhere.1 hthere.1 (patient_of_outcome hf onTrue propagate)
    have hfalse := patient_guarded hf.below ht ht' hhere.2 hthere.2 (patient_of_outcome hf onFalse propagate)
    exact .ternary (patient_of_outcome hf test propagate t t' ht ht') htrue.1 htrue.2 hfalse.1 hfalse.2
  | call loc name params =>
    rw [outcome] at ha
    rw [remainder, outcome] at hb
    obtain ⟨_, -, ha⟩ := Option.bind_eq_some_iff.1 ha
    obtain ⟨as, has, -⟩ := Option.bind_eq_some_iff.1 ha
    obtain ⟨_, -, hb⟩ := Option.bind_eq_some_iff.1 hb
    obtain ⟨bs, hbs, -⟩ := Option.bind_eq_some_iff.1 hb
    exact .call (patient_of_outcomeAll hf params propagate as bs has hbs)
  | absolute loc address =>
    rw [outcome] at ha
    rw [remainder, outcome] at hb
    obtain ⟨v, hv, -⟩ := Option.map_eq_some_iff.1 ha
    obtain ⟨w, hw, -⟩ := Option.map_eq_some_iff.1 hb
    exact .absolute (patient_of_outcome hf address propagate v w hv hw)
  | displaced loc base displace =>
    rw [outcome] at ha
    rw [remainder, outcome] at hb
    obtain ⟨v, hv, -⟩ := Option.map_eq_some_iff.1 ha
    obtain ⟨w, hw, -⟩ := Option.map_eq_some_iff.1 hb
    exact .displaced (patient_of_outcome hf displace propagate v w hv hw)
  | offset loc base value =>
    rw [outcome] at ha
    rw [remainder, outcome] at hb
    obtain ⟨v, hv, -⟩ := Option.map_eq_some_iff.1 ha
    obtain ⟨w, hw, -⟩ := Option.map_eq_some_iff.1 hb
    exact .offset (patient_of_outcome hf value propagate v w hv hw)
  | _ => exact .atom rfl

/-- Where the expressions of a list evaluate over both scopes, nothing in them is evaluated before its time. -/
theorem patient_of_outcomeAll (hf : Reaches u s s2 f) : ∀ (es : List Expr) (propagate : Bool) (as bs : List Expr),
    outcomeAll u s.radix f es propagate = some as →
      outcomeAll u s2.radix (following u s2) es propagate = some bs →
        ∀ e ∈ es, Patient u s s2 e propagate := by
  intro es propagate as bs has hbs
  cases es with
  | nil => exact nofun
  | cons e rest =>
    rw [outcomeAll] at has hbs
    obtain ⟨a, ha, has⟩ := Option.bind_eq_some_iff.1 has
    obtain ⟨b, hb, hbs⟩ := Option.bind_eq_some_iff.1 hbs
    obtain ⟨as', has', -⟩ := Option.map_eq_some_iff.1 has
    obtain ⟨bs', hbs', -⟩ := Option.map_eq_some_iff.1 hbs
    rw [List.forall_mem_cons]
    exact ⟨patient_of_outcome hf e propagate a b ha hb, patient_of_outcomeAll hf rest propagate as' bs' has' hbs'⟩

end

/-- Where a name is followed over one scope and evaluated over another that binds more, nothing that it leads to
is evaluated before its time. -/
theorem reaches_follow (hradix : s2.radix = s.radix)
    (hextends : ∀ name, (s.binding name).isSet = true → s2.binding name = s.binding name) (n : Nat) :
    Reaches u s s2 (follow u s.radix s.binding n) := by
  have hbelow : ∀ n loc name,
      Below (follow u s.radix s.binding n loc name) (following u s loc name) := fun n loc name =>
    follow_le_guarded (mem_domain_of_isSome s) n _ [] (by simpa using card_domain_lt s) (by simp) loc name
  induction n with
  | zero =>
    refine ⟨hradix, hextends, hbelow 0, fun loc name a b ha _ => .name fun _ value hvalue => ?_⟩
    rw [follow, lookup, hvalue] at ha
    split at ha <;> cases ha
  | succ n ih =>
    refine ⟨hradix, hextends, hbelow (n + 1), fun loc name a b ha hb => .name fun _ value hvalue => ?_⟩
    have hset : (s.binding name).isSet = true := by simp [Binding.isSet, hvalue]
    rw [following_eq, lookup, hextends name hset] at hb
    rw [follow, lookup] at ha
    -- a macro has no value
    split at ha
    · cases ha
    · rename_i hmacro
      rw [if_neg hmacro] at hb
      simp only [hvalue] at ha hb
      obtain ⟨v, hv, -⟩ := Option.map_eq_some_iff.1 ha
      obtain ⟨v', hv', -⟩ := Option.map_eq_some_iff.1 hb
      exact patient_of_outcome ih value true v v' hv hv'

end Backward

/-- Evaluation gives a result exactly if something is left of the expression. -/
theorem exists_flatten_iff (u : Surroundings) (e : Expr) (s : State) :
    (∃ v, ((flatten u e).exec s).1 = .ok v) ↔ ∃ v, remainder u s.scope e true = some v := by
  rw [remainder, ← flatten_eq_outcome]
  cases ((flatten u e).exec s).1 with
  | ok v => simp [Except.toOption]
  | error f => simp [Except.toOption]

/-- An expression that evaluates where more names are bound evaluates where fewer are, exactly if nothing in it
is evaluated before its time: an operand that is skipped once its test is known, and not before, must evaluate
over the fewer names, and what names are built of must not be a name that waits for a number. -/
theorem flatten_of_later (u : Surroundings) (e : Expr) (s s2 : State)
    (hradix : s2.scope.radix = s.scope.radix)
    (hextends : ∀ name, (s.scope.binding name).isSet = true → s2.scope.binding name = s.scope.binding name)
    (h2 : ∃ v, ((flatten u e).exec s2).1 = .ok v) :
    (∃ v, ((flatten u e).exec s).1 = .ok v) ↔ Patient u s.scope s2.scope e true := by
  rw [exists_flatten_iff] at h2 ⊢
  obtain ⟨b, hb⟩ := h2
  constructor
  · rintro ⟨a, ha⟩
    have hfollow := outcome_mono (following_le_follow u s.scope) e true a ha
    exact patient_of_outcome (reaches_follow hradix hextends _) e true a b hfollow hb
  · intro hpatient
    obtain ⟨a, ha, -⟩ := hpatient.precedes hextends hradix b hb
    exact ⟨a, ha⟩

/-- `X || 1 / n`. -/
def orQuotient (n : Int64) : Expr :=
  .binary Location.none .or (.identifier Location.none "X")
    (.binary Location.none .divide (.literal Location.none 1) (.literal Location.none n))

/-- A name that a number is appended to, and then another name. -/
def twiceJoined : Expr :=
  .binary Location.none .joinNames
    (.binary Location.none .joinDecimal (.identifier Location.none "A") (.identifier Location.none "N"))
    (.identifier Location.none "B")

/-- Before `X` is bound the right operand of `X || 1 / 2` evaluates, and that of `X || 1 / 0` does not. Before
`N` is bound a name that its number is appended to cannot be joined with another name. -/
theorem flatten_of_later_lateNames :
    (∃ v, ((flatten ⟨"m", []⟩ (orQuotient 2)).exec (State.start Scope.initial)).1 = .ok v) ∧
    ¬Patient ⟨"m", []⟩ Scope.initial (stateWith "X" (.literal Location.none 1)).scope (orQuotient 0) true ∧
    ¬Patient ⟨"m", []⟩ Scope.initial (stateWith "N" (.literal Location.none 1)).scope twiceJoined true := by
  have hlater : ∀ name : Text, name ≠ Scope.radixName → ∀ other,
      ((State.start Scope.initial).scope.binding other).isSet = true →
        (stateWith name (.literal Location.none 1)).scope.binding other =
          (State.start Scope.initial).scope.binding other := fun _ hname => binding_stateWith hname _
  have hunset : (Scope.initial.binding "X").value = none := rfl
  refine ⟨?_, fun h => ?_, fun h => ?_⟩
  · refine (flatten_of_later ⟨"m", []⟩ (orQuotient 2) (State.start Scope.initial)
      (stateWith "X" (.literal Location.none 1)) rfl (hlater "X" (by decide)) ⟨_, rfl⟩).2 ?_
    refine .decides rfl (.name fun _ value hvalue => ?_)
      (fun _ _ => .strict rfl (.atom rfl) (.atom rfl)) fun _ _ => rfl
    exact absurd (hunset.symm.trans hvalue) nofun
  · obtain ⟨v, hv⟩ := (flatten_of_later ⟨"m", []⟩ (orQuotient 0) (State.start Scope.initial)
      (stateWith "X" (.literal Location.none 1)) rfl (hlater "X" (by decide)) ⟨_, rfl⟩).2 h
    cases hv
  · obtain ⟨v, hv⟩ := (flatten_of_later ⟨"m", []⟩ twiceJoined (State.start Scope.initial)
      (stateWith "N" (.literal Location.none 1)) rfl (hlater "N" (by decide)) ⟨_, rfl⟩).2 h
    cases hv

/-- An error can come too early: `X || 1 / 0` evaluates once `X` is bound to 1, and fails before that. -/
theorem not_flatten_of_later :
    ¬ ∀ (u : Surroundings) (e : Expr) (s s2 : State), s2.scope.radix = s.scope.radix →
      (∀ name, (s.scope.binding name).isSet = true → s2.scope.binding name = s.scope.binding name) →
      (∃ v, ((flatten u e).exec s2).1 = .ok v) → ∃ v, ((flatten u e).exec s).1 = .ok v := by
  intro hclaim
  obtain ⟨v, hv⟩ := hclaim ⟨"m", []⟩ (orQuotient 0) (State.start Scope.initial)
    (stateWith "X" (.literal Location.none 1)) rfl (binding_stateWith (by decide) _) ⟨_, rfl⟩
  cases hv

end Eval

end MacroAsm
