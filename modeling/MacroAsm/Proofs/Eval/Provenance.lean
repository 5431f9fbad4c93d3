import MacroAsm.Proofs.Eval.Action
import MacroAsm.Proofs.Eval.Agreement
import MacroAsm.Proofs.Scope.Unlocated

/-!
# Evaluation does not look at where expressions come from

Two expressions are the same if nothing tells them apart but the places where they were read, the names that values
were resolved through and the labels of fragments. Evaluation looks at none of these. `Alike er x y` says that two
actions, from states that differ in the places of symbols alone, both fail or give results with the same view `er`,
and in any case leave such states. Operators, functions and requests are alike for operands that are the same
(`applyUnary_alike`, `applyBinary_alike`, `apply_alike`, `request_alike`), and so is evaluation, by induction on the
expression (`flattenWith_alike`) and on how far names are followed (`resolve_alike`).

Main statement: `Eval.similar_congr_flatten`.
-/

namespace MacroAsm

namespace Expr

/-- Erasing the expressions of a list is erasing each of them. -/
theorem eraseAll_eq_map (es : List Expr) : eraseAll es = es.map erase := by
  induction es with
  | nil => rfl
  | cons e rest ih => rw [eraseAll, ih, List.map_cons]

/-- Only a name looks like a name. -/
theorem exists_identifier_of_erase {e : Expr} {loc : Location} {name : Text}
    (h : (Expr.identifier loc name).erase = e.erase) : ∃ loc', e = .identifier loc' name := by
  cases e with
  | identifier loc' name' =>
    simp only [erase, identifier.injEq, true_and] at h
    exact ⟨loc', by rw [h]⟩
  | _ => cases h

end Expr

namespace Eval

/-- Two results are both failures, or both expressions that are the same. -/
inductive SameResult : Except Failure Expr → Except Failure Expr → Prop where
  /-- Both fail. -/
  | fail (f g : Failure) : SameResult (.error f) (.error g)
  /-- Both give expressions, and these are the same. -/
  | value {a b : Expr} (h : a.similar b = true) : SameResult (.ok a) (.ok b)

/-- Both computations fail, or they give expressions that are the same. -/
def Relocates (p q : Except Cause Expr) : Prop := p.toOption.map Expr.erase = q.toOption.map Expr.erase

/-- Computations that go on alike with the result of one computation. -/
theorem Relocates.bind {α : Type} {c : Except Cause α} {k l : α → Except Cause Expr}
    (h : ∀ a, Relocates (k a) (l a)) : Relocates (c >>= k) (c >>= l) := by
  cases c with
  | ok a => exact h a
  | error f => rfl

/-- From states that differ in the places of symbols alone, two actions both fail or give results with the same
view, and the states that they leave differ in the places of symbols alone. -/
def Alike {α β : Type} (er : α → β) (x y : Act α) : Prop :=
  ∀ s t : State, s.unlocated = t.unlocated →
    (x.exec s).1.toOption.map er = (y.exec t).1.toOption.map er ∧ (x.exec s).2.unlocated = (y.exec t).2.unlocated

namespace Alike

variable {α β γ δ : Type} {er : α → β} {er' : γ → δ} {x y : Act α}

theorem pure {a b : α} (h : er a = er b) : Alike er (Pure.pure a) (Pure.pure b) :=
  fun _ _ hst => ⟨congrArg some h, hst⟩

theorem raise (c d : Cause) : Alike er (Act.raise c) (Act.raise d) := fun _ _ hst => ⟨rfl, hst⟩

theorem report (d d' : Diagnostic) : Alike er (Act.report d) (Act.report d') := fun _ _ hst => ⟨rfl, hst⟩

/-- The results of computations that differ in places alone. -/
theorem lift {p q : Except Cause Expr} (h : Relocates p q) : Alike Expr.erase (Act.lift p) (Act.lift q) := by
  intro s t hst
  rw [Act.exec_lift, Act.exec_lift]
  refine ⟨?_, hst⟩
  cases p <;> cases q <;> exact h

/-- Actions that go on alike with results that have the same view. -/
theorem bind {k l : α → Act γ} (h : Alike er x y) (hk : ∀ a b, er a = er b → Alike er' (k a) (l b)) :
    Alike er' (x >>= k) (y >>= l) := by
  intro s t hst
  obtain ⟨hview, hstate⟩ := h s t hst
  rcases hx : x.exec s with ⟨p, s'⟩
  rcases hy : y.exec t with ⟨q, t'⟩
  rw [hx, hy] at hview hstate
  cases p with
  | ok a =>
    cases q with
    | ok b =>
      rw [Act.exec_bind_of_ok hx, Act.exec_bind_of_ok hy]
      exact hk a b (Option.some.inj hview) s' t' hstate
    | error g => cases hview
  | error f =>
    cases q with
    | ok b => cases hview
    | error g =>
      rw [Act.exec_bind_of_error hx, Act.exec_bind_of_error hy]
      exact ⟨rfl, hstate⟩

/-- Actions that go on alike with the result of one computation. -/
theorem liftBind {c : Except Cause α} {k l : α → Act γ} (hk : ∀ a, Alike er' (k a) (l a)) :
    Alike er' (Act.lift c >>= k) (Act.lift c >>= l) := by
  intro s t hst
  cases c with
  | ok a => exact hk a s t hst
  | error f => exact ⟨rfl, hst⟩

/-- From one state, actions that are alike have the same result. -/
theorem sameResult {x y : Act Expr} (h : Alike Expr.erase x y) (s : State) :
    SameResult (x.exec s).1 (y.exec s).1 := by
  have hview := (h s s rfl).1
  cases hx : (x.exec s).1 with
  | ok a =>
    cases hy : (y.exec s).1 with
    | ok b =>
      rw [hx, hy] at hview
      exact .value ((Expr.similar_iff_erase_eq a b).2 (Option.some.inj hview))
    | error g =>
      rw [hx, hy] at hview
      cases hview
  | error f =>
    cases hy : (y.exec s).1 with
    | ok b =>
      rw [hx, hy] at hview
      cases hview
    | error g => exact .fail f g

end Alike

section Operators

variable {l l' r r' : Expr}

/-- A unary operator makes the same of operands that are the same. -/
theorem applyUnary_relocates (op : UnaryOp) (loc loc' : Location) (h : l.erase = l'.erase) :
    Relocates (applyUnary op loc l) (applyUnary op loc' l') := by
  rw [← applyUnary_erase op loc, h, applyUnary_erase]
  cases op <;> exact .bind fun _ => rfl

/-- A binary operator makes the same of operands that are the same. -/
theorem applyBinary_relocates (op : BinaryOp) (loc loc' : Location) (hl : l.erase = l'.erase)
    (hr : r.erase = r'.erase) : Relocates (applyBinary op loc l r) (applyBinary op loc' l' r') := by
  rw [← applyBinary_erase op loc, hl, hr, applyBinary_erase]
  cases op with
  | equal | notEqual => rfl
  | concat => exact .bind fun _ => .bind fun _ => rfl
  | _ => exact .bind fun _ => .bind fun _ => .bind fun _ => rfl

/-- The function of one number makes the same of it wherever it is called. -/
theorem applyToNumber_relocates (g : Int64 → Int64) (loc loc' : Location) (args : List Expr) :
    Relocates (Builtin.applyToNumber g loc args) (Builtin.applyToNumber g loc' args) := by
  rcases args with _ | ⟨e, _ | ⟨e', rest⟩⟩
  · rfl
  · exact .bind fun _ => rfl
  · rfl

/-- The best of some numbers is the same wherever it is asked for. -/
theorem best_relocates (better : Int64 → Int64 → Bool) (loc loc' : Location) (name : Text) (args : List Expr) :
    Relocates (Builtin.best better loc name args) (Builtin.best better loc' name args) := by
  refine .bind fun _ => .bind fun ns => ?_
  cases ns <;> rfl

/-- A function makes the same of arguments that are the same. -/
theorem apply_relocates (f : Builtin) (macroArgs : List Expr) (loc loc' : Location) {as bs : List Expr}
    (h : Expr.eraseAll as = Expr.eraseAll bs) :
    Relocates (f.apply macroArgs loc as) (f.apply macroArgs loc' bs) := by
  rw [← Builtin.apply_eraseAll f macroArgs loc, h, Builtin.apply_eraseAll]
  cases f with
  | abs | high | low | sgn => exact applyToNumber_relocates _ loc loc' bs
  | max | min => exact best_relocates _ loc loc' _ bs
  | assembler => rfl
  | cnt => exact .bind fun _ => rfl
  | cat => exact .bind fun _ => .bind fun _ => rfl
  | arg => rfl
  | len =>
    rcases bs with _ | ⟨a, _ | ⟨b, rest⟩⟩
    · rfl
    · exact .bind fun _ => rfl
    · rfl
  | caddr | scp =>
    rcases bs with _ | ⟨a, _ | ⟨b, _ | ⟨c, rest⟩⟩⟩
    · rfl
    · rfl
    · exact .bind fun _ => .bind fun _ => rfl
    · rfl
  | pos =>
    rcases bs with _ | ⟨a, _ | ⟨b, _ | ⟨c, _ | ⟨d, rest⟩⟩⟩⟩
    · rfl
    · rfl
    · exact .bind fun _ => .bind fun _ => rfl
    · exact .bind fun _ => .bind fun _ => .bind fun _ => rfl
    · rfl
  | sub =>
    rcases bs with _ | ⟨a, _ | ⟨b, _ | ⟨c, _ | ⟨d, rest⟩⟩⟩⟩
    · rfl
    · rfl
    · rfl
    · exact .bind fun _ => .bind fun _ => .bind fun _ => rfl
    · rfl

end Operators

section Flatten

variable {u : Surroundings} {ρ σ : Location → Text → Act Expr}

/-- Reading a numeral gives the same number wherever it stands. -/
theorem readNumeral_alike (loc loc' : Location) (digits : Text) :
    Alike Expr.erase (readNumeral loc digits) (readNumeral loc' digits) := by
  intro s t hst
  have hradix : s.scope.radix = t.scope.radix := by
    rw [← Scope.radix_unlocated, ← Scope.radix_unlocated t.scope]
    exact congrArg (Scope.radix ∘ State.scope) hst
  rw [readNumeral, readNumeral, Act.exec_bind_of_ok (Act.exec_scope s), Act.exec_bind_of_ok (Act.exec_scope t)]
  dsimp only
  rw [hradix]
  cases digits.toInt64? t.scope.radix with
  | some n => exact ⟨rfl, hst⟩
  | none => exact ⟨rfl, hst⟩

/-- A built name is resolved where that is asked for. -/
theorem spell_alike (h : ∀ loc loc' name, Alike Expr.erase (ρ loc name) (σ loc' name)) (propagate : Bool)
    (loc loc' : Location) (name : Text) :
    Alike Expr.erase (if propagate then ρ loc name else return .identifier loc name : Act Expr)
      (if propagate then σ loc' name else return .identifier loc' name) := by
  cases propagate with
  | true => exact h loc loc' name
  | false => exact .pure rfl

/-- What goes on with a name, and fails with anything else. -/
theorem name_alike {k l : Location → Text → Act Expr} {c d : Expr → Cause}
    (h : ∀ loc loc' name, Alike Expr.erase (k loc name) (l loc' name)) (v w : Expr) :
    v.erase = w.erase →
      Alike Expr.erase (match v with | .identifier loc name => k loc name | e => Act.raise (c e))
        (match w with | .identifier loc name => l loc name | e => Act.raise (d e)) := by
  intro hvw
  cases v with
  | identifier loc name =>
    obtain ⟨loc', rfl⟩ := Expr.exists_identifier_of_erase hvw
    exact h loc loc' name
  | _ =>
    cases w with
    | identifier loc name => cases hvw
    | _ => exact .raise _ _

/-- A number is appended to a name once it is known. -/
theorem join_alike (h : ∀ loc loc' name, Alike Expr.erase (ρ loc name) (σ loc' name)) (propagate : Bool)
    (op : BinaryOp) (loc loc' lloc lloc' : Location) (name : Text) {r r' : Expr} (hr : r.erase = r'.erase) :
    Alike Expr.erase
      (if r.isConcrete then do
        let name := name ++ suffix op (← Act.lift r.asNumber)
        if propagate then ρ loc name else return .identifier loc name
      else return .binary loc op (.identifier lloc name) r)
      (if r'.isConcrete then do
        let name := name ++ suffix op (← Act.lift r'.asNumber)
        if propagate then σ loc' name else return .identifier loc' name
      else return .binary loc' op (.identifier lloc' name) r') := by
  rw [Expr.isConcrete_congr hr, Expr.asNumber_congr hr]
  split
  · exact .liftBind fun n => spell_alike h propagate loc loc' _
  · exact .pure (by simp only [Expr.erase, hr])

/-- A condition that is known decides between actions that are alike. -/
theorem decide_alike {t t' : Expr} (ht : t.erase = t'.erase) {x x' y y' z z' : Act Expr}
    (hx : Alike Expr.erase x x') (hy : Alike Expr.erase y y') (hz : Alike Expr.erase z z') :
    Alike Expr.erase (if t.isConcrete then do if ← Act.lift t.asTruth then x else y else z)
      (if t'.isConcrete then do if ← Act.lift t'.asTruth then x' else y' else z') := by
  rw [Expr.isConcrete_congr ht, Expr.asTruth_congr ht]
  split
  · refine .liftBind fun holds => ?_
    cases holds with
    | true => exact hx
    | false => exact hy
  · exact hz

mutual

/-- Evaluation of expressions that are the same is alike, if resolving names is. -/
theorem flattenWith_alike (h : ∀ loc loc' name, Alike Expr.erase (ρ loc name) (σ loc' name)) :
    ∀ (a b : Expr) (propagate : Bool), a.erase = b.erase →
      Alike Expr.erase (flattenWith u ρ a propagate) (flattenWith u σ b propagate) := by
  intro a b propagate hab
  cases a with
  | numeral loc digits =>
    cases b with
    | numeral loc' digits' =>
      obtain rfl : digits = digits' := by simpa [Expr.erase] using hab
      rw [flattenWith, flattenWith]
      exact readNumeral_alike loc loc' digits
    | _ => cases hab
  | identifier loc name =>
    obtain ⟨loc', rfl⟩ := Expr.exists_identifier_of_erase hab
    rw [flattenWith, flattenWith]
    exact spell_alike h propagate loc loc' name
  | unary loc op value =>
    cases b with
    | unary loc' op' value' =>
      simp only [Expr.erase, Expr.unary.injEq, true_and] at hab
      obtain ⟨rfl, hvalue⟩ := hab
      by_cases hop : op = .macroLocal
      · subst hop
        rw [flattenWith, flattenWith]
        refine (flattenWith_alike h value value' false hvalue).bind fun v w hvw => ?_
        exact name_alike (fun _ _ name => spell_alike h propagate loc loc' (u.unit ++ "." ++ name)) v w hvw
      · rw [flattenWith, flattenWith]
        · refine (flattenWith_alike h value value' propagate hvalue).bind fun v w hvw => ?_
          rw [Expr.isConcrete_congr hvw]
          split
          · exact .lift (applyUnary_relocates op loc loc' hvw)
          · exact .pure (by simp only [Expr.erase, hvw])
        all_goals exact hop
    | _ => cases hab
  | binary loc op left right =>
    cases b with
    | binary loc' op' left' right' =>
      simp only [Expr.erase, Expr.binary.injEq, true_and] at hab
      obtain ⟨rfl, hleft, hright⟩ := hab
      have hl := fun p => flattenWith_alike h left left' p hleft
      have hr := fun p => flattenWith_alike h right right' p hright
      cases op with
      | joinNames =>
        rw [flattenWith, flattenWith]
        refine (hl false).bind fun v w hvw => name_alike (fun _ _ l => ?_) v w hvw
        refine (hr false).bind fun v w hvw => ?_
        exact name_alike (fun _ _ r => spell_alike h propagate loc loc' (l ++ r)) v w hvw
      | joinDecimal =>
        rw [flattenWith, flattenWith]
        refine (hl false).bind fun v w hvw => name_alike (fun lloc lloc' name => ?_) v w hvw
        exact (hr true).bind fun r r' hrr => join_alike h propagate .joinDecimal loc loc' lloc lloc' name hrr
      | joinHex =>
        rw [flattenWith, flattenWith]
        refine (hl false).bind fun v w hvw => name_alike (fun lloc lloc' name => ?_) v w hvw
        exact (hr true).bind fun r r' hrr => join_alike h propagate .joinHex loc loc' lloc lloc' name hrr
      | or =>
        rw [flattenWith, flattenWith]
        refine (hl propagate).bind fun v w hvw => decide_alike hvw (.pure hvw) (hr propagate) ?_
        exact (hr propagate).bind fun r r' hrr => .pure (by simp only [Expr.erase, hvw, hrr])
      | and =>
        rw [flattenWith, flattenWith]
        refine (hl propagate).bind fun v w hvw => decide_alike hvw (hr propagate) (.pure hvw) ?_
        exact (hr propagate).bind fun r r' hrr => .pure (by simp only [Expr.erase, hvw, hrr])
      | _ =>
        rw [flattenWith, flattenWith]
        · refine (hl propagate).bind fun v w hvw => (hr propagate).bind fun r r' hrr => ?_
          rw [Expr.isConcrete_congr hvw, Expr.isConcrete_congr hrr]
          split
          · exact .lift (applyBinary_relocates _ loc loc' hvw hrr)
          · exact .pure (by simp only [Expr.erase, hvw, hrr])
        all_goals simp
    | _ => cases hab
  | ternary loc test onTrue onFalse =>
    cases b with
    | ternary loc' test' onTrue' onFalse' =>
      simp only [Expr.erase, Expr.ternary.injEq, true_and] at hab
      obtain ⟨htest, htrue, hfalse⟩ := hab
      have ht := flattenWith_alike h onTrue onTrue' propagate htrue
      have hf := flattenWith_alike h onFalse onFalse' propagate hfalse
      rw [flattenWith, flattenWith]
      refine (flattenWith_alike h test test' propagate htest).bind fun v w hvw => decide_alike hvw ht hf ?_
      exact ht.bind fun x x' hx => hf.bind fun y y' hy => .pure (by simp only [Expr.erase, hvw, hx, hy])
    | _ => cases hab
  | call loc name params =>
    cases b with
    | call loc' name' params' =>
      simp only [Expr.erase, Expr.call.injEq, true_and] at hab
      obtain ⟨rfl, hparams⟩ := hab
      rw [flattenWith, flattenWith]
      cases Builtin.ofName? name with
      | none => exact .raise _ _
      | some f =>
        refine (flattenAll_alike h params params' propagate hparams).bind fun vs ws hvs => ?_
        rw [← Expr.all_isConcrete_eraseAll vs, hvs, Expr.all_isConcrete_eraseAll]
        split
        · exact .lift (apply_relocates f u.args loc loc' hvs)
        · exact .pure (by simp only [Expr.erase, hvs])
    | _ => cases hab
  | absolute loc address =>
    cases b with
    | absolute loc' address' =>
      simp only [Expr.erase, Expr.absolute.injEq, true_and] at hab
      rw [flattenWith, flattenWith]
      refine (flattenWith_alike h address address' propagate hab).bind fun v w hvw => ?_
      exact .pure (by simp only [Expr.erase, hvw])
    | _ => cases hab
  | displaced loc base displace =>
    cases b with
    | displaced loc' base' displace' =>
      simp only [Expr.erase, Expr.displaced.injEq, true_and] at hab
      obtain ⟨hbase, hdisplace⟩ := hab
      rw [flattenWith, flattenWith]
      refine (flattenWith_alike h displace displace' propagate hdisplace).bind fun v w hvw => ?_
      exact .pure (by simp only [Expr.erase, hbase, hvw])
    | _ => cases hab
  | offset loc base value =>
    cases b with
    | offset loc' base' value' =>
      simp only [Expr.erase, Expr.offset.injEq, true_and] at hab
      obtain ⟨hbase, hvalue⟩ := hab
      rw [flattenWith, flattenWith]
      refine (flattenWith_alike h value value' propagate hvalue).bind fun v w hvw => ?_
      exact .pure (by simp only [Expr.erase, hbase, hvw])
    | _ => cases hab
  | _ =>
    -- what is evaluated to itself stays what it is
    cases b with
    | number | string | fragment | here | register | condition | indirect | indexed =>
      rw [flattenWith, flattenWith]
      exact .pure hab
    | _ => cases hab

/-- Evaluation of lists of expressions that are the same is alike, if resolving names is. -/
theorem flattenAll_alike (h : ∀ loc loc' name, Alike Expr.erase (ρ loc name) (σ loc' name)) :
    ∀ (as bs : List Expr) (propagate : Bool), Expr.eraseAll as = Expr.eraseAll bs →
      Alike Expr.eraseAll (flattenAll u ρ as propagate) (flattenAll u σ bs propagate) := by
  intro as bs propagate hab
  cases as with
  | nil =>
    cases bs with
    | nil =>
      rw [flattenAll, flattenAll]
      exact .pure rfl
    | cons => cases hab
  | cons a as =>
    cases bs with
    | nil => cases hab
    | cons b bs =>
      obtain ⟨hfirst, hrest⟩ := List.cons.inj hab
      rw [flattenAll, flattenAll]
      refine (flattenWith_alike h a b propagate hfirst).bind fun v w hvw => ?_
      refine (flattenAll_alike h as bs propagate hrest).bind fun vs ws hvs => .pure ?_
      rw [Expr.eraseAll, Expr.eraseAll, hvw, hvs]

end

end Flatten

section Resolve

variable {u : Surroundings}

/-- Asking for a name finds symbols that differ in their places alone, and marks the name or declares it ahead. -/
theorem request_alike (loc loc' : Location) (name : Text) :
    Alike Symbol.unlocated (request loc name) (request loc' name) := by
  intro s t hst
  have hscope : s.scope.unlocated = t.scope.unlocated := congrArg State.scope hst
  have hfind : (s.scope.find? name).map Symbol.unlocated = (t.scope.find? name).map Symbol.unlocated := by
    rw [← Scope.find?_unlocated, ← Scope.find?_unlocated, hscope]
  rw [request, request, Act.exec_bind_of_ok (Act.exec_scope s), Act.exec_bind_of_ok (Act.exec_scope t)]
  cases hs : s.scope.find? name with
  | some sym =>
    obtain ⟨sym', ht, hsym⟩ : ∃ sym', t.scope.find? name = some sym' ∧ sym'.unlocated = sym.unlocated := by
      rw [hs] at hfind
      exact Option.map_eq_some_iff.1 hfind.symm
    rw [ht]
    refine ⟨congrArg some hsym.symm, State.unlocated_congr hst (Scope.modify_congr hscope fun a b hab => ?_)⟩
    exact congrArg (fun sym => { sym with used := true }) hab
  | none =>
    have ht : t.scope.find? name = none := by simpa [hs] using hfind.symm
    rw [ht]
    simp only [Scope.declareLocal_of_find?_eq_none hs, Scope.declareLocal_of_find?_eq_none ht]
    refine ⟨rfl, State.unlocated_congr hst (Scope.modify_congr ?_ fun a b hab => ?_)⟩
    · rw [Scope.unlocated_modifyTop_insert, Scope.unlocated_modifyTop_insert, hscope]
    · exact congrArg (fun sym => { sym with frozen := true, used := true }) hab

/-- Resolving a name once is alike, if evaluating its value is. -/
theorem resolveOnce_alike {evaluate evaluate' : Expr → Act Expr}
    (h : ∀ value, Alike Expr.erase (evaluate value) (evaluate' value)) (guard : List Text) (loc loc' : Location)
    (name : Text) :
    Alike Expr.erase (resolveOnce evaluate guard loc name) (resolveOnce evaluate' guard loc' name) := by
  rw [resolveOnce, resolveOnce]
  split
  · refine (request_alike loc loc' name).bind fun sym sym' hsym => ?_
    have htemplate : sym.isMacro = sym'.isMacro := by
      change sym.unlocated.isMacro = sym'.unlocated.isMacro
      rw [hsym]
    have hvalue : sym.value = sym'.value := by
      change sym.unlocated.value = sym'.unlocated.value
      rw [hsym]
    rw [htemplate, hvalue]
    split
    · exact .raise _ _
    · cases sym'.value with
      | none => exact .pure rfl
      | some value => exact (h value).bind fun v w hvw => .pure (by simpa using hvw)
  · exact .report _ _

/-- Resolving a name is alike wherever it stands. -/
theorem resolve_alike (fuel : Nat) (guard : List Text) (loc loc' : Location) (name : Text) :
    Alike Expr.erase (resolve u fuel guard loc name) (resolve u fuel guard loc' name) := by
  induction fuel generalizing guard loc loc' name with
  | zero =>
    rw [resolve, resolve]
    refine resolveOnce_alike (fun _ => ?_) guard loc loc' name
    exact .pure rfl
  | succ fuel ih =>
    rw [resolve, resolve]
    refine resolveOnce_alike (fun value => ?_) guard loc loc' name
    exact flattenWith_alike (fun loc loc' name => ih _ loc loc' name) value value true rfl

/-- Evaluation of expressions that are the same is alike, whatever names are being defined. -/
theorem flattenGuarded_alike {a b : Expr} (h : a.erase = b.erase) (guard : List Text) :
    Alike Expr.erase (flattenGuarded u a guard) (flattenGuarded u b guard) := by
  intro s t hst
  have hfuel : resolveFuel s.scope = resolveFuel t.scope := by
    rw [← Scope.resolveFuel_unlocated, ← Scope.resolveFuel_unlocated t.scope]
    exact congrArg (resolveFuel ∘ State.scope) hst
  rw [flattenGuarded, flattenGuarded, Act.exec_bind_of_ok (Act.exec_scope s), Act.exec_bind_of_ok (Act.exec_scope t),
    hfuel]
  exact flattenWith_alike (fun loc loc' name => resolve_alike _ guard loc loc' name) a b true h s t hst

end Resolve

/-- Two expressions are the same exactly when they are equal but for the places where they were read, the names that
values were resolved through and the labels of fragments, and so it is for lists of expressions; hence being the same
is an equivalence. Evaluating expressions that are the same, from any state, either fails for both or gives
expressions that are the same. Either way it leaves states that differ at most in the places of symbols: the same
names are declared in every frame, in the same order, and the same of them are used. -/
theorem similar_congr_flatten :
    (∀ a b : Expr, a.similar b = true ↔ a.erase = b.erase) ∧
    (∀ as bs : List Expr, Expr.allSimilar as bs = true ↔ as.map Expr.erase = bs.map Expr.erase) ∧
    (Equivalence fun a b : Expr => a.similar b = true) ∧
    ∀ a b : Expr, a.similar b = true → ∀ (u : Surroundings) (s : State),
      let after := ((flatten u a).exec s).2
      let after' := ((flatten u b).exec s).2
      SameResult ((flatten u a).exec s).1 ((flatten u b).exec s).1 ∧
      after.unlocated = after'.unlocated ∧
      (after.scope.inner.map Frame.names = after'.scope.inner.map Frame.names ∧
        after.scope.root.names = after'.scope.root.names) ∧
      (after.scope.inner.map Frame.usedFlags = after'.scope.inner.map Frame.usedFlags ∧
        after.scope.root.usedFlags = after'.scope.root.usedFlags) := by
  refine ⟨Expr.similar_iff_erase_eq, fun as bs => ?_, ?_, fun a b hab u s => ?_⟩
  · rw [Expr.allSimilar_iff_eraseAll_eq, Expr.eraseAll_eq_map, Expr.eraseAll_eq_map]
  · simp only [Expr.similar_iff_erase_eq]
    exact ⟨fun _ => rfl, Eq.symm, Eq.trans⟩
  · have halike : Alike Expr.erase (flatten u a) (flatten u b) :=
      flattenGuarded_alike ((Expr.similar_iff_erase_eq a b).1 hab) []
    have hstate := (halike s s rfl).2
    have hscope := congrArg State.scope hstate
    exact ⟨halike.sameResult s, hstate, Scope.names_eq_of_unlocated_eq hscope, Scope.used_eq_of_unlocated_eq hscope⟩

/-- The sum of a name and a number, read from a file and resolved through another name. -/
def readSum : Expr :=
  .binary (.ofPath "a.asm") .add (.identifier (.ofPath "a.asm") "X") (.number (.ofPath "a.asm") 1 "ONE")

/-- The same sum, made up. -/
def madeSum : Expr := .binary .none .add (.identifier .none "X") (.number .none 1 "")

/-- Over a frame without names both sums wait for the name, and both declare it ahead and mark it as used. -/
theorem similar_congr_flatten_sum :
    readSum.similar madeSum = true ∧
    SameResult ((flatten default readSum).exec (.start Scope.initial.nest)).1
      ((flatten default madeSum).exec (.start Scope.initial.nest)).1 ∧
    ((flatten default readSum).exec (.start Scope.initial.nest)).2.scope.inner.map Frame.usedFlags =
      ((flatten default madeSum).exec (.start Scope.initial.nest)).2.scope.inner.map Frame.usedFlags ∧
    ((flatten default madeSum).exec (.start Scope.initial.nest)).2.scope.inner.map Frame.usedFlags =
      [[(("X" : Text), true)]] := by
  have hsame : readSum.similar madeSum = true := by decide
  have hcongr := similar_congr_flatten.2.2.2 readSum madeSum hsame default (.start Scope.initial.nest)
  exact ⟨hsame, hcongr.1, hcongr.2.2.2.1, by decide⟩

end Eval

end MacroAsm
