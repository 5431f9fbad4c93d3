import Mathlib.Data.List.TakeWhile
import MacroAsm.Proofs.Eval.Action
import MacroAsm.Proofs.Eval.Mild
import MacroAsm.Proofs.Eval.Outcome
import MacroAsm.Proofs.Scope.Lookup

/-!
# What evaluation computes

Evaluation changes the scope as it goes: it declares names ahead and marks them as used. None of that
changes what a name stands for, so every step sees the bindings the run began with, and the whole gives
what `Eval.outcome` says (`Eval.flattenWith_computes`). This holds of any property of states that asking for
the names in an expression keeps (`Eval.flattenWith_delivers`).
-/

namespace MacroAsm

/-- A change that keeps what a symbol stands for keeps what every name does. -/
theorem Scope.binding_modify {g : Symbol → Symbol} (hg : ∀ sym, (g sym).binding = sym.binding)
    (s : Scope) (name : Text) : (s.modify name g).binding = s.binding := by
  funext other
  rw [Scope.binding, Scope.binding, Scope.find?_modify]
  split
  · cases s.find? other with
    | none => rfl
    | some sym => exact hg sym
  · rfl

/-- A name that is not found stands for nothing, and still does once it has an unset symbol. -/
theorem Scope.binding_of_find?_eq_none {s s' : Scope} {name : Text} {sym : Symbol} (h : s.find? name = none)
    (hfind : ∀ other, s'.find? other = if other = name then some sym else s.find? other)
    (hsym : sym.binding = .unset) : s'.binding = s.binding := by
  funext other
  rw [Scope.binding, Scope.binding, hfind]
  split
  · rename_i heq
    rw [heq, h]
    exact hsym
  · rfl

theorem Scope.binding_declare {s : Scope} {name : Text} (h : s.find? name = none) :
    (s.modifyTop fun f => f.insert name {}).binding = s.binding :=
  Scope.binding_of_find?_eq_none h (fun other => Scope.find?_modifyTop_insert s name other {}) rfl

namespace Eval

variable {α β : Type} {bindings : Text → Binding} {u : Surroundings}

/-- Over any state of a kind, an action gives a result, or fails in an expected way if there is none, and the
state stays of that kind. -/
def Delivers (I : State → Prop) (E : Failure → Prop) (act : Act α) (r : Option α) : Prop :=
  ∀ s : State, I s → (act.exec s).1.toOption = r ∧ (∀ f, (act.exec s).1 = .error f → E f) ∧
    I (act.exec s).2

namespace Delivers

variable {I : State → Prop} {E : Failure → Prop}

theorem pure (a : α) : Delivers I E (Pure.pure a) (some a) := fun _ h => ⟨rfl, nofun, h⟩

/-- A failure that is expected. -/
theorem throw {f : Failure} (hf : E f) : Delivers I E (MonadExcept.throw f : Act α) none := by
  refine fun s h => ⟨rfl, fun f' hf' => ?_, h⟩
  cases hf'
  exact hf

/-- The result of a computation. -/
theorem lift (hE : ∀ c, c.level = .fail → E (.raise c)) {x : Except Cause α} (hx : Mild x) :
    Delivers I E (Act.lift x) x.toOption := by
  cases x with
  | ok a => exact pure a
  | error c => exact throw (hE c (hx c rfl))

/-- An action that goes on with the result of another. -/
theorem bind {act : Act α} {r : Option α} {k : α → Act β} {g : α → Option β}
    (hact : Delivers I E act r) (hk : ∀ a, r = some a → Delivers I E (k a) (g a)) :
    Delivers I E (act >>= k) (r.bind g) := by
  intro s hs
  obtain ⟨hresult, hfails, hscope⟩ := hact s hs
  cases hexec : act.exec s with
  | mk x s' =>
    rw [hexec] at hresult hfails hscope
    cases x with
    | ok a =>
      rw [Act.exec_bind_of_ok hexec, ← hresult]
      exact hk a hresult.symm s' hscope
    | error f =>
      rw [Act.exec_bind_of_error hexec, ← hresult]
      refine ⟨rfl, fun f' hf' => ?_, hscope⟩
      cases hf'
      exact hfails f rfl

/-- An action that changes the result of another. -/
theorem map {act : Act α} {r : Option α} (hact : Delivers I E act r) (g : α → β) :
    Delivers I E (act >>= fun a => Pure.pure (g a)) (r.map g) := by
  rw [Option.map_eq_bind]
  exact hact.bind fun a _ => pure (g a)

end Delivers

section Flatten

variable {I : State → Prop} {E : Failure → Prop} {radix : Nat} {resolve : Location → Text → Act Expr}
  {follow : Following} {known : Text → Prop}

/-- A numeral is read in the radix of the scope. -/
theorem readNumeral_delivers (hradix : ∀ s, I s → s.scope.radix = radix)
    (hE : ∀ c, c.level = .fail → E (.raise c)) (loc : Location) (digits : Text) :
    Delivers I E (readNumeral loc digits) ((digits.toInt64? radix).map (.literal loc)) := by
  intro s hs
  rw [readNumeral, Act.exec_bind_of_ok (Act.exec_scope s), hradix s hs]
  dsimp only
  split <;> rename_i hdigits <;> rw [hdigits]
  · exact Delivers.pure _ s hs
  · exact Delivers.throw (hE _ rfl) s hs

/-- A built name is resolved where that is asked for. -/
theorem spell_delivers (hres : ∀ loc name, known name → Delivers I E (resolve loc name) (follow loc name))
    (propagate : Bool) (loc : Location) {name : Text} (hname : propagate = true → known name) :
    Delivers I E (if propagate then resolve loc name else return .identifier loc name : Act Expr)
      (spell follow propagate loc name) := by
  cases propagate with
  | true => exact hres loc name (hname rfl)
  | false => exact Delivers.pure _

/-- The name that an evaluated expression has to be. -/
theorem name_delivers {k : Text → Act Expr} {g : Text → Option Expr} {other : Expr → Act Expr} {e : Expr}
    (hk : ∀ name, e.name? = some name → Delivers I E (k name) (g name))
    (hother : ∀ e, Delivers I E (other e) none) :
    Delivers I E (match e with | .identifier _ name => k name | e => other e) (e.name?.bind g) := by
  cases e with
  | identifier loc name => exact hk name rfl
  | _ => exact hother _

/-- A number is appended to a name once it is known. -/
theorem join_delivers (hE : ∀ c, c.level = .fail → E (.raise c))
    (hres : ∀ loc name, known name → Delivers I E (resolve loc name) (follow loc name))
    (propagate : Bool) (op : BinaryOp) (loc : Location) (l : Expr) (name : Text) {r : Expr}
    (hname : propagate = true → r.isConcrete = true → ∀ n, r.asNumber.toOption = some n →
      known (name ++ suffix op n)) :
    Delivers I E
      (if r.isConcrete then do
        let name := name ++ suffix op (← Act.lift r.asNumber)
        if propagate then resolve loc name else return .identifier loc name
      else return .binary loc op l r)
      (settleJoin follow propagate op loc l name r) := by
  rw [settleJoin]
  split
  · rename_i hconcrete
    refine (Delivers.lift hE r.mild_asNumber).bind fun n hn => ?_
    exact spell_delivers hres propagate loc fun hp => hname hp hconcrete n hn
  · exact Delivers.pure _

/-- What is known of the names that are asked for. -/
theorem known_of_toList {x : Option Text} {propagate : Bool} {name : Text} (hx : x = some name)
    (h : ∀ name ∈ (if propagate then x.toList else []), known name) : propagate = true → known name := by
  rintro rfl
  exact h name (by simp [hx])

mutual

/-- Evaluation gives what is left of an expression, if resolving the names that it asks for gives what
following them does. -/
theorem flattenWith_delivers (hradix : ∀ s, I s → s.scope.radix = radix)
    (hE : ∀ c, c.level = .fail → E (.raise c))
    (hres : ∀ loc name, known name → Delivers I E (resolve loc name) (follow loc name)) :
    ∀ (e : Expr) (propagate : Bool), (∀ name ∈ asked u radix follow e propagate, known name) →
      Delivers I E (flattenWith u resolve e propagate) (outcome u radix follow e propagate) := by
  intro e propagate hknown
  cases e with
  | numeral loc digits =>
    rw [flattenWith, outcome]
    exact readNumeral_delivers hradix hE loc digits
  | identifier loc name =>
    rw [asked] at hknown
    rw [flattenWith, outcome]
    exact spell_delivers hres propagate loc fun hp => hknown name (by simp [hp])
  | unary loc op value =>
    rw [asked] at hknown
    by_cases hop : op = .macroLocal
    · subst hop
      rw [if_pos rfl, List.forall_mem_append] at hknown
      rw [flattenWith, outcome, if_pos rfl]
      refine (flattenWith_delivers hradix hE hres value false hknown.1).bind fun v hv => ?_
      refine name_delivers (fun name hname => ?_) fun e => .throw (hE _ rfl)
      exact spell_delivers hres propagate loc (known_of_toList (by simp [spelled, hv, hname]) hknown.2)
    · rw [if_neg hop] at hknown
      rw [flattenWith, outcome, if_neg hop]
      refine (flattenWith_delivers hradix hE hres value propagate hknown).bind fun v _ => ?_
      rw [settleUnary]
      split
      · exact .lift hE (mild_applyUnary op loc v)
      · exact .pure _
      · exact hop
  | binary loc op left right =>
    have hleft := flattenWith_delivers hradix hE hres left
    have hright := flattenWith_delivers hradix hE hres right
    rw [asked] at hknown
    rw [outcome]
    -- the operators that treat their operands alike evaluate them alike
    cases op with
    | joinNames =>
      simp only [treatment, List.forall_mem_append] at hknown
      rw [flattenWith, treatment]
      refine (hleft false hknown.1.1).bind fun l hl => ?_
      refine name_delivers (fun name hname => ?_) fun e => .throw (hE _ rfl)
      refine (hright false hknown.1.2).bind fun r hr => ?_
      refine name_delivers (fun more hmore => ?_) fun e => .throw (hE _ rfl)
      exact spell_delivers hres propagate loc
        (known_of_toList (by simp [spelled, hl, hname, hr, hmore]) hknown.2)
    | joinDecimal =>
      simp only [treatment, List.forall_mem_append] at hknown
      rw [flattenWith, treatment]
      refine (hleft false hknown.1.1).bind fun l hl => ?_
      cases l with
      | identifier loc' name =>
        refine (hright true hknown.1.2).bind fun r hr => ?_
        refine join_delivers hE hres propagate .joinDecimal loc _ name fun hp hconcrete n hn => ?_
        exact known_of_toList (by simp [spelled, counted, hl, hr, hn, hconcrete, Expr.name?]) hknown.2 hp
      | _ => exact .throw (hE _ rfl)
    | joinHex =>
      simp only [treatment, List.forall_mem_append] at hknown
      rw [flattenWith, treatment]
      refine (hleft false hknown.1.1).bind fun l hl => ?_
      cases l with
      | identifier loc' name =>
        refine (hright true hknown.1.2).bind fun r hr => ?_
        refine join_delivers hE hres propagate .joinHex loc _ name fun hp hconcrete n hn => ?_
        exact known_of_toList (by simp [spelled, counted, hl, hr, hn, hconcrete, Expr.name?]) hknown.2 hp
      | _ => exact .throw (hE _ rfl)
    | or =>
      simp only [treatment, List.forall_mem_append] at hknown
      rw [flattenWith, treatment]
      refine (hleft propagate hknown.1).bind fun l _ => ?_
      rw [settleDecided]
      split
      · refine (Delivers.lift hE l.mild_asTruth).bind fun t _ => ?_
        cases t with
        | true => exact .pure _
        | false => exact hright propagate hknown.2
      · exact (hright propagate hknown.2).map _
    | and =>
      simp only [treatment, List.forall_mem_append] at hknown
      rw [flattenWith, treatment]
      refine (hleft propagate hknown.1).bind fun l _ => ?_
      rw [settleDecided]
      split
      · refine (Delivers.lift hE l.mild_asTruth).bind fun t _ => ?_
        cases t with
        | true => exact hright propagate hknown.2
        | false => exact .pure _
      · exact (hright propagate hknown.2).map _
    | _ =>
      simp only [treatment, List.forall_mem_append] at hknown
      rw [flattenWith, treatment]
      · refine (hleft propagate hknown.1).bind fun l _ => (hright propagate hknown.2).bind fun r _ => ?_
        rw [settleBinary]
        split
        · exact .lift hE (mild_applyBinary _ loc l r)
        · exact .pure _
      all_goals simp
  | ternary loc test onTrue onFalse =>
    simp only [asked, List.forall_mem_append] at hknown
    obtain ⟨htest, htrue, hfalse⟩ := hknown
    rw [flattenWith, outcome]
    refine (flattenWith_delivers hradix hE hres test propagate htest).bind fun t _ => ?_
    rw [settleChoice]
    split
    · refine (Delivers.lift hE t.mild_asTruth).bind fun holds _ => ?_
      split
      · exact flattenWith_delivers hradix hE hres onTrue propagate htrue
      · exact flattenWith_delivers hradix hE hres onFalse propagate hfalse
    · refine (flattenWith_delivers hradix hE hres onTrue propagate htrue).bind fun a _ => ?_
      exact (flattenWith_delivers hradix hE hres onFalse propagate hfalse).map _
  | call loc name params =>
    rw [asked] at hknown
    rw [flattenWith, outcome]
    cases Builtin.ofName? name with
    | none => exact .throw (hE _ rfl)
    | some f =>
      refine (flattenAll_delivers hradix hE hres params propagate hknown).bind fun args _ => ?_
      rw [settleCall]
      split
      · exact .lift hE (f.mild_apply u.args loc args)
      · exact .pure _
  | absolute loc address =>
    rw [asked] at hknown
    rw [flattenWith, outcome]
    exact (flattenWith_delivers hradix hE hres address propagate hknown).map _
  | displaced loc base displace =>
    rw [asked] at hknown
    rw [flattenWith, outcome]
    exact (flattenWith_delivers hradix hE hres displace propagate hknown).map _
  | offset loc base value =>
    rw [asked] at hknown
    rw [flattenWith, outcome]
    exact (flattenWith_delivers hradix hE hres value propagate hknown).map _
  | _ =>
    rw [flattenWith, outcome]
    exact .pure _

/-- Evaluation gives what is left of the expressions of a list. -/
theorem flattenAll_delivers (hradix : ∀ s, I s → s.scope.radix = radix)
    (hE : ∀ c, c.level = .fail → E (.raise c))
    (hres : ∀ loc name, known name → Delivers I E (resolve loc name) (follow loc name)) :
    ∀ (es : List Expr) (propagate : Bool), (∀ name ∈ askedAll u radix follow es propagate, known name) →
      Delivers I E (flattenAll u resolve es propagate) (outcomeAll u radix follow es propagate) := by
  intro es propagate hknown
  cases es with
  | nil =>
    rw [flattenAll, outcomeAll]
    exact .pure _
  | cons e rest =>
    rw [askedAll, List.forall_mem_append] at hknown
    rw [flattenAll, outcomeAll]
    refine (flattenWith_delivers hradix hE hres e propagate hknown.1).bind fun v _ => ?_
    exact (flattenAll_delivers hradix hE hres rest propagate hknown.2).map _

end

/-- An expression that is counted as waiting is given back, over the same scope. -/
theorem exec_settle (e : Expr) (s : State) :
    ∃ s', (settle true e).exec s = (.ok e, s') ∧ s'.scope = s.scope := by
  rw [settle]
  split
  · exact ⟨s, rfl, rfl⟩
  · exact ⟨_, rfl, rfl⟩

/-- States of a kind agree on the radix, and on what resolving a name that is known gives while the names of
`guard` are being followed. -/
structure Provides (u : Surroundings) (I : State → Prop) (E : Failure → Prop) (radix : Nat) (guard : List Text)
    (known : Text → Prop) (follow : Following) : Prop where
  /-- The radix is that of the scope. -/
  radix : ∀ s, I s → s.scope.radix = radix
  /-- The scope tells the kind of a state. -/
  scope : ∀ s s', s'.scope = s.scope → I s → I s'
  /-- What evaluation may raise is expected. -/
  raises : ∀ c, c.level = .fail → E (.raise c)
  /-- A known name leads to what following it gives. -/
  resolve : ∀ fuel loc name, known name →
    Delivers I E (Eval.resolve u (fuel + 1) guard loc name) (follow loc name)

namespace Provides

variable {guard : List Text}

/-- Counting an expression that waits does not change the scope. -/
theorem settle (h : Provides u I E radix guard known follow) (e : Expr) :
    Delivers I E (Eval.settle true e) (some e) := by
  intro s hs
  obtain ⟨s', hexec, hscope⟩ := exec_settle e s
  rw [hexec]
  exact ⟨rfl, nofun, h.scope s s' hscope hs⟩

/-- Evaluation with the fuel of a scope. -/
theorem flattenWith (h : Provides u I E radix guard known follow) (scope : Scope) {e : Expr} {propagate : Bool}
    (hknown : ∀ name ∈ asked u radix follow e propagate, known name) :
    Delivers I E (Eval.flattenWith u (Eval.resolve u (resolveFuel scope) guard) e propagate)
      (outcome u radix follow e propagate) :=
  flattenWith_delivers h.radix h.raises (h.resolve _) e propagate hknown

/-- The value of a definition. -/
theorem definition (h : Provides u I E radix guard known follow) {e : Expr}
    (hknown : ∀ name ∈ asked u radix follow e true, known name) :
    Delivers I E (flattenGuarded u e guard >>= Eval.settle true) (outcome u radix follow e true) := by
  have hflatten : Delivers I E (flattenGuarded u e guard) (outcome u radix follow e true) := by
    intro s hs
    rw [flattenGuarded, Act.exec_bind_of_ok (Act.exec_scope s)]
    exact h.flattenWith s.scope hknown s hs
  have hsettled := hflatten.bind fun v _ => h.settle v
  rwa [Option.bind_fun_some] at hsettled

/-- The name that an expression builds. -/
theorem nameOnly (h : Provides u I E radix [] known follow) {e : Expr}
    (hknown : ∀ name ∈ asked u radix follow e false, known name) :
    Delivers I E (Eval.nameOnly u e) (outcome u radix follow e false) := by
  intro s hs
  rw [Eval.nameOnly, Act.exec_bind_of_ok (Act.exec_scope s)]
  exact h.flattenWith s.scope hknown s hs

/-- The name that an expression spells. -/
theorem nameOf (h : Provides u I E radix [] known follow) {e : Expr}
    (hknown : ∀ name ∈ asked u radix follow e false, known name) :
    Delivers I E (Eval.nameOf u e) (spelled u radix follow e) := by
  refine (h.nameOnly hknown).bind fun v _ => ?_
  cases v with
  | identifier loc name => exact .pure name
  | _ => exact .throw (h.raises _ rfl)

/-- The value of an expression. -/
theorem evaluate (h : Provides u I E radix [] known follow) {e : Expr}
    (hknown : ∀ name ∈ asked u radix follow e true, known name) :
    Delivers I E (Eval.evaluate u true e) (outcome u radix follow e true) :=
  h.definition hknown

/-- The values of the expressions of a list. -/
theorem evaluateAll (h : Provides u I E radix [] known follow) {es : List Expr}
    (hknown : ∀ name ∈ askedAll u radix follow es true, known name) :
    Delivers I E (Eval.evaluateAll u true es) (outcomeAll u radix follow es true) := by
  induction es with
  | nil =>
    rw [Eval.evaluateAll, outcomeAll]
    exact .pure _
  | cons e rest ih =>
    rw [askedAll, List.forall_mem_append] at hknown
    rw [Eval.evaluateAll, outcomeAll]
    exact (h.evaluate hknown.1).bind fun v _ => (ih hknown.2).map _

end Provides

end Flatten

/-- An action gives a result, or fails if there is none, over any scope with the bindings, and keeps
them. -/
def Computes (bindings : Text → Binding) (act : Act α) (r : Option α) : Prop :=
  ∀ s : State, s.scope.binding = bindings →
    (act.exec s).1.toOption = r ∧ (act.exec s).2.scope.binding = bindings

/-- An action that keeps the bindings may fail in any way. -/
theorem computes_iff_delivers {act : Act α} {r : Option α} :
    Computes bindings act r ↔
      Delivers (fun s => s.scope.binding = bindings) (fun _ => True) act r :=
  ⟨fun h s hs => ⟨(h s hs).1, fun _ _ => trivial, (h s hs).2⟩, fun h s hs => ⟨(h s hs).1, (h s hs).2.2⟩⟩

namespace Computes

theorem pure (a : α) : Computes bindings (Pure.pure a) (some a) := fun _ h => ⟨rfl, h⟩

theorem raise (c : Cause) : Computes bindings (Act.raise c : Act α) none := fun _ h => ⟨rfl, h⟩

theorem report (d : Diagnostic) : Computes bindings (Act.report d : Act α) none := fun _ h => ⟨rfl, h⟩

/-- The result of a computation. -/
theorem lift (x : Except Cause α) : Computes bindings (Act.lift x) x.toOption := by
  cases x with
  | ok a => exact pure a
  | error c => exact raise c

theorem map {act : Act α} {r : Option α} (hact : Computes bindings act r) (g : α → β) :
    Computes bindings (act >>= fun a => Pure.pure (g a)) (r.map g) :=
  computes_iff_delivers.2 ((computes_iff_delivers.1 hact).map g)

end Computes

section Bindings

variable {resolve : Location → Text → Act Expr} {follow : Following}

theorem radix_of_binding_eq {s : State} (h : s.scope.binding = bindings) :
    s.scope.radix = (bindings Scope.radixName).radix := by
  rw [Scope.radix_eq, h]

/-- A numeral is read in the radix that the bindings tell. -/
theorem readNumeral_computes (loc : Location) (digits : Text) :
    Computes bindings (readNumeral loc digits)
      ((digits.toInt64? (bindings Scope.radixName).radix).map (.literal loc)) :=
  computes_iff_delivers.2
    (readNumeral_delivers (fun _ => radix_of_binding_eq) (fun _ _ => trivial) loc digits)

/-- Evaluation gives what is left of an expression, if resolving a name gives what following it does. -/
theorem flattenWith_computes
    (hres : ∀ loc name, Computes bindings (resolve loc name) (follow loc name)) (e : Expr)
    (propagate : Bool) :
    Computes bindings (flattenWith u resolve e propagate)
      (outcome u (bindings Scope.radixName).radix follow e propagate) :=
  computes_iff_delivers.2 (flattenWith_delivers (fun _ => radix_of_binding_eq) (fun _ _ => trivial)
    (fun loc name (_ : True) => computes_iff_delivers.1 (hres loc name)) e propagate fun _ _ => trivial)

end Bindings

/-- Asking for a name gives a symbol that stands for what the name does, and no name stands for anything
else afterwards. -/
theorem exec_request (loc : Location) (name : Text) (s : State) :
    ∃ sym s', (request loc name).exec s = (.ok sym, s') ∧ sym.binding = s.scope.binding name ∧
      s'.scope.binding = s.scope.binding := by
  rw [request, Act.exec_bind_of_ok (Act.exec_scope s)]
  cases hfind : s.scope.find? name with
  | some sym =>
    have hkeep := Scope.binding_modify (g := fun s => { s with used := true }) (fun _ => rfl)
      s.scope name
    refine ⟨sym, _, rfl, ?_, hkeep⟩
    rw [Scope.binding, hfind]
    rfl
  | none =>
    simp only [Scope.declareLocal_of_find?_eq_none hfind]
    have hkeep := Scope.binding_modify
      (g := fun s => { s with loc, frozen := true, used := true }) (fun _ => rfl)
      (s.scope.modifyTop fun f => f.insert name {}) name
    refine ⟨_, _, rfl, ?_, hkeep.trans (Scope.binding_declare hfind)⟩
    rw [Scope.binding, hfind]
    rfl

/-- A name that is being followed is met again, or else it is looked up. -/
theorem resolveOnce_computes {evaluate : Expr → Act Expr} {next : Expr → Option Expr}
    (hnext : ∀ value, Computes bindings (evaluate value) (next value)) (guard : List Text)
    (loc : Location) (name : Text) :
    Computes bindings (resolveOnce evaluate guard loc name)
      (if name ∈ guard then none else lookup bindings next loc name) := by
  have hguard : guard.dropWhile (· != name) = [] ↔ name ∉ guard := by
    rw [List.dropWhile_eq_nil_iff]
    exact ⟨fun h hmem => by simpa using h name hmem, fun h x hx => bne_iff_ne.2 fun heq => h (heq ▸ hx)⟩
  rw [resolveOnce]
  split
  · rename_i hchain
    rw [if_neg (hguard.1 hchain)]
    intro s hs
    obtain ⟨sym, s', hexec, hsym, hs'⟩ := exec_request loc name s
    rw [hs] at hsym hs'
    rw [Act.exec_bind_of_ok hexec, lookup, ← hsym]
    -- the symbol that was asked for is what the bindings tell
    cases hplain : sym.isMacro with
    | true => simpa [Symbol.binding, hplain] using (Computes.raise _) s' hs'
    | false =>
      cases hvalue : sym.value with
      | none => simpa [Symbol.binding, hplain, hvalue] using (Computes.pure _) s' hs'
      | some value =>
        simpa [Symbol.binding, hplain, hvalue] using ((hnext value).map (tag name)) s' hs'
  · rename_i hchain
    rw [if_pos]
    · exact Computes.report _
    · by_contra hmem
      exact hchain (hguard.2 hmem)

/-- Resolving a name gives what following it under the same guard does. -/
theorem resolve_computes (fuel : Nat) (guard : List Text) (loc : Location) (name : Text) :
    Computes bindings (resolve u fuel guard loc name)
      (guarded u (bindings Scope.radixName).radix bindings fuel guard loc name) := by
  induction fuel generalizing guard loc name with
  | zero =>
    rw [resolve, guarded]
    exact resolveOnce_computes (fun _ => Computes.pure _) guard loc name
  | succ fuel ih =>
    rw [resolve, guarded]
    exact resolveOnce_computes (fun value => flattenWith_computes (ih _) value true) guard loc name

/-- The names a scope binds, in any of its frames. -/
def domain (s : Scope) : Finset Text :=
  ((s.inner.flatMap Frame.entries ++ s.root.entries).map Prod.fst).toFinset

/-- Every name that stands for a value is bound. -/
theorem mem_domain_of_isSome (s : Scope) (name : Text) (h : (s.binding name).value.isSome) :
    name ∈ domain s := by
  have hfound : (s.find? name).isSome := by
    rw [Scope.binding] at h
    cases hfind : s.find? name with
    | none => simp [hfind, Binding.unset] at h
    | some sym => rfl
  rw [Scope.find?] at hfound
  obtain ⟨sym, hsym⟩ := Option.isSome_iff_exists.1 hfound
  obtain ⟨f, hf, hfind⟩ := Scope.exists_of_findIn hsym
  have hname := Frame.mem_names_of_find? hfind
  obtain ⟨entry, hentry, rfl⟩ := List.mem_map.1 hname
  rw [domain, List.mem_toFinset, List.mem_map]
  refine ⟨entry, ?_, rfl⟩
  rcases List.mem_append.1 hf with hinner | hroot
  · exact List.mem_append_left _ (List.mem_flatMap.2 ⟨f, hinner, hentry⟩)
  · rw [List.mem_singleton.1 hroot] at hentry
    exact List.mem_append_right _ hentry

theorem card_domain_lt (s : Scope) : (domain s).card < resolveFuel s := by
  refine Nat.lt_succ_of_le ((List.toFinset_card_le _).trans ?_)
  rw [List.length_map, List.length_append]

/-- How the names of a scope are followed. -/
def following (u : Surroundings) (s : Scope) : Following :=
  guarded u s.radix s.binding (resolveFuel s) []

/-- Following a name of a scope is a fixed point of looking it up once. -/
theorem following_eq (u : Surroundings) (s : Scope) (loc : Location) (name : Text) :
    following u s loc name =
      lookup s.binding (fun value => outcome u s.radix (following u s) value true) loc name :=
  guarded_eq_lookup (mem_domain_of_isSome s) (card_domain_lt s) loc name

/-- Following a name of a scope takes no more steps than the scope has fuel. -/
theorem following_le_follow (u : Surroundings) (s : Scope) (loc : Location) (name : Text) :
    Below (following u s loc name) (follow u s.radix s.binding (resolveFuel s) loc name) := by
  refine guarded_le_follow (mem_domain_of_isSome s) _ [] ?_ loc name
  simpa using card_domain_lt s

/-- Evaluation gives what is left of an expression if names are followed through the scope. -/
theorem flatten_eq_outcome (u : Surroundings) (e : Expr) (s : State) :
    ((flatten u e).exec s).1.toOption =
      outcome u s.scope.radix (following u s.scope) e true := by
  have hresolve : ∀ loc name, Computes s.scope.binding (resolve u (resolveFuel s.scope) [] loc name)
      (following u s.scope loc name) := by
    rw [following, Scope.radix_eq]
    exact resolve_computes (resolveFuel s.scope) []
  rw [flatten, flattenGuarded, Act.exec_bind_of_ok (Act.exec_scope s), Scope.radix_eq]
  exact (flattenWith_computes hresolve e true s rfl).1

end Eval

end MacroAsm
