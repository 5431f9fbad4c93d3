import MacroAsm.Proofs.Eval.Requests
import MacroAsm.Proofs.Eval.Tracing
import MacroAsm.Proofs.Scope.Marking

/-!
# Evaluation marks names and declares them ahead, and does nothing else

Whatever an evaluation gives, and also if it fails, it leaves the scope as it found it but for names that were
asked for (`Eval.Demands`): these are marked as used, or declared ahead in the innermost frame if no frame has
them (`Scope.Marks`). That is what each request does, and evaluation does nothing but such requests.

Building a name leaves names alone, except where a number is to be appended to one: the right operand of such an
operator is evaluated. The state that building a name leaves is the one that evaluating some of these operands
leaves, one after the other (`Eval.spends_nameOnly`).

Main statement: `Eval.evaluation_marks`.
-/

namespace MacroAsm

namespace Expr

mutual

/-- The right operands of the operators that append a number to a name, where an expression is not evaluated
but only built: those within such an operand are left out. -/
def joinOperands : Expr → List Expr
  | .unary _ _ value => value.joinOperands
  | .binary _ op left right =>
    if op.isJoin then left.joinOperands ++ [right] else left.joinOperands ++ right.joinOperands
  | .ternary _ test onTrue onFalse => test.joinOperands ++ (onTrue.joinOperands ++ onFalse.joinOperands)
  | .call _ _ params => joinOperandsAll params
  | .absolute _ address => address.joinOperands
  | .displaced _ _ displace => displace.joinOperands
  | .offset _ _ value => value.joinOperands
  | _ => []

/-- The right operands of the operators that append a number to a name, in the expressions of a list. -/
def joinOperandsAll : List Expr → List Expr
  | [] => []
  | e :: rest => e.joinOperands ++ joinOperandsAll rest

end

end Expr

namespace Eval

variable {u : Surroundings}

/-- Evaluating an expression leads to a name: the name is asked for, or evaluating the value of a name that is
asked for leads to it. -/
inductive Demands (u : Surroundings) (s : State) : Expr → Text → Prop where
  /-- The name is asked for. -/
  | request {e : Expr} {name : Text} (h : Requests u s e name) : Demands u s e name
  /-- Another name is asked for, and what it is bound to is evaluated. -/
  | follow {e value : Expr} {name other : Text} (h : Requests u s e name)
    (hvalue : (s.scope.find? name).bind Symbol.value = some value) (hrest : Demands u s value other) :
    Demands u s e other

/-- A state in which names were touched, and that is otherwise the same. -/
structure Touches (touched : Text → Prop) (s s' : State) : Prop where
  /-- The names are marked, or declared ahead. -/
  scope : s.scope.Marks touched s'.scope
  /-- Nothing else happened. -/
  rest : s' = { s with scope := s'.scope }

section Touches

variable {touched : Text → Prop} {s s' s'' : State}

theorem Touches.refl (s : State) : Touches touched s s := ⟨.refl s.scope, rfl⟩

theorem Touches.trans (h : Touches touched s s') (h' : Touches touched s' s'') : Touches touched s s'' := by
  refine ⟨h.scope.trans h'.scope, ?_⟩
  rw [h'.rest, h.rest]

/-- Asking for a name touches that name. -/
theorem request_touches {name : Text} (hname : touched name) (loc : Location) (s : State) :
    Touches touched s ((request loc name).exec s).2 := by
  rw [request, Act.exec_bind_of_ok (Act.exec_scope s)]
  cases hfind : s.scope.find? name with
  | some sym => exact ⟨.of_modify hname s.scope, rfl⟩
  | none =>
    simp only [Scope.declareLocal_of_find?_eq_none hfind]
    exact ⟨.of_declare hname hfind loc, rfl⟩

/-- Whether a run touches other names, or changes something else. -/
def Strays (touched : Text → Prop) (s : State) (_ : Option Failure) (s' : State) : Prop := ¬Touches touched s s'

/-- One step of a sequence strays if the whole does. -/
theorem observation_strays (touched : Text → Prop) : Observation (Strays touched) where
  pure s h := h (.refl s)
  raise s _ h := h (.refl s)
  trans s s' s'' _ h := by
    by_cases hfirst : Touches touched s s'
    · exact Or.inr fun hrest => h (hfirst.trans hrest)
    · exact Or.inl hfirst

variable {s₀ : State}

/-- Resolving a name touches that name and those that its value leads to. -/
theorem resolve_touches (fuel : Nat) {guard : List Text} (hfuel : Suffices s₀.scope.binding guard fuel)
    {name : Text} (hname : touched name)
    (hvalue : ∀ value, (s₀.scope.binding name).value = some value → ∀ other, Demands u s₀ value other →
      touched other) (loc : Location) {s : State} (hs : s.scope.binding = s₀.scope.binding) :
    Touches touched s ((resolve u fuel guard loc name).exec s).2 := by
  induction fuel generalizing guard name loc s with
  | zero =>
    obtain ⟨dom, -, hcard⟩ := hfuel
    omega
  | succ fuel ih =>
    rw [resolve, resolveOnce]
    split
    · rename_i hchain
      have hguard : name ∉ guard := fun hmem => by
        simpa using List.dropWhile_eq_nil_iff.1 hchain name hmem
      have hrequest := request_touches hname loc s
      obtain ⟨sym, s', hexec, hsym, hs'⟩ := exec_request loc name s
      rw [hexec] at hrequest
      rw [Act.exec_bind_of_ok hexec]
      split
      · exact hrequest
      · split
        · rename_i value hsome
          have hbound : (s₀.scope.binding name).value = some value := by
            rw [← hs, ← hsym, ← hsome]
            rfl
          rw [hs] at hs'
          have hnext := hfuel.step hguard hbound
          -- were another name touched, it would be while a name of the value is resolved
          have htouches : Touches touched s'
              ((flattenWith u (resolve u fuel (guard ++ [name])) value true).exec s').2 := by
            by_contra hstrays
            obtain ⟨other, hrequests, loc', s'', hs'', hother⟩ :=
              exists_requests_of_exhibits (observation_strays touched) hnext hs' hstrays
            refine hother (ih hnext (hvalue value hbound other (.request hrequests)) ?_ loc' hs'')
            intro next hsome last hlast
            rw [Scope.value_binding] at hsome
            exact hvalue value hbound last (.follow hrequests hsome hlast)
          rcases hrun : (flattenWith u (resolve u fuel (guard ++ [name])) value true).exec s' with ⟨r, s''⟩
          rw [hrun] at htouches
          cases r with
          | ok v =>
            rw [Act.exec_bind_of_ok hrun]
            exact hrequest.trans htouches
          | error f =>
            rw [Act.exec_bind_of_error hrun]
            exact hrequest.trans htouches
        · exact hrequest
    · exact .refl s

/-- Evaluating an expression touches the names that it leads to. -/
theorem flattenWith_touches {fuel : Nat} {guard : List Text} (hfuel : Suffices s₀.scope.binding guard fuel)
    {e : Expr} (he : ∀ name, Demands u s₀ e name → touched name) {s : State}
    (hs : s.scope.binding = s₀.scope.binding) :
    Touches touched s ((flattenWith u (resolve u fuel guard) e true).exec s).2 := by
  by_contra hstrays
  obtain ⟨name, hrequests, loc, s', hs', hname⟩ :=
    exists_requests_of_exhibits (observation_strays touched) hfuel hs hstrays
  refine hname (resolve_touches fuel hfuel (he name (.request hrequests)) ?_ loc hs')
  intro value hsome other hother
  rw [Scope.value_binding] at hsome
  exact he other (.follow hrequests hsome hother)

end Touches

section Spends

variable {α β : Type} {es es' : List Expr}

/-- The state that evaluating expressions one after the other leaves, whether or not they fail. -/
def spend (u : Surroundings) (es : List Expr) (s : State) : State :=
  es.foldl (fun s e => ((flatten u e).exec s).2) s

/-- An action changes the state as evaluating some expressions of a list does, in the order of the list. -/
def Spends (u : Surroundings) (es : List Expr) (act : Act α) : Prop :=
  ∀ s, ∃ used, used.Sublist es ∧ (act.exec s).2 = spend u used s

namespace Spends

theorem of_eq {act : Act α} (h : ∀ s, (act.exec s).2 = s) : Spends u es act :=
  fun s => ⟨[], List.nil_sublist es, h s⟩

theorem pure (a : α) : Spends u es (Pure.pure a) := .of_eq fun _ => rfl

theorem raise (c : Cause) : Spends u es (Act.raise c : Act α) := .of_eq fun _ => rfl

theorem lift (x : Except Cause α) : Spends u es (Act.lift x) := .of_eq fun s => by simp

/-- An action that goes on with the result of another. -/
theorem bind {act : Act α} {k : α → Act β} (h : Spends u es act) (hk : ∀ a, Spends u es' (k a)) :
    Spends u (es ++ es') (act >>= k) := by
  intro s
  obtain ⟨used, hused, hstate⟩ := h s
  rcases hexec : act.exec s with ⟨r, s'⟩
  replace hstate : s' = spend u used s := by rw [← hstate, hexec]
  cases r with
  | ok a =>
    obtain ⟨used', hused', hstate'⟩ := hk a s'
    refine ⟨used ++ used', hused.append hused', ?_⟩
    rw [Act.exec_bind_of_ok hexec, hstate', hstate]
    exact (List.foldl_append ..).symm
  | error f =>
    refine ⟨used, List.sublist_append_of_sublist_left hused, ?_⟩
    rw [Act.exec_bind_of_error hexec]
    exact hstate

/-- An action that goes on with the result of another and leaves the state alone. -/
theorem andThen {act : Act α} {k : α → Act β} (h : Spends u es act) (hk : ∀ a, Spends u [] (k a)) :
    Spends u es (act >>= k) := by
  have hbind := h.bind hk
  rwa [List.append_nil] at hbind

/-- An action that goes on with the result of a computation. -/
theorem liftBind {x : Except Cause α} {k : α → Act β} (hk : ∀ a, Spends u es (k a)) :
    Spends u es (Act.lift x >>= k) := by
  have hlift : Spends u [] (Act.lift x) := .lift x
  exact hlift.bind hk

/-- An action that leaves some of the expressions alone. -/
theorem mono {act : Act α} (h : Spends u es act) (hes : es.Sublist es') : Spends u es' act := by
  intro s
  obtain ⟨used, hused, hstate⟩ := h s
  exact ⟨used, hused.trans hes, hstate⟩

end Spends

/-- Reading a numeral leaves the state alone. -/
theorem spends_readNumeral (loc : Location) (digits : Text) : Spends u es (readNumeral loc digits) := by
  refine .of_eq fun s => ?_
  rw [readNumeral, Act.exec_bind_of_ok (Act.exec_scope s)]
  dsimp only
  split <;> rfl

variable {ρ : Location → Text → Act Expr}

/-- A number is appended to a name once it is known, and the name is left alone. -/
theorem spends_join (op : BinaryOp) (loc : Location) (l : Expr) (name : Text) (r : Expr) :
    Spends u [] (if r.isConcrete then do
        let name := name ++ suffix op (← Act.lift r.asNumber)
        if false then ρ loc name else return .identifier loc name
      else return .binary loc op l r) := by
  split
  · exact (Spends.lift _).andThen fun n => .pure _
  · exact .pure _

mutual

/-- Building the names in an expression changes the state as evaluating right operands does. -/
theorem flattenWith_spends (hρ : ∀ e, flattenWith u ρ e true = flatten u e) :
    ∀ e : Expr, Spends u e.joinOperands (flattenWith u ρ e false) := by
  intro e
  have hright : ∀ r, Spends u [r] (flattenWith u ρ r true) := by
    intro r s
    rw [hρ]
    exact ⟨[r], List.Sublist.refl _, rfl⟩
  cases e with
  | numeral loc digits =>
    rw [flattenWith]
    exact spends_readNumeral loc digits
  | identifier loc name =>
    rw [flattenWith]
    exact .pure _
  | unary loc op value =>
    rw [Expr.joinOperands]
    by_cases hop : op = .macroLocal
    · subst hop
      rw [flattenWith]
      refine (flattenWith_spends hρ value).andThen fun v => ?_
      cases v with
      | identifier => exact .pure _
      | _ => exact .raise _
    · rw [flattenWith]
      · refine (flattenWith_spends hρ value).andThen fun v => ?_
        split
        · exact .lift _
        · exact .pure _
      · exact hop
  | binary loc op left right =>
    have hl := flattenWith_spends hρ left
    have hr := flattenWith_spends hρ right
    rw [Expr.joinOperands]
    cases op with
    | joinNames =>
      rw [flattenWith]
      refine hl.bind fun l => ?_
      cases l with
      | identifier =>
        refine hr.andThen fun r => ?_
        cases r with
        | identifier => exact .pure _
        | _ => exact .raise _
      | _ => exact .raise _
    | joinDecimal =>
      rw [flattenWith]
      refine hl.bind fun l => ?_
      cases l with
      | identifier _ name => exact (hright right).andThen fun r => spends_join .joinDecimal loc _ name r
      | _ => exact .raise _
    | joinHex =>
      rw [flattenWith]
      refine hl.bind fun l => ?_
      cases l with
      | identifier _ name => exact (hright right).andThen fun r => spends_join .joinHex loc _ name r
      | _ => exact .raise _
    | or =>
      rw [flattenWith]
      refine hl.bind fun l => ?_
      split
      · refine .liftBind fun t => ?_
        cases t with
        | true => exact .pure _
        | false => exact hr
      · exact hr.andThen fun r => .pure _
    | and =>
      rw [flattenWith]
      refine hl.bind fun l => ?_
      split
      · refine .liftBind fun t => ?_
        cases t with
        | true => exact hr
        | false => exact .pure _
      · exact hr.andThen fun r => .pure _
    | _ =>
      rw [flattenWith]
      · refine hl.bind fun l => hr.andThen fun r => ?_
        split
        · exact .lift _
        · exact .pure _
      all_goals simp
  | ternary loc test onTrue onFalse =>
    have ha := flattenWith_spends hρ onTrue
    have hb := flattenWith_spends hρ onFalse
    rw [flattenWith, Expr.joinOperands]
    refine (flattenWith_spends hρ test).bind fun t => ?_
    split
    · refine .liftBind fun holds => ?_
      cases holds with
      | true => exact ha.mono (List.sublist_append_left _ _)
      | false => exact hb.mono (List.sublist_append_right _ _)
    · exact ha.bind fun a => hb.andThen fun b => .pure _
  | call loc name params =>
    rw [flattenWith, Expr.joinOperands]
    cases Builtin.ofName? name with
    | none => exact .raise _
    | some f =>
      refine (flattenAll_spends hρ params).andThen fun args => ?_
      split
      · exact .lift _
      · exact .pure _
  | absolute loc address =>
    rw [flattenWith, Expr.joinOperands]
    exact (flattenWith_spends hρ address).andThen fun _ => .pure _
  | displaced loc base displace =>
    rw [flattenWith, Expr.joinOperands]
    exact (flattenWith_spends hρ displace).andThen fun _ => .pure _
  | offset loc base value =>
    rw [flattenWith, Expr.joinOperands]
    exact (flattenWith_spends hρ value).andThen fun _ => .pure _
  | _ =>
    rw [flattenWith]
    exact .pure _

/-- Building the names in the expressions of a list changes the state as evaluating right operands does. -/
theorem flattenAll_spends (hρ : ∀ e, flattenWith u ρ e true = flatten u e) :
    ∀ es : List Expr, Spends u (Expr.joinOperandsAll es) (flattenAll u ρ es false) := by
  intro es
  cases es with
  | nil =>
    rw [flattenAll]
    exact .pure _
  | cons e rest =>
    rw [flattenAll, Expr.joinOperandsAll]
    refine (flattenWith_spends hρ e).bind fun v => ?_
    exact (flattenAll_spends hρ rest).andThen fun _ => .pure _

end

/-- Building a name changes the state as evaluating right operands does. -/
theorem spends_nameOnly (u : Surroundings) (e : Expr) : Spends u e.joinOperands (nameOnly u e) := by
  have hresolves := resolves_resolveAll u
  rw [hresolves.nameOnly_eq]
  exact flattenWith_spends (fun r => (hresolves.flattenGuarded_eq r []).symm) e

/-- Reading off the name that an expression spells leaves the state that building it does. -/
theorem exec_nameOf (u : Surroundings) (e : Expr) (s : State) :
    ((nameOf u e).exec s).2 = ((nameOnly u e).exec s).2 := by
  rw [nameOf]
  rcases hexec : (nameOnly u e).exec s with ⟨r, s'⟩
  cases r with
  | ok v =>
    rw [Act.exec_bind_of_ok hexec]
    cases v <;> rfl
  | error f => rw [Act.exec_bind_of_error hexec]

end Spends

section Effect

variable {s₀ : State} {touched : Text → Prop}

/-- Evaluating an expression touches the names that it leads to, and keeps what names are bound to. -/
theorem flattenGuarded_touches {e : Expr} (he : ∀ name, Demands u s₀ e name → touched name)
    (guard : List Text) {s : State} (hs : s.scope.binding = s₀.scope.binding) :
    Touches touched s ((flattenGuarded u e guard).exec s).2 ∧
      ((flattenGuarded u e guard).exec s).2.scope.binding = s₀.scope.binding := by
  have hfuel := suffices_resolveFuel s.scope guard
  rw [hs] at hfuel
  rw [flattenGuarded, Act.exec_bind_of_ok (Act.exec_scope s)]
  exact ⟨flattenWith_touches hfuel he hs, (flattenWith_computes (resolve_computes _ guard) e true s hs).2⟩

/-- Evaluating expressions one after the other touches the names that they lead to. -/
theorem spend_touches {es : List Expr} (hes : ∀ e ∈ es, ∀ name, Demands u s₀ e name → touched name)
    {s : State} (hs : s.scope.binding = s₀.scope.binding) : Touches touched s (spend u es s) := by
  induction es generalizing s with
  | nil => exact .refl s
  | cons e rest ih =>
    rw [List.forall_mem_cons] at hes
    obtain ⟨hfirst, hkeeps⟩ := flattenGuarded_touches hes.1 [] hs
    exact hfirst.trans (ih hes.2 hkeeps)

/-- Counting an expression that waits changes no scope. -/
theorem settle_touches {act : Act Expr} {s : State} (hact : Touches touched s (act.exec s).2) (deferrable : Bool) :
    ∃ n ≤ 1, Touches touched { s with deferred := s.deferred + n }
      ((act >>= settle deferrable).exec s).2 := by
  rcases hexec : act.exec s with ⟨r, s'⟩
  replace hact : Touches touched s s' := by rwa [hexec] at hact
  have hsame : ∃ n ≤ 1, Touches touched { s with deferred := s.deferred + n } s' := ⟨0, by simp, hact⟩
  have hcounted : Touches touched { s with deferred := s.deferred + 1 }
      { s' with deferred := s'.deferred + 1 } := by
    refine ⟨hact.scope, ?_⟩
    rw [hact.rest]
  cases r with
  | error f =>
    rw [Act.exec_bind_of_error hexec]
    exact hsame
  | ok v =>
    rw [Act.exec_bind_of_ok hexec, settle]
    split
    · exact hsame
    · split
      · exact ⟨1, le_rfl, hcounted⟩
      · exact hsame

/-- Evaluation has no effect but that names are marked as used and declared ahead, whether it succeeds or not
and whatever names are being defined: in every frame the bindings stay where they are and what they are, but
that some are marked, and what is added are unset symbols, used and frozen, at the end of the innermost frame,
for names that no frame had. All of them are names that the expression leads to. Where an expression waits it
may be counted. Building a name has the effect of evaluating some of the right operands of the operators that
append a number to a name, so it touches only names that such operands lead to. -/
theorem evaluation_marks (u : Surroundings) (e : Expr) (s : State) :
    (∀ guard, Touches (Demands u s e) s ((flattenGuarded u e guard).exec s).2) ∧
    (∀ deferrable, ∃ n ≤ 1, Touches (Demands u s e) { s with deferred := s.deferred + n }
      ((evaluate u deferrable e).exec s).2) ∧
    (∀ name, ∃ n ≤ 1, Touches (Demands u s e) { s with deferred := s.deferred + n }
      ((evaluateDefinition u name e).exec s).2) ∧
    Touches (fun name => ∃ operand ∈ e.joinOperands, Demands u s operand name) s
      ((nameOnly u e).exec s).2 ∧
    (∃ used, used.Sublist e.joinOperands ∧ ((nameOnly u e).exec s).2 = spend u used s) ∧
    ((nameOf u e).exec s).2 = ((nameOnly u e).exec s).2 := by
  have hflatten : ∀ guard, Touches (Demands u s e) s ((flattenGuarded u e guard).exec s).2 :=
    fun guard => (flattenGuarded_touches (fun _ h => h) guard rfl).1
  obtain ⟨used, hused, hstate⟩ := spends_nameOnly u e s
  refine ⟨hflatten, fun deferrable => settle_touches (hflatten []) deferrable,
    fun name => settle_touches (hflatten [name]) true, ?_, ⟨used, hused, hstate⟩, exec_nameOf u e s⟩
  rw [hstate]
  exact spend_touches (fun r hr name hname => ⟨r, hused.subset hr, hname⟩) rfl

end Effect

end Eval

end MacroAsm
