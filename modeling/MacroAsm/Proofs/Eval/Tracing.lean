import MacroAsm.Proofs.Eval.Termination

/-!
# Which name is at fault

An evaluation acts on nothing but what it asks names for, so whatever it is found to have done, a failure or
a change of the scope, was done while some name was resolved (`Eval.flattenWith_traced`). That the name was
asked for at all is told by an experiment: were the evaluation stopped at that name with some failure, it
would end with just this failure (`Eval.Requests`).
-/

namespace MacroAsm

/-- A name stands for the value of its symbol. -/
theorem Scope.value_binding (s : Scope) (name : Text) :
    (s.binding name).value = (s.find? name).bind Symbol.value := by
  rw [Scope.binding]
  cases s.find? name <;> rfl

namespace Eval

variable {α β : Type} {bindings : Text → Binding} {u : Surroundings}

/-- Resolves names, and stops with a failure where it is asked for one of them. -/
def stoppingAt (name : Text) (f : Failure) (resolve : Location → Text → Act Expr) :
    Location → Text → Act Expr :=
  fun loc other => if other = name then throw f else resolve loc other

/-- Evaluating an expression asks the scope for a name: with whatever failure the name is answered, the
evaluation ends with it. -/
def Requests (u : Surroundings) (s : State) (e : Expr) (name : Text) : Prop :=
  ∀ f, ((flattenWith u (stoppingAt name f (resolve u (resolveFuel s.scope) [])) e true).exec s).1 = .error f

/-- The failure that a run ended with, if it failed. -/
def failure? : Except Failure α → Option Failure
  | .ok _ => none
  | .error f => some f

/-- What an observer may find that a run has done, given the state it began in, the failure it ended with and
the state it left. Nothing has been done where the state stays and no diagnostic is reported, and what a
sequence of steps has done one of them did. -/
structure Observation (Seen : State → Option Failure → State → Prop) : Prop where
  /-- A step that gives a result and leaves the state alone. -/
  pure : ∀ s, ¬Seen s none s
  /-- A step that fails with a cause and leaves the state alone. -/
  raise : ∀ s c, ¬Seen s (some (.raise c)) s
  /-- Two steps, of which the first gives a result. -/
  trans : ∀ s s' s'' f, Seen s f s'' → Seen s none s' ∨ Seen s' f s''

/-- What a run of an action has done, over some state. -/
def Exhibits (Seen : State → Option Failure → State → Prop) (act : Act α) (s : State) : Prop :=
  Seen s (failure? (act.exec s).1) (act.exec s).2

section Traced

variable {Seen : State → Option Failure → State → Prop} {Culprit : Text → Prop}

/-- An action beside its variants that stop at a name. A variant gives the result of the action unless it
comes to the name, and whatever the action is seen to do, the variant for some culprit always stops. -/
structure Traced (bindings : Text → Binding) (Seen : State → Option Failure → State → Prop)
    (Culprit : Text → Prop) (act : Act α) (stopped : Text → Failure → Act α) : Prop where
  /-- The action keeps the bindings. -/
  keeps : ∀ s : State, s.scope.binding = bindings → (act.exec s).2.scope.binding = bindings
  /-- So do the variants. -/
  keeps_stopped : ∀ name f, ∀ s : State, s.scope.binding = bindings →
    ((stopped name f).exec s).2.scope.binding = bindings
  /-- A variant stops, or gives what the action gives. -/
  agrees : ∀ s a, s.scope.binding = bindings → (act.exec s).1 = .ok a → ∀ name f, ∀ t : State,
    t.scope.binding = bindings →
      ((stopped name f).exec t).1 = .ok a ∨ ((stopped name f).exec t).1 = .error f
  /-- What is seen comes from a name that is asked for. -/
  traced : ∀ s : State, s.scope.binding = bindings → Exhibits Seen act s → ∃ name, Culprit name ∧
    ∀ f, ∀ t : State, t.scope.binding = bindings → ((stopped name f).exec t).1 = .error f

namespace Traced

/-- The result that is there already. -/
theorem pure (hS : Observation Seen) (a : α) :
    Traced bindings Seen Culprit (Pure.pure a) fun _ _ => Pure.pure a where
  keeps _ hs := hs
  keeps_stopped _ _ _ hs := hs
  agrees _ _ _ h _ _ _ _ := Or.inl h
  traced s _ h := absurd h (hS.pure s)

/-- A failure with a cause. -/
theorem raise (hS : Observation Seen) (c : Cause) :
    Traced bindings Seen Culprit (Act.raise c : Act α) fun _ _ => Act.raise c where
  keeps _ hs := hs
  keeps_stopped _ _ _ hs := hs
  agrees _ _ _ h _ _ _ _ := Or.inl h
  traced s _ h := absurd h (hS.raise s c)

/-- The result of a computation. -/
theorem lift (hS : Observation Seen) (x : Except Cause α) :
    Traced bindings Seen Culprit (Act.lift x) fun _ _ => Act.lift x := by
  cases x with
  | ok a => exact .pure hS a
  | error c => exact .raise hS c

/-- Actions that do the same wherever the bindings are the same are traced alike. -/
theorem of_exec_eq {act act' : Act α} (h : Traced bindings Seen Culprit act fun _ _ => act)
    (hexec : ∀ s : State, s.scope.binding = bindings → act'.exec s = act.exec s) :
    Traced bindings Seen Culprit act' fun _ _ => act' where
  keeps s hs := by
    rw [hexec s hs]
    exact h.keeps s hs
  keeps_stopped name f s hs := by
    rw [hexec s hs]
    exact h.keeps_stopped name f s hs
  agrees s a hs ha name f t ht := by
    rw [hexec s hs] at ha
    rw [hexec t ht]
    exact h.agrees s a hs ha name f t ht
  traced s hs hseen := by
    rw [Exhibits, hexec s hs] at hseen
    obtain ⟨name, hculprit, hstops⟩ := h.traced s hs hseen
    exact ⟨name, hculprit, fun f t ht => (congrArg Prod.fst (hexec t ht)).trans (hstops f t ht)⟩

/-- A numeral is read the same way wherever the bindings are the same. -/
theorem readNumeral (hS : Observation Seen) (loc : Location) (digits : Text) :
    Traced bindings Seen Culprit (Eval.readNumeral loc digits) fun _ _ => Eval.readNumeral loc digits := by
  obtain ⟨x, hexec⟩ : ∃ x : Except Cause Expr, ∀ s : State, s.scope.binding = bindings →
      (Eval.readNumeral loc digits).exec s = (Act.lift x).exec s := by
    cases hvalue : digits.toInt64? (bindings Scope.radixName).radix with
    | some v =>
      refine ⟨.ok (.literal loc v), fun s hs => ?_⟩
      rw [Eval.readNumeral, Act.exec_bind_of_ok (Act.exec_scope s), radix_of_binding_eq hs]
      dsimp only
      rw [hvalue]
      rfl
    | none =>
      refine ⟨.error (.numeral digits (bindings Scope.radixName).radix), fun s hs => ?_⟩
      rw [Eval.readNumeral, Act.exec_bind_of_ok (Act.exec_scope s), radix_of_binding_eq hs]
      dsimp only
      rw [hvalue]
      rfl
  exact (lift hS x).of_exec_eq hexec

/-- A run of two actions keeps the bindings if each of them does. -/
theorem binding_bind {act : Act α} {k : α → Act β}
    (h : ∀ s : State, s.scope.binding = bindings → (act.exec s).2.scope.binding = bindings)
    (hk : ∀ a, ∀ s : State, s.scope.binding = bindings → ((k a).exec s).2.scope.binding = bindings)
    (s : State) (hs : s.scope.binding = bindings) : ((act >>= k).exec s).2.scope.binding = bindings := by
  have hkeep := h s hs
  rcases hexec : act.exec s with ⟨r, s'⟩
  rw [hexec] at hkeep
  cases r with
  | ok a =>
    rw [Act.exec_bind_of_ok hexec]
    exact hk a s' hkeep
  | error f =>
    rw [Act.exec_bind_of_error hexec]
    exact hkeep

/-- An action that stops in its first part stops as a whole. -/
theorem fst_bind_of_error {act : Act α} {k : α → Act β} {s : State} {f : Failure}
    (h : (act.exec s).1 = .error f) : ((act >>= k).exec s).1 = .error f := by
  rcases hexec : act.exec s with ⟨r, s'⟩
  rw [hexec] at h
  cases h
  rw [Act.exec_bind_of_error hexec]

/-- Where the first part of an action gives a result, a variant stops, or goes on with that result. -/
theorem stops_or_continues {act : Act α} {stopped : Text → Failure → Act α} {l : α → Act β} {s : State} {a : α}
    (h : Traced bindings Seen Culprit act stopped) (hs : s.scope.binding = bindings)
    (ha : (act.exec s).1 = .ok a) (name : Text) (f : Failure) {t : State} (ht : t.scope.binding = bindings) :
    ((stopped name f >>= l).exec t).1 = .error f ∨
      ∃ t' : State, t'.scope.binding = bindings ∧ (stopped name f >>= l).exec t = (l a).exec t' := by
  rcases h.agrees s a hs ha name f t ht with hok | hfails
  · right
    have hkeep := h.keeps_stopped name f t ht
    rcases hvariant : (stopped name f).exec t with ⟨r, t'⟩
    rw [hvariant] at hok hkeep
    cases hok
    exact ⟨t', hkeep, Act.exec_bind_of_ok hvariant⟩
  · exact Or.inl (fst_bind_of_error hfails)

/-- Actions that go on with the results of others. -/
theorem bind (hS : Observation Seen) {act : Act α} {stopped : Text → Failure → Act α}
    {k : α → Act β} {l : Text → Failure → α → Act β} (h : Traced bindings Seen Culprit act stopped)
    (hk : ∀ a, Traced bindings Seen Culprit (k a) fun name f => l name f a) :
    Traced bindings Seen Culprit (act >>= k) fun name f => stopped name f >>= l name f where
  keeps := binding_bind h.keeps fun a => (hk a).keeps
  keeps_stopped name f := binding_bind (h.keeps_stopped name f) fun a => (hk a).keeps_stopped name f
  agrees s b hs hb name f t ht := by
    have hkeep := h.keeps s hs
    rcases hexec : act.exec s with ⟨r, s'⟩
    rw [hexec] at hkeep
    cases r with
    | ok a =>
      rw [Act.exec_bind_of_ok hexec] at hb
      rcases h.stops_or_continues hs (by rw [hexec]) name f ht with hstopped | ⟨t', ht', hvariant⟩
      · exact Or.inr hstopped
      · rw [hvariant]
        exact (hk a).agrees s' b hkeep hb name f t' ht'
    | error f' =>
      rw [Act.exec_bind_of_error hexec] at hb
      cases hb
  traced s hs hseen := by
    have hkeep := h.keeps s hs
    have hfirst := h.traced s hs
    rcases hexec : act.exec s with ⟨r, s'⟩
    rw [Exhibits, hexec] at hfirst
    rw [hexec] at hkeep
    -- what is seen was done by the first part or by the second
    have hparts : Seen s (failure? r) s' ∨ ∃ a, r = .ok a ∧ Exhibits Seen (k a) s' := by
      cases r with
      | ok a =>
        rw [Exhibits, Act.exec_bind_of_ok hexec] at hseen
        exact (hS.trans s s' _ _ hseen).imp id fun hrest => ⟨a, rfl, hrest⟩
      | error f =>
        rw [Exhibits, Act.exec_bind_of_error hexec] at hseen
        exact Or.inl hseen
    rcases hparts with hseen | ⟨a, rfl, hseen⟩
    · obtain ⟨name, hculprit, hstops⟩ := hfirst hseen
      exact ⟨name, hculprit, fun f t ht => fst_bind_of_error (hstops f t ht)⟩
    · obtain ⟨name, hculprit, hstops⟩ := (hk a).traced s' hkeep hseen
      refine ⟨name, hculprit, fun f t ht => ?_⟩
      rcases h.stops_or_continues hs (by rw [hexec]) name f ht with hstopped | ⟨t', ht', hvariant⟩
      · exact hstopped
      · rw [hvariant]
        exact hstops f t' ht'

end Traced

section Flatten

variable {ρ : Location → Text → Act Expr} {σ : Text → Failure → Location → Text → Act Expr}

/-- A built name is resolved where that is asked for. -/
theorem spell_traced (hS : Observation Seen)
    (h : ∀ loc name, Traced bindings Seen Culprit (ρ loc name) fun n f => σ n f loc name)
    (propagate : Bool) (loc : Location) (name : Text) :
    Traced bindings Seen Culprit
      (if propagate then ρ loc name else return .identifier loc name : Act Expr)
      fun n f => if propagate then σ n f loc name else return .identifier loc name := by
  cases propagate with
  | true => exact h loc name
  | false => exact .pure hS _

/-- A number is appended to a name once it is known. -/
theorem join_traced (hS : Observation Seen)
    (h : ∀ loc name, Traced bindings Seen Culprit (ρ loc name) fun n f => σ n f loc name)
    (propagate : Bool) (op : BinaryOp) (loc : Location) (l : Expr) (name : Text) (r : Expr) :
    Traced bindings Seen Culprit
      (if r.isConcrete then do
        let name := name ++ suffix op (← Act.lift r.asNumber)
        if propagate then ρ loc name else return .identifier loc name
      else return .binary loc op l r)
      fun n f => if r.isConcrete then do
        let name := name ++ suffix op (← Act.lift r.asNumber)
        if propagate then σ n f loc name else return .identifier loc name
      else return .binary loc op l r := by
  split
  · exact (Traced.lift hS _).bind hS fun n => spell_traced hS h propagate loc _
  · exact .pure hS _

mutual

/-- What an evaluation is seen to do is done where a name is resolved, and the evaluation asks for that
name. -/
theorem flattenWith_traced (hS : Observation Seen)
    (h : ∀ loc name, Traced bindings Seen Culprit (ρ loc name) fun n f => σ n f loc name) :
    ∀ (e : Expr) (propagate : Bool), Traced bindings Seen Culprit (flattenWith u ρ e propagate)
      fun n f => flattenWith u (σ n f) e propagate := by
  intro e propagate
  cases e with
  | numeral loc digits =>
    simp only [flattenWith]
    exact .readNumeral hS loc digits
  | identifier loc name =>
    simp only [flattenWith]
    exact spell_traced hS h propagate loc name
  | unary loc op value =>
    by_cases hop : op = .macroLocal
    · subst hop
      simp only [flattenWith]
      refine (flattenWith_traced hS h value false).bind hS fun v => ?_
      cases v with
      | identifier => exact spell_traced hS h propagate loc _
      | _ => exact .raise hS _
    · have hstep : ∀ resolve, flattenWith u resolve (.unary loc op value) propagate = do
          let v ← flattenWith u resolve value propagate
          if v.isConcrete then Act.lift (applyUnary op loc v) else return .unary loc op v := by
        intro resolve
        rw [flattenWith]
        exact hop
      simp only [hstep]
      refine (flattenWith_traced hS h value propagate).bind hS fun v => ?_
      split
      · exact .lift hS _
      · exact .pure hS _
  | binary loc op left right =>
    have hleft := flattenWith_traced hS h left
    have hright := flattenWith_traced hS h right
    cases op with
    | joinNames =>
      simp only [flattenWith]
      refine (hleft false).bind hS fun l => ?_
      cases l with
      | identifier _ name =>
        refine (hright false).bind hS fun r => ?_
        cases r with
        | identifier => exact spell_traced hS h propagate loc _
        | _ => exact .raise hS _
      | _ => exact .raise hS _
    | joinDecimal =>
      simp only [flattenWith]
      refine (hleft false).bind hS fun l => ?_
      cases l with
      | identifier loc' name =>
        exact (hright true).bind hS fun r => join_traced hS h propagate .joinDecimal loc _ name r
      | _ => exact .raise hS _
    | joinHex =>
      simp only [flattenWith]
      refine (hleft false).bind hS fun l => ?_
      cases l with
      | identifier loc' name =>
        exact (hright true).bind hS fun r => join_traced hS h propagate .joinHex loc _ name r
      | _ => exact .raise hS _
    | or =>
      simp only [flattenWith]
      refine (hleft propagate).bind hS fun l => ?_
      split
      · refine (Traced.lift hS _).bind hS fun t => ?_
        cases t with
        | true => exact .pure hS _
        | false => exact hright propagate
      · exact (hright propagate).bind hS fun r => .pure hS _
    | and =>
      simp only [flattenWith]
      refine (hleft propagate).bind hS fun l => ?_
      split
      · refine (Traced.lift hS _).bind hS fun t => ?_
        cases t with
        | true => exact hright propagate
        | false => exact .pure hS _
      · exact (hright propagate).bind hS fun r => .pure hS _
    | _ =>
      simp only [flattenWith]
      refine (hleft propagate).bind hS fun l => (hright propagate).bind hS fun r => ?_
      split
      · exact .lift hS _
      · exact .pure hS _
  | ternary loc test onTrue onFalse =>
    simp only [flattenWith]
    refine (flattenWith_traced hS h test propagate).bind hS fun t => ?_
    split
    · refine (Traced.lift hS _).bind hS fun holds => ?_
      cases holds with
      | true => exact flattenWith_traced hS h onTrue propagate
      | false => exact flattenWith_traced hS h onFalse propagate
    · refine (flattenWith_traced hS h onTrue propagate).bind hS fun a => ?_
      exact (flattenWith_traced hS h onFalse propagate).bind hS fun b => .pure hS _
  | call loc name params =>
    simp only [flattenWith]
    cases Builtin.ofName? name with
    | none => exact .raise hS _
    | some f =>
      refine (flattenAll_traced hS h params propagate).bind hS fun args => ?_
      split
      · exact .lift hS _
      · exact .pure hS _
  | absolute loc address =>
    simp only [flattenWith]
    exact (flattenWith_traced hS h address propagate).bind hS fun _ => .pure hS _
  | displaced loc base displace =>
    simp only [flattenWith]
    exact (flattenWith_traced hS h displace propagate).bind hS fun _ => .pure hS _
  | offset loc base value =>
    simp only [flattenWith]
    exact (flattenWith_traced hS h value propagate).bind hS fun _ => .pure hS _
  | _ =>
    simp only [flattenWith]
    exact .pure hS _

/-- What evaluating the expressions of a list is seen to do is done where a name is resolved. -/
theorem flattenAll_traced (hS : Observation Seen)
    (h : ∀ loc name, Traced bindings Seen Culprit (ρ loc name) fun n f => σ n f loc name) :
    ∀ (es : List Expr) (propagate : Bool), Traced bindings Seen Culprit (flattenAll u ρ es propagate)
      fun n f => flattenAll u (σ n f) es propagate := by
  intro es propagate
  cases es with
  | nil =>
    simp only [flattenAll]
    exact .pure hS _
  | cons e rest =>
    simp only [flattenAll]
    refine (flattenWith_traced hS h e propagate).bind hS fun v => ?_
    exact (flattenAll_traced hS h rest propagate).bind hS fun _ => .pure hS _

end

end Flatten

/-- Resolving a name, under any guard, beside resolving it without one. What lets the guard pass gives the
same without it. -/
theorem resolve_traced {fuel free : Nat} {guard : List Text} (hfuel : Suffices bindings guard fuel)
    (hfree : Suffices bindings [] free) (loc : Location) (name : Text) :
    Traced bindings Seen
      (fun n => ∃ loc, ∃ s : State, s.scope.binding = bindings ∧ Exhibits Seen (resolve u fuel guard loc n) s)
      (resolve u fuel guard loc name) fun n f => stoppingAt n f (resolve u free []) loc name where
  keeps s hs := (resolve_computes fuel guard loc name s hs).2
  keeps_stopped n f s hs := by
    rw [stoppingAt]
    split
    · exact hs
    · exact (resolve_computes free [] loc name s hs).2
  agrees s a hs h n f t ht := by
    rw [stoppingAt]
    split
    · exact Or.inr rfl
    · left
      have hguarded := (resolve_computes (u := u) fuel guard loc name s hs).1
      rw [h] at hguarded
      obtain ⟨dom, hdom, hcard⟩ := hfuel
      obtain ⟨dom', hdom', hcard'⟩ := hfree
      have hfollow := guarded_le_follow hdom fuel guard hcard loc name a hguarded.symm
      have hle := follow_le_guarded hdom' fuel free [] hcard' (by simp) loc name a hfollow
      rw [← (resolve_computes free [] loc name t ht).1] at hle
      rcases hexec : ((resolve u free [] loc name).exec t).1 with f' | b
      · rw [hexec] at hle
        cases hle
      · rw [hexec] at hle
        cases hle
        rfl
  traced s hs h := by
    refine ⟨name, ⟨loc, s, hs, h⟩, fun f t ht => ?_⟩
    rw [stoppingAt, if_pos rfl]
    rfl

/-- What an evaluation under a guard is seen to do is done while a name is resolved that the expression asks
for, whatever of the scope beside its bindings has changed by then. -/
theorem exists_requests_of_exhibits (hS : Observation Seen) {fuel : Nat} {guard : List Text} {s₀ s : State}
    (hfuel : Suffices s₀.scope.binding guard fuel) (hs : s.scope.binding = s₀.scope.binding) {e : Expr}
    (h : Exhibits Seen (flattenWith u (resolve u fuel guard) e true) s) :
    ∃ name, Requests u s₀ e name ∧ ∃ loc, ∃ s' : State, s'.scope.binding = s₀.scope.binding ∧
      Exhibits Seen (resolve u fuel guard loc name) s' := by
  have htraced : Traced s₀.scope.binding Seen _ (flattenWith u (resolve u fuel guard) e true) _ :=
    flattenWith_traced hS (resolve_traced hfuel (suffices_resolveFuel s₀.scope [])) e true
  obtain ⟨name, hculprit, hstops⟩ := htraced.traced s hs h
  exact ⟨name, fun f => hstops f s₀ rfl, hculprit⟩

end Traced

end Eval

end MacroAsm
