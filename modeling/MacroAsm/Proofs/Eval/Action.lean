import MacroAsm.Eval.State

/-!
# Running actions

`Act.exec` runs an action from a state. What it gives is computed by one equation for each way to build an
action: the end of a failing one is the end of the whole, and its changes stay.

Facts about runs come in the form of a preorder of states, as in `Act.Yields`: if every step leads on, then so
does a sequence of steps (`Act.Yields.bind`).
-/

namespace MacroAsm

/-- A computation that goes on after another gives what is left once that gave its result. -/
theorem Except.bind_eq_ok_iff {ε α β : Type} {x : Except ε α} {k : α → Except ε β} {b : β} :
    x >>= k = .ok b ↔ ∃ a, x = .ok a ∧ k a = .ok b := by
  cases x with
  | ok a => simp [bind, Except.bind]
  | error e => simp [bind, Except.bind]

theorem StateM.run_bind {σ α β : Type} (x : StateM σ α) (k : α → StateM σ β) (s : σ) :
    (x >>= k).run s = (k (x.run s).1).run (x.run s).2 := rfl

theorem StateM.run_pure {σ α : Type} (a : α) (s : σ) : (pure a : StateM σ α).run s = (a, s) := rfl

/-- A preorder of states. -/
structure Progress (R : State → State → Prop) : Prop where
  /-- Nothing happens. -/
  refl : ∀ s, R s s
  /-- One thing happens after another. -/
  trans : ∀ x y z, R x y → R y z → R x z

namespace Act

variable {α β : Type}

/-- What an action gives, and the state it leaves. -/
def exec (act : Act α) (s : State) : Except Failure α × State := (ExceptT.run act).run s

@[simp]
theorem exec_pure (a : α) (s : State) : (pure a : Act α).exec s = (.ok a, s) := rfl

@[simp]
theorem exec_raise (c : Cause) (s : State) :
    (raise c : Act α).exec s = (.error (.raise c), s) := rfl

@[simp]
theorem exec_report (d : Diagnostic) (s : State) :
    (report d : Act α).exec s = (.error (.report d), s) := rfl

@[simp]
theorem exec_scope (s : State) : scope.exec s = (.ok s.scope, s) := rfl

@[simp]
theorem exec_setScope (scope : Scope) (s : State) :
    (setScope scope).exec s = (.ok (), { s with scope }) := rfl

@[simp]
theorem exec_modifyScope (g : Scope → Scope) (s : State) :
    (modifyScope g).exec s = (.ok (), { s with scope := g s.scope }) := rfl

@[simp]
theorem exec_fresh (s : State) :
    fresh.exec s = (.ok s.supply, { s with supply := s.supply + 1 }) := rfl

/-- An action after another runs on the state that the first one leaves, unless that failed. -/
theorem exec_bind (act : Act α) (k : α → Act β) (s : State) :
    (act >>= k).exec s =
      match act.exec s with
      | (.ok a, s') => (k a).exec s'
      | (.error f, s') => (.error f, s') := by
  simp only [exec, ExceptT.run_bind, StateT.run_bind]
  cases (ExceptT.run act).run s with
  | mk r s' => cases r <;> rfl

theorem exec_bind_of_ok {act : Act α} {k : α → Act β} {s s' : State} {a : α}
    (h : act.exec s = (.ok a, s')) : (act >>= k).exec s = (k a).exec s' := by
  rw [exec_bind, h]

theorem exec_bind_of_error {act : Act α} {k : α → Act β} {s s' : State} {f : Failure}
    (h : act.exec s = (.error f, s')) : (act >>= k).exec s = (.error f, s') := by
  rw [exec_bind, h]

@[simp]
theorem exec_lift (x : Except Cause α) (s : State) :
    (lift x).exec s = (x.mapError .raise, s) := by
  cases x <;> rfl

section Yields

variable {R : State → State → Prop} {Q : α → State → Prop} {s : State}

/-- From a state an action leads on by `R`, and a result that it gives satisfies `Q` in the state it
leaves. -/
def Yields (R : State → State → Prop) (Q : α → State → Prop) (act : Act α) (s : State) : Prop :=
  R s (act.exec s).2 ∧ ∀ a, (act.exec s).1 = .ok a → Q a (act.exec s).2

/-- A result that is there already. -/
theorem Yields.pure (hR : R s s) {a : α} (ha : Q a s) : Yields R Q (Pure.pure a) s := by
  refine ⟨hR, fun b hb => ?_⟩
  cases hb
  exact ha

theorem Yields.raise (hR : R s s) (c : Cause) : Yields R Q (Act.raise c : Act α) s :=
  ⟨hR, fun _ h => by cases h⟩

theorem Yields.report (hR : R s s) (d : Diagnostic) : Yields R Q (Act.report d : Act α) s :=
  ⟨hR, fun _ h => by cases h⟩

/-- The result of a computation. -/
theorem Yields.lift (hR : R s s) {x : Except Cause α} (hx : ∀ a, x = .ok a → Q a s) :
    Yields R Q (Act.lift x) s := by
  cases x with
  | ok a => exact .pure hR (hx a rfl)
  | error c => exact .raise hR c

/-- An action that goes on with the result of another. -/
theorem Yields.bind (htrans : ∀ x y z, R x y → R y z → R x z) {act : Act α} {k : α → Act β}
    {Q' : β → State → Prop} (hact : Yields R Q act s)
    (hk : ∀ a s', R s s' → Q a s' → Yields R Q' (k a) s') : Yields R Q' (act >>= k) s := by
  obtain ⟨hR, hQ⟩ := hact
  cases hexec : act.exec s with
  | mk r s' =>
    rw [hexec] at hR hQ
    cases r with
    | ok a =>
      obtain ⟨hR', hQ'⟩ := hk a s' hR (hQ a rfl)
      rw [Yields, exec_bind_of_ok hexec]
      exact ⟨htrans _ _ _ hR hR', hQ'⟩
    | error f =>
      rw [Yields, exec_bind_of_error hexec]
      exact ⟨hR, fun _ h => by cases h⟩

theorem Yields.imp {act : Act α} {Q' : α → State → Prop} (h : Yields R Q act s)
    (himp : ∀ a s', Q a s' → Q' a s') : Yields R Q' act s :=
  ⟨h.1, fun a ha => himp a _ (h.2 a ha)⟩

end Yields

section Gives

variable {Q : α → Prop}

/-- Every result that an action gives satisfies `Q`, whatever state it begins in. -/
def Gives (Q : α → Prop) (act : Act α) : Prop := ∀ s a, (act.exec s).1 = .ok a → Q a

/-- A result that is there already. -/
theorem Gives.pure {a : α} (ha : Q a) : Gives Q (Pure.pure a) := by
  intro s b hb
  cases hb
  exact ha

/-- An action that goes on with the result of another. -/
theorem Gives.bind {act : Act α} {k : α → Act β} {Q' : β → Prop} (hact : Gives Q act)
    (hk : ∀ a, Q a → Gives Q' (k a)) : Gives Q' (act >>= k) := by
  intro s b hb
  cases hexec : act.exec s with
  | mk r s' =>
    cases r with
    | ok a =>
      rw [exec_bind_of_ok hexec] at hb
      exact hk a (hact s a (by rw [hexec])) s' b hb
    | error f =>
      rw [exec_bind_of_error hexec] at hb
      cases hb

theorem Gives.andThen {act : Act α} {k : α → Act β} {Q' : β → Prop} (hk : ∀ a, Gives Q' (k a)) :
    Gives Q' (act >>= k) :=
  Gives.bind (Q := fun _ => True) (fun _ _ _ => trivial) fun a _ => hk a

end Gives

end Act

end MacroAsm
