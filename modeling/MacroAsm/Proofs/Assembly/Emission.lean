import MacroAsm.Assembly.Output
import MacroAsm.Proofs.Eval.Action

/-!
# Running the handling of statements

`Emission.exec` runs the handling of a statement from what was emitted so far and a state. As for actions,
there is one equation for each way to build a handling.

Facts about whole runs come in the form of a preorder of states and an invariant, as in `Emission.Yields`: if
every step leads on and keeps the invariant, then so does a sequence of steps (`Emission.Yields.bind`).
-/

namespace MacroAsm

variable {α β : Type}

/-- Items of which none is terminal are all taken by an open output. -/
theorem Output.items_pushAll {o : Output} (ho : o.closed = false) {items : List Item}
    (hitems : ∀ item ∈ items, item.token.isTerminal o.inMacro = false) :
    (o.pushAll items).items = o.items ++ items ∧ (o.pushAll items).closed = false := by
  induction items generalizing o with
  | nil => exact ⟨(List.append_nil _).symm, ho⟩
  | cons item rest ih =>
    rw [List.forall_mem_cons] at hitems
    have hclosed : (o.push item).closed = false := by
      rw [push, ho]
      exact hitems.1
    obtain ⟨hrest, hopen⟩ := ih hclosed (by rw [inMacro_push]; exact hitems.2)
    refine ⟨?_, hopen⟩
    rw [pushAll, List.foldl_cons]
    refine hrest.trans ?_
    rw [items_push_of_open ho, List.append_assoc]
    rfl

namespace Emission

/-- What the handling of a statement gives, what was emitted after it, and the state it leaves. -/
def exec (e : Emission α) (p : Output × State) : Except Failure α × (Output × State) :=
  let r := ((ExceptT.run e).run p.1).run p.2
  (r.1.1, (r.1.2, r.2))

@[simp]
theorem exec_pure (a : α) (p : Output × State) : (pure a : Emission α).exec p = (.ok a, p) := rfl

/-- A handling after another goes on from where the first one ends, unless that failed. -/
theorem exec_bind (e : Emission α) (k : α → Emission β) (p : Output × State) :
    (e >>= k).exec p =
      match e.exec p with
      | (.ok a, q) => (k a).exec q
      | (.error f, q) => (.error f, q) := by
  simp only [exec, ExceptT.run_bind, StateT.run_bind]
  rcases (((ExceptT.run e).run p.1).run p.2) with ⟨⟨r, out⟩, s⟩
  cases r <;> rfl

theorem exec_bind_of_ok {e : Emission α} {k : α → Emission β} {p q : Output × State} {a : α}
    (h : e.exec p = (.ok a, q)) : (e >>= k).exec p = (k a).exec q := by
  rw [exec_bind, h]

theorem exec_bind_of_error {e : Emission α} {k : α → Emission β} {p q : Output × State} {f : Failure}
    (h : e.exec p = (.error f, q)) : (e >>= k).exec p = (.error f, q) := by
  rw [exec_bind, h]

@[simp]
theorem exec_emitItem (item : Item) (p : Output × State) :
    (emitItem item).exec p = (.ok ⟨⟩, (p.1.push item, p.2)) := rfl

@[simp]
theorem exec_emitItems (items : List Item) (p : Output × State) :
    (emitItems items).exec p = (.ok ⟨⟩, (p.1.pushAll items, p.2)) := rfl

@[simp]
theorem exec_emit (t : Token) (p : Output × State) :
    (emit t).exec p = (.ok ⟨⟩, (p.1.push (.settled t), p.2)) := rfl

@[simp]
theorem exec_emitAll (ts : List Token) (p : Output × State) :
    (emitAll ts).exec p = (.ok ⟨⟩, (p.1.pushAll (ts.map .settled), p.2)) := rfl

@[simp]
theorem exec_warn (d : Diagnostic) (p : Output × State) :
    (warn d).exec p = (.ok ⟨⟩, (p.1.push (.message d), p.2)) := rfl

@[simp]
theorem exec_isClosed (p : Output × State) : isClosed.exec p = (.ok p.1.closed, p) := rfl

@[simp]
theorem exec_report (d : Diagnostic) (p : Output × State) :
    (report d : Emission α).exec p = (.error (.report d), p) := rfl

@[simp]
theorem exec_raise (c : Cause) (p : Output × State) :
    (raise c : Emission α).exec p = (.error (.raise c), p) := rfl

@[simp]
theorem exec_require (x : Except Cause α) (p : Output × State) :
    (require x).exec p = (x.mapError .raise, p) := by
  cases x <;> rfl

theorem exec_perform (act : StateM State α) (p : Output × State) :
    (perform act).exec p = (.ok (act.run p.2).1, (p.1, (act.run p.2).2)) := rfl

theorem exec_monadLift (act : Act α) (p : Output × State) :
    (liftM act : Emission α).exec p = ((act.exec p.2).1, (p.1, (act.exec p.2).2)) := rfl

theorem exec_scope (p : Output × State) :
    (liftM Act.scope : Emission Scope).exec p = (.ok p.2.scope, p) := rfl

@[simp]
theorem exec_getThe (p : Output × State) :
    (getThe State : Emission State).exec p = (.ok p.2, p) := rfl

/-- The items of a handling, with the diagnostic of a failure. -/
theorem run_output (e : Emission PUnit) (inMacro : Bool) (loc : Location) (s : State) :
    (e.output inMacro loc).run s =
      match e.exec (Output.empty inMacro, s) with
      | (.ok _, q) => q
      | (.error f, q) => (q.1.push (.message (f.toDiagnostic loc)), q.2) := by
  cases hrun : (ExceptT.run e (Output.empty inMacro)).run s with
  | mk a s' =>
    obtain ⟨r, out⟩ := a
    have hexec : e.exec (Output.empty inMacro, s) = (r, (out, s')) := by
      have hrun' : ((ExceptT.run e).run (Output.empty inMacro)).run s = ((r, out), s') := hrun
      rw [exec, hrun']
    rw [hexec, output, StateT.run_bind, hrun]
    cases r <;> rfl

section Yields

variable {R : State → State → Prop} {I : Output × State → Prop} {Q : α → State → Prop}
  {p : Output × State}

/-- From where it begins a handling leads on by `R` and keeps the invariant `I`, and a result that it gives
satisfies `Q` in the state it leaves. -/
structure Yields (R : State → State → Prop) (I : Output × State → Prop) (Q : α → State → Prop)
    (e : Emission α) (p : Output × State) : Prop where
  /-- It leads on. -/
  rel : R p.2 (e.exec p).2.2
  /-- It keeps the invariant. -/
  inv : I (e.exec p).2
  /-- What holds of the result. -/
  result : ∀ a, (e.exec p).1 = .ok a → Q a (e.exec p).2.2

/-- A preorder of states and an invariant that it keeps as long as nothing is emitted. -/
structure Invariant (R : State → State → Prop) (I : Output × State → Prop) : Prop
    extends Progress R where
  /-- The invariant is kept. -/
  stable : ∀ out s s', R s s' → I (out, s) → I (out, s')

/-- A result that is there already. -/
theorem Yields.pure (hR : Invariant R I) (hp : I p) {a : α} (ha : Q a p.2) :
    Yields R I Q (Pure.pure a) p := by
  refine ⟨hR.refl p.2, hp, fun b hb => ?_⟩
  cases hb
  exact ha

theorem Yields.raise (hR : Invariant R I) (hp : I p) (c : Cause) :
    Yields R I Q (Emission.raise c : Emission α) p :=
  ⟨hR.refl p.2, hp, fun _ h => by cases h⟩

theorem Yields.report (hR : Invariant R I) (hp : I p) (d : Diagnostic) :
    Yields R I Q (Emission.report d : Emission α) p :=
  ⟨hR.refl p.2, hp, fun _ h => by cases h⟩

/-- The result of a computation. -/
theorem Yields.require (hR : Invariant R I) (hp : I p) {x : Except Cause α}
    (hx : ∀ a, x = .ok a → Q a p.2) : Yields R I Q (Emission.require x) p := by
  cases x with
  | ok a => exact .pure hR hp (hx a rfl)
  | error c => exact .raise hR hp c

/-- A handling that goes on with the result of another. -/
theorem Yields.bind (hR : Invariant R I) {e : Emission α} {k : α → Emission β}
    {Q' : β → State → Prop} (he : Yields R I Q e p)
    (hk : ∀ a q, R p.2 q.2 → I q → Q a q.2 → Yields R I Q' (k a) q) :
    Yields R I Q' (e >>= k) p := by
  obtain ⟨hrel, hinv, hresult⟩ := he
  cases hexec : e.exec p with
  | mk r q =>
    rw [hexec] at hrel hinv hresult
    cases r with
    | ok a =>
      obtain ⟨hrel', hinv', hresult'⟩ := hk a q hrel hinv (hresult a rfl)
      rw [← exec_bind_of_ok hexec (k := k)] at hrel' hinv' hresult'
      exact ⟨hR.trans _ _ _ hrel hrel', hinv', hresult'⟩
    | error f =>
      have hfail := exec_bind_of_error hexec (k := k)
      refine ⟨?_, ?_, fun b hb => ?_⟩
      · rwa [hfail]
      · rwa [hfail]
      · rw [hfail] at hb
        cases hb

theorem Yields.act (hR : Invariant R I) (hp : I p) {act : Act α} (hact : act.Yields R Q p.2) :
    Yields R I Q (liftM act : Emission α) p :=
  ⟨hact.1, hR.stable p.1 p.2 _ hact.1 hp, hact.2⟩

/-- What emits, and leaves the state as it is. -/
theorem Yields.emit (hR : Invariant R I) {e : Emission PUnit} {out : Output}
    (he : e.exec p = (.ok ⟨⟩, (out, p.2))) (hout : I (out, p.2)) :
    Yields R I (fun _ _ => True) e p := by
  refine ⟨?_, ?_, fun _ _ => trivial⟩
  · rw [he]
    exact hR.refl p.2
  · rwa [he]

/-- Handlings for the elements of a list. -/
theorem Yields.forM (hR : Invariant R I) {xs : List β} {step : β → Emission PUnit}
    (hstep : ∀ x ∈ xs, ∀ q, R p.2 q.2 → I q → Yields R I (fun _ _ => True) (step x) q) (hp : I p) :
    Yields R I (fun _ _ => True) (xs.forM step) p := by
  induction xs generalizing p with
  | nil => exact .pure hR hp trivial
  | cons x rest ih =>
    refine (hstep x List.mem_cons_self p (hR.refl p.2) hp).bind hR fun _ q hpq hq _ => ?_
    exact ih (fun y hy r hqr hr => hstep y (List.mem_cons_of_mem x hy) r (hR.trans _ _ _ hpq hqr) hr) hq

end Yields

end Emission

end MacroAsm
