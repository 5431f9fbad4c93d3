import MacroAsm.Proofs.Eval.Computes
import MacroAsm.Proofs.Eval.Requests

/-!
# Names that wait to be bound

A name waits in a scope if it was asked for and stands for nothing (`Scope.awaits`). Evaluation binds no name
and forgets none that was asked for, which makes a preorder of states (`State.Continues`), and every name that
an evaluated expression is left with waits (`Eval.evaluates_continues`): a name that is bound would have been
followed, and the fuel of the evaluator is enough to follow every name that is.
-/

namespace MacroAsm

namespace Scope

/-- Whether a name was asked for. -/
def isUsed (s : Scope) (name : Text) : Bool := (s.find? name).any Symbol.used

/-- Whether a name was asked for and stands for nothing. -/
def awaits (s : Scope) (name : Text) : Bool := (s.find? name).any fun sym => sym.used && !sym.isSet

/-- A name waits if it was asked for and is bound to nothing. -/
theorem awaits_iff {s : Scope} {name : Text} :
    s.awaits name = true ↔ s.isUsed name = true ∧ (s.binding name).isSet = false := by
  rw [awaits, isUsed, binding]
  cases s.find? name with
  | none => simp
  | some sym =>
    have hset : sym.binding.isSet = sym.isSet := rfl
    simp [hset]

/-- A change that leaves a symbol used leaves every name used that was. -/
theorem isUsed_modify {g : Symbol → Symbol} (hg : ∀ sym : Symbol, sym.used = true → (g sym).used = true)
    {s : Scope} (name : Text) {other : Text} (h : s.isUsed other = true) :
    (s.modify name g).isUsed other = true := by
  rw [isUsed, find?_modify]
  split
  · rw [isUsed] at h
    cases hfind : s.find? other with
    | none =>
      rw [hfind] at h
      cases h
    | some sym =>
      rw [hfind] at h
      exact hg sym h
  · exact h

end Scope

/-- What evaluation leaves of a state: no name stands for anything else, and those that were asked for are
still there. -/
structure State.Continues (s s' : State) : Prop where
  /-- What names stand for. -/
  binding : s'.scope.binding = s.scope.binding
  /-- The names that were asked for. -/
  isUsed : ∀ name, s.scope.isUsed name = true → s'.scope.isUsed name = true

namespace State.Continues

variable {s s' : State}

theorem of_scope_eq (h : s'.scope = s.scope) : s.Continues s' := by
  refine ⟨by rw [h], fun name hname => ?_⟩
  rwa [h]

/-- A symbol changes beside what it stands for, and stays used. -/
theorem modify (s : State) (name : Text) {g : Symbol → Symbol}
    (hbinding : ∀ sym, (g sym).binding = sym.binding)
    (hused : ∀ sym : Symbol, sym.used = true → (g sym).used = true) :
    s.Continues { s with scope := s.scope.modify name g } :=
  ⟨Scope.binding_modify hbinding s.scope name, fun _ h => Scope.isUsed_modify hused name h⟩

/-- Names that wait go on waiting. -/
theorem awaits (h : s.Continues s') {name : Text} (hname : s.scope.awaits name = true) :
    s'.scope.awaits name = true := by
  obtain ⟨hused, hunset⟩ := Scope.awaits_iff.1 hname
  refine Scope.awaits_iff.2 ⟨h.isUsed name hused, ?_⟩
  rwa [h.binding]

end State.Continues

namespace Eval

/-- Asking for a name binds nothing, and the name counts as asked for from now on. -/
theorem request_continues (loc : Location) (name : Text) (s : State) :
    s.Continues ((request loc name).exec s).2 ∧
      ((request loc name).exec s).2.scope.isUsed name = true := by
  rw [request, Act.exec_bind_of_ok (Act.exec_scope s)]
  cases hfind : s.scope.find? name with
  | some sym =>
    refine ⟨.modify s name (fun _ => rfl) fun _ _ => rfl, ?_⟩
    show (s.scope.modify name _).isUsed name = true
    rw [Scope.isUsed, Scope.find?_modify, if_pos rfl, hfind]
    rfl
  | none =>
    simp only [Scope.declareLocal_of_find?_eq_none hfind]
    -- the name is declared, and its symbol changes then
    have hdeclared : s.Continues { s with scope := s.scope.modifyTop fun f => f.insert name {} } := by
      refine ⟨Scope.binding_declare hfind, fun other hother => ?_⟩
      show (s.scope.modifyTop fun f => f.insert name {}).isUsed other = true
      rw [Scope.isUsed, Scope.find?_modifyTop_insert]
      split
      · rename_i heq
        rw [heq, Scope.isUsed, hfind] at hother
        cases hother
      · exact hother
    have hchanged := State.Continues.modify
      { s with scope := s.scope.modifyTop fun f => f.insert name {} } name
      (g := fun sym => { sym with loc, frozen := true, used := true }) (fun _ => rfl) fun _ _ => rfl
    refine ⟨⟨hchanged.binding.trans hdeclared.binding, fun other hother => ?_⟩, ?_⟩
    · exact hchanged.isUsed other (hdeclared.isUsed other hother)
    · show ((s.scope.modifyTop fun f => f.insert name {}).modify name _).isUsed name = true
      rw [Scope.isUsed, Scope.find?_modify, if_pos rfl, Scope.find?_modifyTop_insert, if_pos rfl]
      rfl

/-- Evaluation binds no name, and what it asks for was asked for. -/
theorem tracks_continues : Tracks State.Continues fun s name => s.scope.isUsed name = true where
  refl _ := .of_scope_eq rfl
  trans _ _ _ hxy hyz :=
    ⟨hyz.binding.trans hxy.binding, fun name h => hyz.isUsed name (hxy.isUsed name h)⟩
  known _ _ name h hname := h.isUsed name hname
  request := request_continues
  deferred _ := .of_scope_eq rfl

/-- What is known of a name as long as nothing is bound that was not bound before: it waits. -/
def WaitsIn (bindings : Text → Binding) (s : State) (name : Text) : Prop :=
  s.scope.binding = bindings → s.scope.awaits name = true

theorem retains_waitsIn (bindings : Text → Binding) : Retains State.Continues (WaitsIn bindings) where
  toProgress := tracks_continues.toProgress
  known _ _ _ h hknown hbinding := h.awaits (hknown (h.binding.symm.trans hbinding))

section Resolve

variable {u : Surroundings} {bindings : Text → Binding} {dom : Finset Text}

/-- Asking for a name gives a symbol that stands for what the name does. -/
theorem request_yields (loc : Location) (name : Text) (s : State) :
    Act.Yields State.Continues
      (fun sym s' => s'.scope.isUsed name = true ∧ sym.binding = s'.scope.binding name)
      (request loc name) s := by
  obtain ⟨hcontinues, hused⟩ := request_continues loc name s
  obtain ⟨sym, s', hexec, hsym, hbinding⟩ := exec_request loc name s
  rw [hexec] at hcontinues hused
  rw [Act.Yields, hexec]
  refine ⟨hcontinues, fun found hfound => ⟨hused, ?_⟩⟩
  cases hfound
  rw [hsym, hbinding]

/-- Over other bindings nothing is to be known of what is left. -/
theorem yields_of_binding_ne {act : Act Expr} {s : State} {Q : Expr → State → Prop}
    (h : s.scope.binding ≠ bindings) (hact : Act.Yields State.Continues Q act s) :
    Act.Yields State.Continues (Awaits (WaitsIn bindings) true) act s :=
  ⟨hact.1, fun _ _ _ _ _ hbinding => absurd (hact.1.binding.symm.trans hbinding) h⟩

/-- What resolving a name leaves waits, if what is left of the value that it is bound to does. -/
theorem resolveOnce_waits {evaluate : Expr → Act Expr} {guard : List Text} {name : Text}
    (hevaluate : name ∉ guard → ∀ value s, (s.scope.binding = bindings →
      (bindings name).value.isSome = true) →
      Act.Yields State.Continues (Awaits (WaitsIn bindings) true) (evaluate value) s)
    (loc : Location) (s : State) :
    Act.Yields State.Continues (Awaits (WaitsIn bindings) true) (resolveOnce evaluate guard loc name) s := by
  have hR := retains_waitsIn bindings
  rw [resolveOnce]
  split
  · rename_i hchain
    have hguard : name ∉ guard := by
      intro hmem
      have hbne := List.dropWhile_eq_nil_iff.1 hchain name hmem
      simp at hbne
    refine (request_yields loc name s).bind hR.trans fun sym s1 _ hsym => ?_
    split
    · exact .raise (hR.refl s1) _
    · rename_i hplain
      split
      · rename_i value hvalue
        refine (hevaluate hguard value s1 fun hbinding => ?_).bind hR.trans fun v s2 _ hv => ?_
        · rw [← hbinding, ← hsym.2, Symbol.binding, hvalue]
          rfl
        · refine .pure (hR.refl s2) ?_
          rwa [Awaits, requested_tag]
      · -- the name is bound to nothing, so it is left and waits
        rename_i hvalue
        refine .pure (hR.refl s1) fun _ other hother _ => ?_
        rw [Expr.requested, List.mem_singleton] at hother
        rw [hother, Scope.awaits_iff, ← hsym.2]
        refine ⟨hsym.1, ?_⟩
        rw [Symbol.binding, Binding.isSet, hvalue]
        simpa using hplain
  · exact .report (hR.refl s) _

/-- What resolving a name leaves waits, if there is fuel for every bound name that is not under guard. -/
theorem resolve_waits (hargs : ∀ a ∈ u.args, a.requested = [])
    (hdom : ∀ name, (bindings name).value.isSome → name ∈ dom) (fuel : Nat) (guard : List Text)
    (hfuel : (dom \ guard.toFinset).card ≤ fuel) (loc : Location) (name : Text) (s : State) :
    Act.Yields State.Continues (Awaits (WaitsIn bindings) true) (resolve u fuel guard loc name) s := by
  have hR := retains_waitsIn bindings
  have hnone : ∀ {Known : State → Text → Prop}, ∀ a ∈ u.args, ∀ s, Awaits Known true a s :=
    fun a ha s => .of_requested_eq_nil (hargs a ha)
  induction fuel generalizing guard loc name s with
  | zero =>
    rw [resolve]
    refine resolveOnce_waits (fun hguard value s' hsome => .pure (hR.refl s') ?_) loc s
    -- a name that is bound and not under guard would have to have fuel
    intro _ _ _ hbinding
    have hmem := hdom name (hsome hbinding)
    have hcard := card_sdiff_guard hmem hguard
    omega
  | succ fuel ih =>
    rw [resolve]
    refine resolveOnce_waits (fun hguard value s' hsome => ?_) loc s
    by_cases hbinding : s'.scope.binding = bindings
    · have hcard := card_sdiff_guard (hdom name (hsome hbinding)) hguard
      have hres := ih (guard ++ [name]) (by omega)
      exact flattenWith_yields hR hnone hres value true s'
    · refine yields_of_binding_ne hbinding (flattenWith_yields tracks_continues.toRetains hnone ?_ value true s')
      exact resolve_yields tracks_continues hnone fuel _

/-- Evaluation binds no name, and every name that an evaluated expression is left with waits. -/
theorem evaluates_continues (hargs : ∀ a ∈ u.args, a.requested = []) :
    Evaluates u State.Continues fun s name => s.scope.awaits name = true := by
  have hnone : ∀ {Known : State → Text → Prop}, ∀ a ∈ u.args, ∀ s, Awaits Known true a s :=
    fun a ha s => .of_requested_eq_nil (hargs a ha)
  have hR := tracks_continues.evaluates (u := u) hnone
  refine ⟨⟨hR.toProgress, fun _ _ name h hname => h.awaits hname⟩, fun e guard s => ?_, hR.name, hR.deferred⟩
  rw [flattenGuarded, Act.Yields, Act.exec_bind_of_ok (Act.exec_scope s)]
  have hfuel : (domain s.scope \ guard.toFinset).card ≤ resolveFuel s.scope :=
    (Finset.card_le_card Finset.sdiff_subset).trans (card_domain_lt s.scope).le
  obtain ⟨hcontinues, hwaits⟩ := flattenWith_yields (retains_waitsIn s.scope.binding) hnone
    (resolve_waits hargs (mem_domain_of_isSome s.scope) (resolveFuel s.scope) guard hfuel) e true s
  exact ⟨hcontinues, fun v hv hp name hname => hwaits v hv hp name hname hcontinues.binding⟩

end Resolve

end Eval

end MacroAsm
