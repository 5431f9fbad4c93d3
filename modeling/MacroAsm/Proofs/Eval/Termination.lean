import MacroAsm.Proofs.Eval.Computes

/-!
# Resolving names without fuel

Resolving a name calls itself through the values that the name leads to (`Eval.Resolves`), and nothing in that
recursion gets smaller by itself. It ends all the same: every name that is followed goes under guard, and
evaluation never changes what a name is bound to, so no more names are followed than are bound when it begins.
Hence the recursion determines what it computes (`Eval.existsUnique_resolves`), and evaluation, which counts
its steps down from the number of bound names, computes just that (`Eval.Resolves.flattenGuarded_eq`).
-/

namespace MacroAsm

namespace Eval

variable {α β : Type} {bindings : Text → Binding} {u : Surroundings}

/-- Two actions do the same over every scope with the bindings, and keep them. -/
def Matches (bindings : Text → Binding) (x y : Act α) : Prop :=
  ∀ s : State, s.scope.binding = bindings →
    x.exec s = y.exec s ∧ (x.exec s).2.scope.binding = bindings

namespace Matches

theorem eq {x y : Act α} (h : ∀ bindings, Matches bindings x y) : x = y :=
  funext fun s => (h s.scope.binding s rfl).1

theorem of_computes {x : Act α} {r : Option α} (h : Computes bindings x r) : Matches bindings x x :=
  fun s hs => ⟨rfl, (h s hs).2⟩

theorem pure (a : α) : Matches bindings (Pure.pure a) (Pure.pure a) := of_computes (.pure a)

theorem raise (c : Cause) : Matches bindings (Act.raise c : Act α) (Act.raise c) := of_computes (.raise c)

theorem lift (x : Except Cause α) : Matches bindings (Act.lift x) (Act.lift x) := of_computes (.lift x)

/-- Actions that go on with the results of others. -/
theorem bind {x y : Act α} {k l : α → Act β} (h : Matches bindings x y)
    (hk : ∀ a, Matches bindings (k a) (l a)) : Matches bindings (x >>= k) (y >>= l) := by
  intro s hs
  obtain ⟨heq, hkeep⟩ := h s hs
  rcases hexec : x.exec s with ⟨r, s'⟩
  rw [hexec] at heq hkeep
  cases r with
  | ok a =>
    rw [Act.exec_bind_of_ok hexec, Act.exec_bind_of_ok heq.symm]
    exact hk a s' hkeep
  | error f =>
    rw [Act.exec_bind_of_error hexec, Act.exec_bind_of_error heq.symm]
    exact ⟨rfl, hkeep⟩

end Matches

section Flatten

variable {ρ σ : Location → Text → Act Expr}

/-- A built name is resolved where that is asked for. -/
theorem spell_matches (h : ∀ loc name, Matches bindings (ρ loc name) (σ loc name)) (propagate : Bool)
    (loc : Location) (name : Text) :
    Matches bindings (if propagate then ρ loc name else return .identifier loc name : Act Expr)
      (if propagate then σ loc name else return .identifier loc name) := by
  cases propagate with
  | true => exact h loc name
  | false => exact .pure _

/-- A number is appended to a name once it is known. -/
theorem join_matches (h : ∀ loc name, Matches bindings (ρ loc name) (σ loc name)) (propagate : Bool)
    (op : BinaryOp) (loc : Location) (l : Expr) (name : Text) (r : Expr) :
    Matches bindings
      (if r.isConcrete then do
        let name := name ++ suffix op (← Act.lift r.asNumber)
        if propagate then ρ loc name else return .identifier loc name
      else return .binary loc op l r)
      (if r.isConcrete then do
        let name := name ++ suffix op (← Act.lift r.asNumber)
        if propagate then σ loc name else return .identifier loc name
      else return .binary loc op l r) := by
  split
  · exact (Matches.lift _).bind fun n => spell_matches h propagate loc _
  · exact .pure _

mutual

/-- Evaluation depends on how names are resolved over the bindings only. -/
theorem flattenWith_matches (h : ∀ loc name, Matches bindings (ρ loc name) (σ loc name)) :
    ∀ (e : Expr) (propagate : Bool),
      Matches bindings (flattenWith u ρ e propagate) (flattenWith u σ e propagate) := by
  intro e propagate
  cases e with
  | numeral loc digits =>
    rw [flattenWith, flattenWith]
    exact .of_computes (readNumeral_computes loc digits)
  | identifier loc name =>
    rw [flattenWith, flattenWith]
    exact spell_matches h propagate loc name
  | unary loc op value =>
    by_cases hop : op = .macroLocal
    · subst hop
      rw [flattenWith, flattenWith]
      refine (flattenWith_matches h value false).bind fun v => ?_
      cases v with
      | identifier => exact spell_matches h propagate loc _
      | _ => exact .raise _
    · rw [flattenWith, flattenWith]
      · refine (flattenWith_matches h value propagate).bind fun v => ?_
        split
        · exact .lift _
        · exact .pure _
      all_goals exact hop
  | binary loc op left right =>
    have hleft := flattenWith_matches h left
    have hright := flattenWith_matches h right
    cases op with
    | joinNames =>
      rw [flattenWith, flattenWith]
      refine (hleft false).bind fun l => ?_
      cases l with
      | identifier _ name =>
        refine (hright false).bind fun r => ?_
        cases r with
        | identifier => exact spell_matches h propagate loc _
        | _ => exact .raise _
      | _ => exact .raise _
    | joinDecimal =>
      rw [flattenWith, flattenWith]
      refine (hleft false).bind fun l => ?_
      cases l with
      | identifier loc' name =>
        exact (hright true).bind fun r => join_matches h propagate .joinDecimal loc _ name r
      | _ => exact .raise _
    | joinHex =>
      rw [flattenWith, flattenWith]
      refine (hleft false).bind fun l => ?_
      cases l with
      | identifier loc' name =>
        exact (hright true).bind fun r => join_matches h propagate .joinHex loc _ name r
      | _ => exact .raise _
    | or =>
      rw [flattenWith, flattenWith]
      refine (hleft propagate).bind fun l => ?_
      split
      · refine (Matches.lift _).bind fun t => ?_
        cases t with
        | true => exact .pure _
        | false => exact hright propagate
      · exact (hright propagate).bind fun r => .pure _
    | and =>
      rw [flattenWith, flattenWith]
      refine (hleft propagate).bind fun l => ?_
      split
      · refine (Matches.lift _).bind fun t => ?_
        cases t with
        | true => exact hright propagate
        | false => exact .pure _
      · exact (hright propagate).bind fun r => .pure _
    | _ =>
      rw [flattenWith, flattenWith]
      · refine (hleft propagate).bind fun l => (hright propagate).bind fun r => ?_
        split
        · exact .lift _
        · exact .pure _
      all_goals simp
  | ternary loc test onTrue onFalse =>
    rw [flattenWith, flattenWith]
    refine (flattenWith_matches h test propagate).bind fun t => ?_
    split
    · refine (Matches.lift _).bind fun holds => ?_
      cases holds with
      | true => exact flattenWith_matches h onTrue propagate
      | false => exact flattenWith_matches h onFalse propagate
    · refine (flattenWith_matches h onTrue propagate).bind fun a => ?_
      exact (flattenWith_matches h onFalse propagate).bind fun b => .pure _
  | call loc name params =>
    rw [flattenWith, flattenWith]
    cases Builtin.ofName? name with
    | none => exact .raise _
    | some f =>
      refine (flattenAll_matches h params propagate).bind fun args => ?_
      split
      · exact .lift _
      · exact .pure _
  | absolute loc address =>
    rw [flattenWith, flattenWith]
    exact (flattenWith_matches h address propagate).bind fun _ => .pure _
  | displaced loc base displace =>
    rw [flattenWith, flattenWith]
    exact (flattenWith_matches h displace propagate).bind fun _ => .pure _
  | offset loc base value =>
    rw [flattenWith, flattenWith]
    exact (flattenWith_matches h value propagate).bind fun _ => .pure _
  | _ =>
    rw [flattenWith, flattenWith]
    exact .pure _

/-- Evaluating the expressions of a list depends on how names are resolved over the bindings only. -/
theorem flattenAll_matches (h : ∀ loc name, Matches bindings (ρ loc name) (σ loc name)) :
    ∀ (es : List Expr) (propagate : Bool),
      Matches bindings (flattenAll u ρ es propagate) (flattenAll u σ es propagate) := by
  intro es propagate
  cases es with
  | nil =>
    rw [flattenAll, flattenAll]
    exact .pure _
  | cons e rest =>
    rw [flattenAll, flattenAll]
    refine (flattenWith_matches h e propagate).bind fun v => ?_
    exact (flattenAll_matches h rest propagate).bind fun _ => .pure _

end

end Flatten

/-- Resolving a name once depends on how the value that the name is bound to is evaluated, and on that only if
the name is not being followed. -/
theorem resolveOnce_matches {evaluate evaluate' : Expr → Act Expr} {guard : List Text} {name : Text}
    (h : ∀ value, name ∉ guard → (bindings name).value = some value →
      Matches bindings (evaluate value) (evaluate' value)) (loc : Location) :
    Matches bindings (resolveOnce evaluate guard loc name) (resolveOnce evaluate' guard loc name) := by
  rw [resolveOnce, resolveOnce]
  split
  · rename_i hchain
    have hguard : name ∉ guard := fun hmem => by
      simpa using List.dropWhile_eq_nil_iff.1 hchain name hmem
    intro s hs
    obtain ⟨sym, s', hexec, hsym, hs'⟩ := exec_request loc name s
    rw [hs] at hsym hs'
    rw [Act.exec_bind_of_ok hexec, Act.exec_bind_of_ok hexec]
    split
    · exact ⟨rfl, hs'⟩
    · cases hvalue : sym.value with
      | none => exact ⟨rfl, hs'⟩
      | some value =>
        have hbound : (bindings name).value = some value := by rw [← hsym, ← hvalue]; rfl
        exact (h value hguard hbound).bind (fun v => .pure (tag name v)) s' hs'
  · exact .of_computes (.report _)

/-- There are fewer names that are bound and not being followed than there are steps. -/
def Suffices (bindings : Text → Binding) (guard : List Text) (fuel : Nat) : Prop :=
  ∃ dom : Finset Text, (∀ name, (bindings name).value.isSome → name ∈ dom) ∧
    (dom \ guard.toFinset).card < fuel

/-- The names of a scope suffice. -/
theorem suffices_resolveFuel (s : Scope) (guard : List Text) :
    Suffices s.binding guard (resolveFuel s) :=
  ⟨domain s, mem_domain_of_isSome s,
    (Finset.card_le_card Finset.sdiff_subset).trans_lt (card_domain_lt s)⟩

/-- Each name that is followed takes one step, and goes under guard. -/
theorem Suffices.step {guard : List Text} {fuel : Nat} (h : Suffices bindings guard (fuel + 1)) {name : Text}
    (hname : name ∉ guard) {value : Expr} (hvalue : (bindings name).value = some value) :
    Suffices bindings (guard ++ [name]) fuel := by
  obtain ⟨dom, hdom, hcard⟩ := h
  have hlt := card_sdiff_guard (hdom name (by rw [hvalue]; rfl)) hname
  exact ⟨dom, hdom, by omega⟩

/-- The recursion by which names are resolved: the value of a name is evaluated while the name is being
followed. -/
def Resolves (u : Surroundings) (ρ : List Text → Location → Text → Act Expr) : Prop :=
  ∀ guard loc name, ρ guard loc name =
    resolveOnce (fun value => flattenWith u (ρ (guard ++ [name])) value true) guard loc name

/-- Whatever obeys the recursion computes what counted steps compute, as long as these suffice. -/
theorem Resolves.matches_resolve {ρ : List Text → Location → Text → Act Expr} (hρ : Resolves u ρ)
    (fuel : Nat) {guard : List Text} (hfuel : Suffices bindings guard fuel) (loc : Location) (name : Text) :
    Matches bindings (ρ guard loc name) (resolve u fuel guard loc name) := by
  induction fuel generalizing guard loc name with
  | zero =>
    obtain ⟨dom, -, hcard⟩ := hfuel
    omega
  | succ fuel ih =>
    rw [hρ, resolve]
    refine resolveOnce_matches (fun value hguard hvalue => ?_) loc
    exact flattenWith_matches (ih (hfuel.step hguard hvalue)) value true

/-- How many steps are counted makes no difference, as long as they suffice. -/
theorem resolve_matches_resolve (fuel fuel' : Nat) {guard : List Text}
    (hfuel : Suffices bindings guard fuel) (hfuel' : Suffices bindings guard fuel') (loc : Location)
    (name : Text) :
    Matches bindings (resolve u fuel guard loc name) (resolve u fuel' guard loc name) := by
  induction fuel generalizing fuel' guard loc name with
  | zero =>
    obtain ⟨dom, -, hcard⟩ := hfuel
    omega
  | succ fuel ih =>
    cases fuel' with
    | zero =>
      obtain ⟨dom, -, hcard⟩ := hfuel'
      omega
    | succ fuel' =>
      rw [resolve, resolve]
      refine resolveOnce_matches (fun value hguard hvalue => ?_) loc
      exact flattenWith_matches (ih fuel' (hfuel.step hguard hvalue) (hfuel'.step hguard hvalue)) value true

/-- Resolves a name by as many steps as there are bound names. -/
def resolveAll (u : Surroundings) (guard : List Text) (loc : Location) (name : Text) : Act Expr := do
  resolve u (resolveFuel (← Act.scope)) guard loc name

theorem exec_resolveAll (u : Surroundings) (guard : List Text) (loc : Location) (name : Text) (s : State) :
    (resolveAll u guard loc name).exec s = (resolve u (resolveFuel s.scope) guard loc name).exec s := by
  rw [resolveAll, Act.exec_bind_of_ok (Act.exec_scope s)]

/-- Steps that suffice compute what as many steps as there are bound names do. -/
theorem resolve_matches_resolveAll {fuel : Nat} {guard : List Text}
    (hfuel : Suffices bindings guard fuel) (loc : Location) (name : Text) :
    Matches bindings (resolve u fuel guard loc name) (resolveAll u guard loc name) := by
  intro s hs
  have hscope := suffices_resolveFuel s.scope guard
  rw [hs] at hscope
  rw [exec_resolveAll]
  exact resolve_matches_resolve fuel (resolveFuel s.scope) hfuel hscope loc name s hs

/-- As many steps as there are bound names obey the recursion. -/
theorem resolves_resolveAll (u : Surroundings) : Resolves u (resolveAll u) := by
  refine fun guard loc name => Matches.eq fun bindings s hs => ?_
  have hscope := suffices_resolveFuel s.scope guard
  obtain ⟨fuel, hfuel⟩ : ∃ fuel, resolveFuel s.scope = fuel + 1 := ⟨_, rfl⟩
  rw [hs, hfuel] at hscope
  rw [exec_resolveAll, hfuel, resolve]
  refine resolveOnce_matches (fun value hguard hvalue => ?_) loc s hs
  exact flattenWith_matches (resolve_matches_resolveAll (hscope.step hguard hvalue)) value true

/-- The recursion determines how names are resolved. -/
theorem existsUnique_resolves (u : Surroundings) : ∃! ρ, Resolves u ρ := by
  refine ⟨resolveAll u, resolves_resolveAll u, fun ρ hρ => ?_⟩
  funext guard loc name
  refine Matches.eq fun bindings s hs => ?_
  have hscope := suffices_resolveFuel s.scope guard
  rw [hs] at hscope
  rw [exec_resolveAll]
  exact hρ.matches_resolve (resolveFuel s.scope) hscope loc name s hs

/-- Evaluation resolves names by the recursion. -/
theorem Resolves.flattenWith_eq {ρ : List Text → Location → Text → Act Expr} (hρ : Resolves u ρ) (e : Expr)
    (guard : List Text) (propagate : Bool) :
    (do flattenWith u (resolve u (resolveFuel (← Act.scope)) guard) e propagate) =
      flattenWith u (ρ guard) e propagate := by
  funext s
  have hmatch : ∀ loc name, Matches s.scope.binding (ρ guard loc name)
      (resolve u (resolveFuel s.scope) guard loc name) :=
    hρ.matches_resolve (resolveFuel s.scope) (suffices_resolveFuel s.scope guard)
  exact (flattenWith_matches hmatch e propagate s rfl).1.symm

theorem Resolves.flattenGuarded_eq {ρ : List Text → Location → Text → Act Expr} (hρ : Resolves u ρ)
    (e : Expr) (guard : List Text) : flattenGuarded u e guard = flattenWith u (ρ guard) e true :=
  hρ.flattenWith_eq e guard true

theorem Resolves.nameOnly_eq {ρ : List Text → Location → Text → Act Expr} (hρ : Resolves u ρ) (e : Expr) :
    nameOnly u e = flattenWith u (ρ []) e false :=
  hρ.flattenWith_eq e [] false

end Eval

end MacroAsm
