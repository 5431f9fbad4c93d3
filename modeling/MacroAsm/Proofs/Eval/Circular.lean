import Mathlib.Data.List.Chain
import Mathlib.Logic.Relation
import MacroAsm.Proofs.Eval.Computes
import MacroAsm.Proofs.Eval.Requests

/-!
# Names that lead back to themselves

The values of names make up a graph: a name leads to the names in its value (`Eval.Leads`). Evaluation walks
that graph, and the names it has come through are its guard. Over values that are polynomials nothing but the
guard can make it fail (`Eval.resolve_circular`), and then the names it reports are a closed walk
(`Eval.Circular`). Where it does not fail, it has met no name of the guard, and what is left holds the names
that lead nowhere (`Eval.guarded_reaches`) and no others but those that were reached
(`Eval.reaches_of_mem_guarded`).
-/

namespace MacroAsm

/-- A name that is not set stands for nothing. -/
theorem Binding.eq_unset {b : Binding} (h : b.isSet = false) : b = Binding.unset := by
  obtain ⟨value, isMacro⟩ := b
  rw [Binding.isSet, Bool.or_eq_false_iff] at h
  obtain ⟨hvalue, rfl⟩ := h
  cases value with
  | none => rfl
  | some => cases hvalue

/-- Whether an operator is a sum, a difference or a product. -/
def BinaryOp.isRing : BinaryOp → Bool
  | .add | .subtract | .multiply => true
  | _ => false

namespace Expr

/-- Whether an expression is built from numbers and names by sums, differences and products. Its numerals can
be read in the radix. -/
def isPolynomial (radix : Nat) : Expr → Bool
  | .number .. => true
  | .numeral _ digits => (digits.toInt64? radix).isSome
  | .identifier .. => true
  | .binary _ op left right => op.isRing && left.isPolynomial radix && right.isPolynomial radix
  | _ => false

/-- A polynomial that was evaluated: its numerals were read. -/
structure IsReduced (radix : Nat) (e : Expr) : Prop where
  /-- It is a polynomial. -/
  isPolynomial : e.isPolynomial radix = true
  /-- It is no numeral. -/
  isRead : e.isNumeral = false

/-- A polynomial that is known is a number. -/
theorem IsReduced.eq_number {radix : Nat} {e : Expr} (h : e.IsReduced radix)
    (hconcrete : e.isConcrete = true) : ∃ loc value via, e = .number loc value via := by
  obtain ⟨hpoly, hread⟩ := h
  cases e with
  | number loc value via => exact ⟨loc, value, via, rfl⟩
  | numeral => cases hread
  | string => cases hpoly
  | _ => cases hconcrete

end Expr

namespace Eval

variable {u : Surroundings} {radix : Nat} {f : Following} {bindings : Text → Binding}

/-- Sums, differences and products of numbers are numbers. -/
theorem applyBinary_of_isRing {op : BinaryOp} (hop : op.isRing = true) (loc : Location) {l r : Expr}
    (hl : l.IsReduced radix) (hr : r.IsReduced radix) (hlc : l.isConcrete = true)
    (hrc : r.isConcrete = true) : ∃ value, applyBinary op loc l r = .ok (.literal loc value) := by
  obtain ⟨_, a, _, rfl⟩ := hl.eq_number hlc
  obtain ⟨_, b, _, rfl⟩ := hr.eq_number hrc
  cases op with
  | add => exact ⟨a + b, rfl⟩
  | subtract => exact ⟨a - b, rfl⟩
  | multiply => exact ⟨a * b, rfl⟩
  | _ => cases hop

theorem treatment_of_isRing {op : BinaryOp} (hop : op.isRing = true) : treatment op = .strict := by
  cases op <;> first | rfl | cases hop

/-- What is left of a polynomial, in terms of what its names lead to. -/
structure Substitutes (radix : Nat) (f : Following) (e v : Expr) : Prop where
  /-- It is a polynomial. -/
  isReduced : v.IsReduced radix
  /-- All that a name of the polynomial leads to is left. -/
  forth : ∀ name ∈ e.identifiers, ∃ loc w, f loc name = some w ∧ w.identifiers ⊆ v.identifiers
  /-- Nothing else is left. -/
  back : ∀ other ∈ v.identifiers, ∃ name ∈ e.identifiers, ∃ loc w, f loc name = some w ∧
    other ∈ w.identifiers

/-- Evaluating a polynomial replaces its names by what they lead to. -/
theorem substitutes_of_outcome : ∀ (e v : Expr), e.isPolynomial radix = true →
    (∀ loc, ∀ name ∈ e.identifiers, ∀ w, f loc name = some w → w.IsReduced radix) →
    outcome u radix f e true = some v → Substitutes radix f e v := by
  intro e v he hf h
  cases e with
  | number loc value via =>
    rw [outcome] at h
    cases h
    exact ⟨⟨rfl, rfl⟩, by simp [Expr.identifiers], by simp [Expr.identifiers]⟩
  | numeral loc digits =>
    rw [outcome] at h
    obtain ⟨value, -, rfl⟩ := Option.map_eq_some_iff.1 h
    exact ⟨⟨rfl, rfl⟩, by simp [Expr.identifiers], by simp [Expr.identifiers, Expr.literal]⟩
  | identifier loc name =>
    rw [outcome, spell, if_pos rfl] at h
    refine ⟨hf loc name (by simp [Expr.identifiers]) v h, fun other hother => ?_, fun other hother => ?_⟩
    · rw [Expr.identifiers, List.mem_singleton] at hother
      exact ⟨loc, v, hother ▸ h, List.Subset.refl _⟩
    · exact ⟨name, by simp [Expr.identifiers], loc, v, h, hother⟩
  | binary loc op left right =>
    simp only [Expr.isPolynomial, Bool.and_eq_true] at he
    obtain ⟨⟨hop, hleft⟩, hright⟩ := he
    rw [outcome, treatment_of_isRing hop] at h
    obtain ⟨l, hl, hrest⟩ := Option.bind_eq_some_iff.1 h
    obtain ⟨r, hr, hsettle⟩ := Option.bind_eq_some_iff.1 hrest
    have hsubl := substitutes_of_outcome left l hleft
      (fun loc name hname => hf loc name (by simp [Expr.identifiers, hname])) hl
    have hsubr := substitutes_of_outcome right r hright
      (fun loc name hname => hf loc name (by simp [Expr.identifiers, hname])) hr
    -- known operands hold no names, so nothing is lost when the operator is applied
    have hkept : l.identifiers ⊆ v.identifiers ∧ r.identifiers ⊆ v.identifiers ∧
        v.identifiers ⊆ l.identifiers ++ r.identifiers ∧ v.IsReduced radix := by
      rw [settleBinary] at hsettle
      split at hsettle
      · rename_i hconcrete
        rw [Bool.and_eq_true] at hconcrete
        obtain ⟨value, hvalue⟩ :=
          applyBinary_of_isRing hop loc hsubl.isReduced hsubr.isReduced hconcrete.1 hconcrete.2
        rw [hvalue] at hsettle
        cases hsettle
        obtain ⟨_, _, _, rfl⟩ := hsubl.isReduced.eq_number hconcrete.1
        obtain ⟨_, _, _, rfl⟩ := hsubr.isReduced.eq_number hconcrete.2
        exact ⟨by simp [Expr.identifiers], by simp [Expr.identifiers],
          by simp [Expr.identifiers, Expr.literal], rfl, rfl⟩
      · cases hsettle
        refine ⟨List.subset_append_left _ _, List.subset_append_right _ _, List.Subset.refl _, ?_, rfl⟩
        simp [Expr.isPolynomial, hop, hsubl.isReduced.isPolynomial, hsubr.isReduced.isPolynomial]
    obtain ⟨hlv, hrv, hv, hreduced⟩ := hkept
    refine ⟨hreduced, fun name hname => ?_, fun other hother => ?_⟩
    · rw [Expr.identifiers, List.mem_append] at hname
      rcases hname with hname | hname
      · obtain ⟨loc, w, hw, hsub⟩ := hsubl.forth name hname
        exact ⟨loc, w, hw, List.Subset.trans hsub hlv⟩
      · obtain ⟨loc, w, hw, hsub⟩ := hsubr.forth name hname
        exact ⟨loc, w, hw, List.Subset.trans hsub hrv⟩
    · rcases List.mem_append.1 (hv hother) with hother | hother
      · obtain ⟨name, hname, hw⟩ := hsubl.back other hother
        exact ⟨name, by simp [Expr.identifiers, hname], hw⟩
      · obtain ⟨name, hname, hw⟩ := hsubr.back other hother
        exact ⟨name, by simp [Expr.identifiers, hname], hw⟩
  | _ => cases he

/-- A name leads to the names in the value it is bound to. -/
def Leads (bindings : Text → Binding) (name other : Text) : Prop :=
  ∃ value, (bindings name).value = some value ∧ other ∈ value.identifiers

/-- The names of a set are bound to nothing or to polynomials in such names. -/
structure Closed (radix : Nat) (names : Set Text) (bindings : Text → Binding) : Prop where
  /-- They are no macros. -/
  isMacro : ∀ name ∈ names, (bindings name).isMacro = false
  /-- Their values are polynomials. -/
  isPolynomial : ∀ name ∈ names, ∀ value, (bindings name).value = some value →
    value.isPolynomial radix = true
  /-- Their values hold such names only. -/
  mem : ∀ name ∈ names, ∀ other, Leads bindings name other → other ∈ names

section Guarded

variable {names : Set Text}

@[simp]
theorem identifiers_tag (name : Text) (e : Expr) : (tag name e).identifiers = e.identifiers := by
  cases e <;> rfl

/-- The name that a polynomial was resolved through leaves it one. -/
theorem isReduced_tag {e : Expr} (h : e.IsReduced radix) (name : Text) :
    (tag name e).IsReduced radix := by
  obtain ⟨hpoly, hread⟩ := h
  cases e <;> exact ⟨hpoly, hread⟩

/-- A name of the set is met again, or else it is what it stands for that counts. -/
theorem guarded_cases (hclosed : Closed radix names bindings) {fuel : Nat} {guard : List Text}
    {loc : Location} {name : Text} (hname : name ∈ names) {left : Expr}
    (h : guarded u radix bindings (fuel + 1) guard loc name = some left) :
    name ∉ guard ∧ ((bindings name).value = none ∧ left = .identifier loc name ∨
      ∃ value v, (bindings name).value = some value ∧ left = tag name v ∧
        outcome u radix (guarded u radix bindings fuel (guard ++ [name])) value true = some v) := by
  rw [guarded] at h
  split at h
  · cases h
  · rename_i hguard
    refine ⟨hguard, ?_⟩
    rw [lookup, hclosed.isMacro name hname, if_neg Bool.false_ne_true] at h
    split at h
    · rename_i value hvalue
      obtain ⟨v, hv, rfl⟩ := Option.map_eq_some_iff.1 h
      exact Or.inr ⟨value, v, hvalue, rfl, hv⟩
    · rename_i hvalue
      cases h
      exact Or.inl ⟨hvalue, rfl⟩

/-- A name of the set leads to polynomials. -/
theorem isReduced_guarded (hclosed : Closed radix names bindings) (fuel : Nat) (guard : List Text)
    (loc : Location) {name : Text} (hname : name ∈ names) {left : Expr}
    (h : guarded u radix bindings fuel guard loc name = some left) : left.IsReduced radix := by
  induction fuel generalizing guard loc name left with
  | zero =>
    rw [guarded] at h
    split at h
    · cases h
    · rw [lookup] at h
      split at h
      · cases h
      · split at h <;> cases h <;> exact ⟨rfl, rfl⟩
  | succ fuel ih =>
    obtain ⟨-, ⟨-, rfl⟩ | ⟨value, v, hvalue, rfl, hv⟩⟩ := guarded_cases hclosed hname h
    · exact ⟨rfl, rfl⟩
    · have hsub := substitutes_of_outcome value v (hclosed.isPolynomial name hname value hvalue)
        (fun loc other hother w hw =>
          ih _ loc (hclosed.mem name hname other ⟨value, hvalue, hother⟩) hw) hv
      exact isReduced_tag hsub.isReduced name

/-- What is left of the value of a name of the set. -/
theorem substitutes_value (hclosed : Closed radix names bindings) {fuel : Nat} {guard : List Text}
    {name : Text} (hname : name ∈ names) {value v : Expr} (hvalue : (bindings name).value = some value)
    (hv : outcome u radix (guarded u radix bindings fuel guard) value true = some v) :
    Substitutes radix (guarded u radix bindings fuel guard) value v :=
  substitutes_of_outcome value v (hclosed.isPolynomial name hname value hvalue)
    (fun loc other hother _ hw =>
      isReduced_guarded hclosed fuel guard loc (hclosed.mem name hname other ⟨value, hvalue, hother⟩) hw) hv

/-- A name that is followed without meeting the guard leads to no name of the guard, and all names it leads
to that lead nowhere are left. -/
theorem guarded_reaches (hclosed : Closed radix names bindings) {dom : Finset Text}
    (hdom : ∀ name, (bindings name).value.isSome → name ∈ dom) {fuel : Nat} {guard : List Text}
    (hfuel : (dom \ guard.toFinset).card < fuel) {loc : Location} {name : Text} (hname : name ∈ names)
    {left : Expr} (h : guarded u radix bindings fuel guard loc name = some left) {other : Text}
    (hreach : Relation.ReflTransGen (Leads bindings) name other) :
    other ∉ guard ∧ ((bindings other).value = none → other ∈ left.identifiers) := by
  induction fuel generalizing guard loc name left with
  | zero => omega
  | succ fuel ih =>
    obtain ⟨hguard, ⟨hnone, rfl⟩ | ⟨value, v, hvalue, rfl, hv⟩⟩ := guarded_cases hclosed hname h
    · -- the name leads nowhere
      rcases hreach.cases_head with rfl | ⟨next, ⟨value, hvalue, -⟩, -⟩
      · exact ⟨hguard, fun _ => List.mem_singleton_self _⟩
      · rw [hnone] at hvalue
        cases hvalue
    · rcases hreach.cases_head with rfl | ⟨next, ⟨value', hvalue', hmem⟩, hrest⟩
      · exact ⟨hguard, fun hnone => by rw [hnone] at hvalue; cases hvalue⟩
      · rw [hvalue] at hvalue'
        cases hvalue'
        obtain ⟨loc', w, hw, hsub⟩ := (substitutes_value hclosed hname hvalue hv).forth next hmem
        have hcard := card_sdiff_guard (hdom name (by rw [hvalue]; rfl)) hguard
        obtain ⟨hother, hleft⟩ := ih (by omega)
          (hclosed.mem name hname next ⟨value, hvalue, hmem⟩) hw hrest
        rw [identifiers_tag]
        exact ⟨fun hin => hother (List.mem_append_left _ hin), fun hnone => hsub (hleft hnone)⟩

/-- What is left of a name holds names that it leads to. -/
theorem reaches_of_mem_guarded (hclosed : Closed radix names bindings) {fuel : Nat} {guard : List Text}
    {loc : Location} {name : Text} (hname : name ∈ names) {left : Expr}
    (h : guarded u radix bindings fuel guard loc name = some left) {other : Text}
    (hother : other ∈ left.identifiers) : Relation.ReflTransGen (Leads bindings) name other := by
  induction fuel generalizing guard loc name left with
  | zero =>
    rw [guarded] at h
    split at h
    · cases h
    · rw [lookup] at h
      split at h
      · cases h
      · have hleft : left.identifiers = [name] := by split at h <;> cases h <;> rfl
        rw [hleft, List.mem_singleton] at hother
        rw [hother]
  | succ fuel ih =>
    obtain ⟨-, ⟨-, rfl⟩ | ⟨value, v, hvalue, rfl, hv⟩⟩ := guarded_cases hclosed hname h
    · rw [Expr.identifiers, List.mem_singleton] at hother
      rw [hother]
    · rw [identifiers_tag] at hother
      obtain ⟨next, hnext, loc', w, hw, hmem⟩ := (substitutes_value hclosed hname hvalue hv).back other hother
      have hleads : Leads bindings name next := ⟨value, hvalue, hnext⟩
      exact .head hleads (ih (hclosed.mem name hname next hleads) hw hmem)

end Guarded

section Failures

variable {α : Type} {E : Failure → Prop}

/-- An action fails with nothing but failures of a kind, over any scope with the bindings. -/
def FailsWith (bindings : Text → Binding) (E : Failure → Prop) (act : Act α) : Prop :=
  ∀ s : State, s.scope.binding = bindings → ∀ f, (act.exec s).1 = .error f → E f

/-- An action that goes on with the result of another. -/
theorem FailsWith.bind {β : Type} {act : Act α} {r : Option α} {k : α → Act β}
    (hcomputes : Computes bindings act r) (hact : FailsWith bindings E act)
    (hk : ∀ a, r = some a → FailsWith bindings E (k a)) : FailsWith bindings E (act >>= k) := by
  intro s hs f hf
  obtain ⟨hresult, hscope⟩ := hcomputes s hs
  have hact' := hact s hs
  rcases hexec : act.exec s with ⟨x, s'⟩
  rw [hexec] at hresult hscope hact'
  cases x with
  | ok a =>
    rw [Act.exec_bind_of_ok hexec] at hf
    exact hk a hresult.symm s' hscope f hf
  | error f' =>
    rw [Act.exec_bind_of_error hexec] at hf
    cases hf
    exact hact' _ rfl

theorem FailsWith.pure (a : α) : FailsWith bindings E (Pure.pure a) := fun _ _ _ h => by cases h

variable {resolve : Location → Text → Act Expr}

/-- Evaluating a polynomial fails with nothing but failures to resolve its names. -/
theorem flattenWith_failsWith
    (hradix : radix = (bindings Scope.radixName).radix)
    (hcomputes : ∀ loc name, Computes bindings (resolve loc name) (f loc name)) :
    ∀ e : Expr, e.isPolynomial radix = true →
      (∀ loc, ∀ name ∈ e.identifiers, ∀ w, f loc name = some w → w.IsReduced radix) →
      (∀ loc, ∀ name ∈ e.identifiers, FailsWith bindings E (resolve loc name)) →
      FailsWith bindings E (flattenWith u resolve e true) := by
  intro e he hf hres
  cases e with
  | number loc value via =>
    rw [flattenWith]
    exact .pure _
  | numeral loc digits =>
    rw [flattenWith]
    intro s hs f hfail
    obtain ⟨hread, -⟩ := readNumeral_computes loc digits s hs
    rw [Expr.isPolynomial, hradix] at he
    rw [hfail] at hread
    obtain ⟨v, hv⟩ := Option.isSome_iff_exists.1 he
    rw [hv] at hread
    cases hread
  | identifier loc name =>
    rw [flattenWith, if_pos rfl]
    exact hres loc name (by simp [Expr.identifiers])
  | binary loc op left right =>
    simp only [Expr.isPolynomial, Bool.and_eq_true] at he
    obtain ⟨⟨hop, hleft⟩, hright⟩ := he
    have hfl : ∀ loc, ∀ name ∈ left.identifiers, ∀ w, f loc name = some w → w.IsReduced radix :=
      fun loc name hname => hf loc name (by simp [Expr.identifiers, hname])
    have hfr : ∀ loc, ∀ name ∈ right.identifiers, ∀ w, f loc name = some w → w.IsReduced radix :=
      fun loc name hname => hf loc name (by simp [Expr.identifiers, hname])
    have ihl := flattenWith_failsWith hradix hcomputes left hleft hfl
      fun loc name hname => hres loc name (by simp [Expr.identifiers, hname])
    have ihr := flattenWith_failsWith hradix hcomputes right hright hfr
      fun loc name hname => hres loc name (by simp [Expr.identifiers, hname])
    have hcl := flattenWith_computes (u := u) hcomputes left true
    have hcr := flattenWith_computes (u := u) hcomputes right true
    rw [← hradix] at hcl hcr
    have heq : flattenWith u resolve (.binary loc op left right) true = (do
        let l ← flattenWith u resolve left true
        let r ← flattenWith u resolve right true
        if l.isConcrete && r.isConcrete then Act.lift (applyBinary op loc l r)
        else return .binary loc op l r) := by
      cases op <;> first | rfl | cases hop
    rw [heq]
    refine FailsWith.bind hcl ihl fun l hl => FailsWith.bind hcr ihr fun r hr => ?_
    split
    · rename_i hconcrete
      rw [Bool.and_eq_true] at hconcrete
      -- the operands are numbers by now
      obtain ⟨value, hvalue⟩ := applyBinary_of_isRing hop loc
        (substitutes_of_outcome left l hleft hfl hl).isReduced
        (substitutes_of_outcome right r hright hfr hr).isReduced hconcrete.1 hconcrete.2
      rw [hvalue]
      exact .pure _
    · exact .pure _
  | _ => cases he

/-- The failure that reports a walk along a relation from a name back to itself. -/
def Circular (R : Text → Text → Prop) (f : Failure) : Prop :=
  ∃ loc name between, f = .report (.fatal loc ("Circular reference " ++
      Text.join "->" (name :: between ++ [name]))) ∧ List.IsChain R (name :: between ++ [name])

variable {names : Set Text} {R : Text → Text → Prop}

/-- A name that is met again closes the walk of the names being followed. -/
theorem circular_of_dropWhile {guard : List Text} {name : Text}
    (hguard : List.IsChain R (guard ++ [name])) (hmet : guard.dropWhile (· != name) ≠ [])
    (loc : Location) :
    Circular R (.report (.fatal loc ("Circular reference " ++
      Text.join "->" (guard.dropWhile (· != name) ++ [name])))) := by
  obtain ⟨first, between, hdrop⟩ := List.exists_cons_of_ne_nil hmet
  have hfirst : first = name := by
    have hhead := List.head_dropWhile_not (· != name) (w := hmet)
    simpa [hdrop] using hhead
  subst hfirst
  refine ⟨loc, first, between, by rw [hdrop], ?_⟩
  rw [← List.takeWhile_append_dropWhile (p := (· != first)) (l := guard), hdrop,
    List.append_assoc] at hguard
  exact hguard.right_of_append

/-- Resolving a name once fails as evaluating the value does, or because the name is met again. -/
theorem resolveOnce_circular {evaluate : Expr → Act Expr} {next : Expr → Option Expr}
    (hnext : ∀ value, Computes bindings (evaluate value) (next value)) {guard : List Text} {name : Text}
    (hkind : (bindings name).isMacro = false) (hguard : List.IsChain R (guard ++ [name]))
    (heval : ∀ value, (bindings name).value = some value →
      FailsWith bindings (Circular R) (evaluate value)) (loc : Location) :
    FailsWith bindings (Circular R) (resolveOnce evaluate guard loc name) := by
  rw [resolveOnce]
  split
  · intro s hs
    obtain ⟨sym, s', hexec, hsym, hs'⟩ := exec_request loc name s
    rw [hs] at hsym hs'
    rw [← hsym] at hkind heval
    have hplain : sym.isMacro = false := hkind
    rw [Act.exec_bind_of_ok hexec, hplain, if_neg Bool.false_ne_true]
    cases hvalue : sym.value with
    | none => exact FailsWith.pure _ s' hs'
    | some value =>
      exact FailsWith.bind (hnext value) (heval value hvalue) (fun _ _ => .pure _) s' hs'
  · intro s _ f hf
    cases hf
    refine circular_of_dropWhile hguard ?_ loc
    assumption

/-- Resolving a name fails with nothing but the report of a closed walk, if the names being followed are a
walk to it. -/
theorem resolve_circular (hradix : radix = (bindings Scope.radixName).radix)
    (hclosed : Closed radix names bindings)
    (hR : ∀ name ∈ names, ∀ other, Leads bindings name other → R name other) (fuel : Nat)
    (guard : List Text) (loc : Location) {name : Text} (hname : name ∈ names)
    (hguard : List.IsChain R (guard ++ [name])) :
    FailsWith bindings (Circular R) (Eval.resolve u fuel guard loc name) := by
  induction fuel generalizing guard loc name with
  | zero =>
    rw [Eval.resolve]
    exact resolveOnce_circular (fun _ => Computes.pure _) (hclosed.isMacro name hname) hguard
      (fun _ _ => .pure _) loc
  | succ fuel ih =>
    have hcomputes : ∀ loc other, Computes bindings (Eval.resolve u fuel (guard ++ [name]) loc other)
        (guarded u radix bindings fuel (guard ++ [name]) loc other) := by
      rw [hradix]
      exact resolve_computes fuel (guard ++ [name])
    rw [Eval.resolve]
    refine resolveOnce_circular (fun value => flattenWith_computes hcomputes value true)
      (hclosed.isMacro name hname) hguard (fun value hvalue => ?_) loc
    have hmem : ∀ other ∈ value.identifiers, Leads bindings name other :=
      fun other hother => ⟨value, hvalue, hother⟩
    refine flattenWith_failsWith hradix hcomputes value (hclosed.isPolynomial name hname value hvalue)
      (fun loc other hother w hw => ?_) fun loc other hother => ?_
    · exact isReduced_guarded hclosed fuel _ loc (hclosed.mem name hname other (hmem other hother)) hw
    · refine ih _ loc (hclosed.mem name hname other (hmem other hother)) ?_
      rw [List.append_assoc]
      exact List.isChain_split.2 ⟨hguard, List.isChain_pair.2 (hR name hname other (hmem other hother))⟩

/-- The value of a definition is a polynomial in names of the set: it is evaluated, or else a closed walk is
reported that leads from the name of the definition to the names of the value and on. -/
theorem evaluateDefinition_cases {s : State} (hclosed : Closed s.scope.radix names s.scope.binding)
    (hR : ∀ name ∈ names, ∀ other, Leads s.scope.binding name other → R name other) (name : Text)
    (value : Expr) (hvalue : value.isPolynomial s.scope.radix = true)
    (hnames : ∀ other ∈ value.identifiers, other ∈ names ∧ R name other) :
    ∃ s', s'.scope.binding = s.scope.binding ∧
      ((∃ v, (evaluateDefinition u name value).exec s = (.ok v, s') ∧
        Substitutes s.scope.radix
          (guarded u s.scope.radix s.scope.binding (resolveFuel s.scope) [name]) value v) ∨
      ∃ f, (evaluateDefinition u name value).exec s = (.error f, s') ∧ Circular R f) := by
  have hcomputes : ∀ loc other, Computes s.scope.binding
      (Eval.resolve u (resolveFuel s.scope) [name] loc other)
      (guarded u s.scope.radix s.scope.binding (resolveFuel s.scope) [name] loc other) := by
    rw [Scope.radix_eq]
    exact resolve_computes (resolveFuel s.scope) [name]
  have hreduced : ∀ loc, ∀ other ∈ value.identifiers, ∀ w,
      guarded u s.scope.radix s.scope.binding (resolveFuel s.scope) [name] loc other = some w →
      w.IsReduced s.scope.radix :=
    fun loc other hother w hw => isReduced_guarded hclosed _ _ loc (hnames other hother).1 hw
  have hresult := flattenWith_computes (u := u) hcomputes value true s rfl
  have hfails := flattenWith_failsWith (u := u) (E := Circular R) s.scope.radix_eq hcomputes value hvalue
    hreduced (fun loc other hother => resolve_circular s.scope.radix_eq hclosed hR _ [name] loc
      (hnames other hother).1 (List.isChain_pair.2 (hnames other hother).2)) s rfl
  rw [← Scope.radix_eq] at hresult
  have hflatten : (flattenGuarded u value [name]).exec s =
      (flattenWith u (Eval.resolve u (resolveFuel s.scope) [name]) value true).exec s := by
    rw [flattenGuarded, Act.exec_bind_of_ok (Act.exec_scope s)]
  rw [evaluateDefinition]
  rcases hexec : (flattenGuarded u value [name]).exec s with ⟨x, s'⟩
  rw [← hflatten, hexec] at hresult hfails
  cases x with
  | ok v =>
    obtain ⟨s2, hsettle, hscope⟩ := exec_settle v s'
    refine ⟨s2, by rw [hscope]; exact hresult.2, Or.inl ⟨v, ?_, ?_⟩⟩
    · rw [Act.exec_bind_of_ok hexec, hsettle]
    · exact substitutes_of_outcome value v hvalue hreduced hresult.1.symm
  | error f => exact ⟨s', hresult.2, Or.inr ⟨f, Act.exec_bind_of_error hexec, hfails f rfl⟩⟩

end Failures

end Eval

end MacroAsm
