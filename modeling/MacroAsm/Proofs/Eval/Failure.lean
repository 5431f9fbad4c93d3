import MacroAsm.Proofs.Eval.Action
import MacroAsm.Eval.Flatten

/-!
# Failures of evaluation

An evaluation that fails makes the run fail: the diagnostic that it ends with is an error or fatal
(`Eval.isLoud_flattenWith`). So where a program is assembled without such a diagnostic, every expression in it
was evaluated.
-/

namespace MacroAsm

/-- Whether a failure makes the run fail. -/
def Failure.fails : Failure → Bool
  | .report d => d.fails
  | .raise _ => true

/-- The diagnostic of a failure makes the run fail if the failure does. -/
@[simp]
theorem Failure.fails_toDiagnostic (loc : Location) (f : Failure) : (f.toDiagnostic loc).fails = f.fails := by
  cases f with
  | report d => rfl
  | raise c => cases c <;> rfl

namespace Act

variable {α β : Type}

/-- An action that makes the run fail whenever it fails. -/
def IsLoud (act : Act α) : Prop := ∀ s f, (act.exec s).1 = .error f → f.fails = true

theorem IsLoud.pure (a : α) : IsLoud (Pure.pure a : Act α) := fun _ _ h => by cases h

/-- A failure with a cause. -/
theorem IsLoud.raise (c : Cause) : IsLoud (Act.raise c : Act α) := by
  intro s f h
  cases h
  rfl

/-- A failure with a diagnostic that fails the run. -/
theorem IsLoud.report {d : Diagnostic} (hd : d.fails = true) : IsLoud (Act.report d : Act α) := by
  intro s f h
  cases h
  exact hd

/-- The result of a computation. -/
theorem IsLoud.lift (x : Except Cause α) : IsLoud (Act.lift x) := by
  cases x with
  | ok a => exact .pure a
  | error c => exact .raise c

/-- An action that goes on with the result of another. -/
theorem IsLoud.bind {act : Act α} {k : α → Act β} (hact : IsLoud act) (hk : ∀ a, IsLoud (k a)) :
    IsLoud (act >>= k) := by
  intro s f hf
  have hact' := hact s
  rcases hexec : act.exec s with ⟨x, s'⟩
  rw [hexec] at hact'
  cases x with
  | ok a =>
    rw [exec_bind_of_ok hexec] at hf
    exact hk a s' f hf
  | error e =>
    rw [exec_bind_of_error hexec] at hf
    cases hf
    exact hact' _ rfl

theorem IsLoud.scope : IsLoud Act.scope := fun _ _ h => by cases h

theorem IsLoud.setScope (scope : Scope) : IsLoud (Act.setScope scope) := fun _ _ h => by cases h

end Act

namespace Eval

section Flatten

variable {u : Surroundings} {resolve : Location → Text → Act Expr}

/-- A built name is resolved where that is asked for. -/
theorem isLoud_spell (hres : ∀ loc name, (resolve loc name).IsLoud) (propagate : Bool) (loc : Location)
    (name : Text) :
    (if propagate then resolve loc name else return .identifier loc name : Act Expr).IsLoud := by
  split
  · exact hres loc name
  · exact .pure _

/-- A number is appended to a name once it is known. -/
theorem isLoud_join (hres : ∀ loc name, (resolve loc name).IsLoud) (propagate : Bool) (op : BinaryOp)
    (loc : Location) (l : Expr) (name : Text) (r : Expr) :
    (if r.isConcrete then do
        let name := name ++ suffix op (← Act.lift r.asNumber)
        if propagate then resolve loc name else return .identifier loc name
      else return .binary loc op l r : Act Expr).IsLoud := by
  split
  · exact (Act.IsLoud.lift _).bind fun n => isLoud_spell hres propagate loc _
  · exact .pure _

/-- The name that an evaluated expression has to be. -/
theorem isLoud_name {k : Text → Act Expr} {other : Expr → Act Expr} (hk : ∀ name, (k name).IsLoud)
    (hother : ∀ e, (other e).IsLoud) (e : Expr) :
    (match e with | .identifier _ name => k name | e => other e : Act Expr).IsLoud := by
  cases e with
  | identifier loc name => exact hk name
  | _ => exact hother _

mutual

/-- An evaluation that fails makes the run fail if a name that cannot be resolved does. -/
theorem isLoud_flattenWith (hres : ∀ loc name, (resolve loc name).IsLoud) :
    ∀ (e : Expr) (propagate : Bool), (flattenWith u resolve e propagate).IsLoud := by
  intro e propagate
  cases e with
  | numeral loc digits =>
    rw [flattenWith, readNumeral]
    refine Act.IsLoud.scope.bind fun scope => ?_
    dsimp only
    split
    · exact .pure _
    · exact .raise _
  | identifier loc name =>
    rw [flattenWith]
    exact isLoud_spell hres propagate loc name
  | unary loc op value =>
    by_cases hop : op = .macroLocal
    · subst hop
      rw [flattenWith]
      refine (isLoud_flattenWith hres value false).bind fun v => ?_
      exact isLoud_name (fun name => isLoud_spell hres propagate loc _) (fun e => .raise _) v
    · rw [flattenWith]
      · refine (isLoud_flattenWith hres value propagate).bind fun v => ?_
        split
        · exact .lift _
        · exact .pure _
      · exact hop
  | binary loc op left right =>
    have hleft := isLoud_flattenWith hres left
    have hright := isLoud_flattenWith hres right
    -- the operators that treat their operands alike fail alike
    cases op with
    | joinNames =>
      rw [flattenWith]
      refine (hleft false).bind fun l => isLoud_name (fun name => ?_) (fun e => .raise _) l
      refine (hright false).bind fun r => isLoud_name (fun more => ?_) (fun e => .raise _) r
      exact isLoud_spell hres propagate loc _
    | joinDecimal =>
      rw [flattenWith]
      refine (hleft false).bind fun l => ?_
      cases l with
      | identifier loc' name =>
        exact (hright true).bind fun r => isLoud_join hres propagate .joinDecimal loc _ name r
      | _ => exact .raise _
    | joinHex =>
      rw [flattenWith]
      refine (hleft false).bind fun l => ?_
      cases l with
      | identifier loc' name =>
        exact (hright true).bind fun r => isLoud_join hres propagate .joinHex loc _ name r
      | _ => exact .raise _
    | or =>
      rw [flattenWith]
      refine (hleft propagate).bind fun l => ?_
      split
      · refine (Act.IsLoud.lift _).bind fun t => ?_
        split
        · exact .pure _
        · exact hright propagate
      · exact (hright propagate).bind fun r => .pure _
    | and =>
      rw [flattenWith]
      refine (hleft propagate).bind fun l => ?_
      split
      · refine (Act.IsLoud.lift _).bind fun t => ?_
        split
        · exact hright propagate
        · exact .pure _
      · exact (hright propagate).bind fun r => .pure _
    | _ =>
      rw [flattenWith]
      · refine (hleft propagate).bind fun l => (hright propagate).bind fun r => ?_
        split
        · exact .lift _
        · exact .pure _
      all_goals simp
  | ternary loc test onTrue onFalse =>
    rw [flattenWith]
    refine (isLoud_flattenWith hres test propagate).bind fun t => ?_
    split
    · refine (Act.IsLoud.lift _).bind fun holds => ?_
      split
      · exact isLoud_flattenWith hres onTrue propagate
      · exact isLoud_flattenWith hres onFalse propagate
    · refine (isLoud_flattenWith hres onTrue propagate).bind fun a => ?_
      exact (isLoud_flattenWith hres onFalse propagate).bind fun b => .pure _
  | call loc name params =>
    rw [flattenWith]
    cases Builtin.ofName? name with
    | none => exact .raise _
    | some f =>
      refine (isLoud_flattenAll hres params propagate).bind fun args => ?_
      split
      · exact .lift _
      · exact .pure _
  | absolute loc address =>
    rw [flattenWith]
    exact (isLoud_flattenWith hres address propagate).bind fun v => .pure _
  | displaced loc base displace =>
    rw [flattenWith]
    exact (isLoud_flattenWith hres displace propagate).bind fun v => .pure _
  | offset loc base value =>
    rw [flattenWith]
    exact (isLoud_flattenWith hres value propagate).bind fun v => .pure _
  | _ =>
    rw [flattenWith]
    exact .pure _

/-- Evaluating the expressions of a list makes the run fail if it fails. -/
theorem isLoud_flattenAll (hres : ∀ loc name, (resolve loc name).IsLoud) :
    ∀ (es : List Expr) (propagate : Bool), (flattenAll u resolve es propagate).IsLoud := by
  intro es propagate
  cases es with
  | nil =>
    rw [flattenAll]
    exact .pure _
  | cons e rest =>
    rw [flattenAll]
    refine (isLoud_flattenWith hres e propagate).bind fun v => ?_
    exact (isLoud_flattenAll hres rest propagate).bind fun vs => .pure _

end

end Flatten

/-- Asking for a name makes the run fail if it fails. -/
theorem isLoud_request (loc : Location) (name : Text) : (request loc name).IsLoud := by
  rw [request]
  refine Act.IsLoud.scope.bind fun scope => ?_
  split
  · exact (Act.IsLoud.setScope _).bind fun _ => .pure _
  · exact (Act.IsLoud.lift _).bind fun _ => (Act.IsLoud.setScope _).bind fun _ => .pure _

/-- Resolving a name once makes the run fail if it fails. -/
theorem isLoud_resolveOnce {evaluate : Expr → Act Expr} (hevaluate : ∀ e, (evaluate e).IsLoud)
    (guard : List Text) (loc : Location) (name : Text) : (resolveOnce evaluate guard loc name).IsLoud := by
  rw [resolveOnce]
  split
  · refine (isLoud_request loc name).bind fun sym => ?_
    split
    · exact .raise _
    · split
      · exact (hevaluate _).bind fun v => .pure _
      · exact .pure _
  · exact .report rfl

/-- Resolving a name makes the run fail if it fails. -/
theorem isLoud_resolve (u : Surroundings) (fuel : Nat) (guard : List Text) (loc : Location) (name : Text) :
    (resolve u fuel guard loc name).IsLoud := by
  induction fuel generalizing guard loc name with
  | zero =>
    rw [resolve]
    exact isLoud_resolveOnce (fun _ => .pure _) guard loc name
  | succ fuel ih =>
    rw [resolve]
    exact isLoud_resolveOnce (fun e => isLoud_flattenWith (ih _) e true) guard loc name

/-- Evaluating an expression makes the run fail if it fails. -/
theorem isLoud_flattenGuarded (u : Surroundings) (e : Expr) (guard : List Text) :
    (flattenGuarded u e guard).IsLoud := by
  rw [flattenGuarded]
  exact Act.IsLoud.scope.bind fun scope => isLoud_flattenWith (isLoud_resolve u _ guard) e true

theorem isLoud_nameOnly (u : Surroundings) (e : Expr) : (nameOnly u e).IsLoud := by
  rw [nameOnly]
  exact Act.IsLoud.scope.bind fun scope => isLoud_flattenWith (isLoud_resolve u _ []) e false

/-- Reading the name that an expression spells makes the run fail if it fails. -/
theorem isLoud_nameOf (u : Surroundings) (e : Expr) : (nameOf u e).IsLoud := by
  rw [nameOf]
  refine (isLoud_nameOnly u e).bind fun v => ?_
  split
  · exact .pure _
  · exact .raise _

/-- Counting an expression that waits makes the run fail if it fails. -/
theorem isLoud_settle (deferrable : Bool) (e : Expr) : (settle deferrable e).IsLoud := by
  rw [settle]
  split
  · exact .pure _
  · split
    · intro s f h
      cases h
    · exact .raise _

/-- Evaluating an expression that may wait makes the run fail if it fails. -/
theorem isLoud_evaluate (u : Surroundings) (deferrable : Bool) (e : Expr) : (evaluate u deferrable e).IsLoud :=
  (isLoud_flattenGuarded u e []).bind fun v => isLoud_settle deferrable v

/-- Evaluating the expressions of a list makes the run fail if it fails. -/
theorem isLoud_evaluateAll (u : Surroundings) (deferrable : Bool) (es : List Expr) :
    (evaluateAll u deferrable es).IsLoud := by
  induction es with
  | nil => exact .pure _
  | cons e rest ih =>
    rw [evaluateAll]
    exact (isLoud_evaluate u deferrable e).bind fun v => ih.bind fun vs => .pure _

end Eval

end MacroAsm
