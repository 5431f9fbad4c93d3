import Mathlib.Data.List.Chain
import MacroAsm.Proofs.Eval.Tracing

/-!
# Evaluation ends, and reports real cycles only

Evaluation goes from expressions to their parts, and from names to the values they are bound to. It never does
the latter more deeply than there are names in the scope: a resolver that may go no deeper and is cut off there
is never seen to be (`Eval.exec_resolveWithin`).

The names under guard are a walk: evaluating the value of each asks for the next. So where evaluation meets a
name of the walk again and reports it, the report is a closed walk without repetitions
(`Eval.circular_of_report`).

Main statement: `Eval.flattenGuarded_cycles`.
-/

namespace MacroAsm

namespace Eval

variable {bindings : Text → Binding} {u : Surroundings}

/-- Resolves names that lead through a number of values at most, and does whatever `beyond` says when it would
have to go deeper. -/
def resolveWithin (u : Surroundings) (beyond : List Text → Location → Text → Act Expr) :
    Nat → List Text → Location → Text → Act Expr
  | 0, guard, loc, name => beyond guard loc name
  | fuel + 1, guard, loc, name =>
    resolveOnce (fun value => flattenWith u (resolveWithin u beyond fuel (guard ++ [name])) value true) guard
      loc name

/-- A resolver that may go as deep as there are names to follow never goes beyond. -/
theorem resolveWithin_matches {beyond : List Text → Location → Text → Act Expr} (fuel fuel' : Nat)
    {guard : List Text} (hfuel : Suffices bindings guard fuel) (hfuel' : Suffices bindings guard fuel')
    (loc : Location) (name : Text) :
    Matches bindings (resolveWithin u beyond fuel guard loc name) (resolve u fuel' guard loc name) := by
  induction fuel generalizing fuel' guard loc name with
  | zero =>
    obtain ⟨dom, -, hcard⟩ := hfuel
    omega
  | succ fuel ih =>
    cases fuel' with
    | zero =>
      obtain ⟨dom, -, hcard⟩ := hfuel'
      omega
    | succ fuel' =>
      rw [resolveWithin, resolve]
      refine resolveOnce_matches (fun value hguard hvalue => ?_) loc
      exact flattenWith_matches (ih fuel' (hfuel.step hguard hvalue) (hfuel'.step hguard hvalue)) value true

/-- Evaluation goes no deeper than there are names in the scope, and none of what might happen beyond that
depth does. -/
theorem exec_resolveWithin (beyond : List Text → Location → Text → Act Expr) (guard : List Text) (e : Expr)
    (s : State) {fuel : Nat} (hfuel : resolveFuel s.scope ≤ fuel) :
    (flattenWith u (resolveWithin u beyond fuel guard) e true).exec s = (flattenGuarded u e guard).exec s := by
  have hscope := suffices_resolveFuel s.scope guard
  have hmore : Suffices s.scope.binding guard fuel := by
    obtain ⟨dom, hdom, hcard⟩ := hscope
    exact ⟨dom, hdom, by omega⟩
  have hmatch : ∀ loc name, Matches s.scope.binding (resolveWithin u beyond fuel guard loc name)
      (resolve u (resolveFuel s.scope) guard loc name) := resolveWithin_matches fuel _ hmore hscope
  rw [flattenGuarded, Act.exec_bind_of_ok (Act.exec_scope s)]
  exact (flattenWith_matches hmatch e true s rfl).1

/-- What a name stands for while an expression is evaluated: the expression itself, if the name is the one that
is being defined, or else the value that the scope binds it to. -/
def definiens (s : State) (guard : Option Text) (e : Expr) (name : Text) : Option Expr :=
  if guard = some name then some e else (s.scope.find? name).bind Symbol.value

/-- A name leads on to another: evaluating what the one stands for asks the scope for the other. -/
def LeadsOn (u : Surroundings) (s : State) (guard : Option Text) (e : Expr) (name next : Text) : Prop :=
  ∃ value, definiens s guard e name = some value ∧ Requests u s value next

/-- A name that is not the one being defined stands for what it is bound to. -/
theorem definiens_of_ne {s : State} {guard : Option Text} {e value : Expr} {name : Text}
    (hguard : guard ≠ some name) (hvalue : (s.scope.binding name).value = some value) :
    definiens s guard e name = some value := by
  rw [definiens, if_neg hguard, ← Scope.value_binding, hvalue]

/-- Whether an action is seen to report a diagnostic. -/
def Reported (d : Diagnostic) (_ : State) (f : Option Failure) (_ : State) : Prop := f = some (.report d)

/-- An action is seen to report a diagnostic exactly if it ends with it. -/
theorem exhibits_reported {α : Type} {act : Act α} {s : State} {d : Diagnostic} :
    Exhibits (Reported d) act s ↔ (act.exec s).1 = .error (.report d) := by
  show failure? _ = _ ↔ _
  cases (act.exec s).1 with
  | ok a => exact ⟨nofun, nofun⟩
  | error f => simp [failure?]

/-- A diagnostic is reported by one step of a sequence. -/
theorem observation_reported (d : Diagnostic) : Observation (Reported d) where
  pure _ h := by cases h
  raise _ _ h := by cases h
  trans _ _ _ _ h := Or.inr h

/-- The names of a guard from one of them on begin with that one. -/
theorem dropWhile_eq_cons {guard : List Text} {name : Text} (hname : name ∈ guard) :
    ∃ path, guard.dropWhile (· != name) = name :: path := by
  induction guard with
  | nil => cases hname
  | cons first rest ih =>
    by_cases heq : first = name
    · exact ⟨rest, by simp [heq]⟩
    · obtain ⟨path, hpath⟩ := ih ((List.mem_cons.1 hname).resolve_left (Ne.symm heq))
      exact ⟨path, by simp [heq, hpath]⟩

/-- Resolving a name reports a diagnostic if the name is under guard, and then this is the circular reference,
or while its value is evaluated. -/
theorem resolveOnce_report {evaluate : Expr → Act Expr} {guard : List Text} {loc : Location} {name : Text}
    {s : State} {d : Diagnostic}
    (h : ((resolveOnce evaluate guard loc name).exec s).1 = .error (.report d)) :
    (name ∈ guard ∧ d = .fatal loc
      ("Circular reference " ++ Text.join "->" (guard.dropWhile (· != name) ++ [name]))) ∨
    (name ∉ guard ∧ ∃ value, (s.scope.binding name).value = some value ∧ ∃ s' : State,
      s'.scope.binding = s.scope.binding ∧ ((evaluate value).exec s').1 = .error (.report d)) := by
  rw [resolveOnce] at h
  split at h
  · rename_i hchain
    right
    refine ⟨fun hmem => by simpa using List.dropWhile_eq_nil_iff.1 hchain name hmem, ?_⟩
    obtain ⟨sym, s', hexec, hsym, hs'⟩ := exec_request loc name s
    rw [Act.exec_bind_of_ok hexec] at h
    split at h
    · cases h
    · cases hvalue : sym.value with
      | none =>
        rw [hvalue] at h
        cases h
      | some value =>
        simp only [hvalue] at h
        refine ⟨value, by rw [← hsym, ← hvalue]; rfl, s', hs', ?_⟩
        rcases hrun : (evaluate value).exec s' with ⟨r, s''⟩
        cases r with
        | ok v =>
          rw [Act.exec_bind_of_ok hrun] at h
          cases h
        | error f =>
          rw [Act.exec_bind_of_error hrun] at h
          exact h
  · rename_i hchain
    left
    have hmem : name ∈ guard := by
      by_contra hnot
      apply hchain
      rw [List.dropWhile_eq_nil_iff]
      exact fun other hother => bne_iff_ne.2 fun heq => hnot (heq ▸ hother)
    cases h
    exact ⟨hmem, rfl⟩

section Walk

variable {s₀ : State} {guard : Option Text} {e : Expr}

/-- What a report of a circular reference tells: a closed walk that meets no name twice. -/
def IsCycle (u : Surroundings) (s : State) (guard : Option Text) (e : Expr) (d : Diagnostic) : Prop :=
  ∃ loc name path,
    d = .fatal loc ("Circular reference " ++ Text.join "->" (name :: path ++ [name])) ∧
      (name :: path).Nodup ∧ List.IsChain (LeadsOn u s guard e) (name :: path ++ [name])

/-- A walk that leads on to a name it has been to is closed from there. -/
theorem circular_of_mem {walk : List Text} (hwalk : walk.Nodup) {loc : Location} {name : Text}
    (hchain : List.IsChain (LeadsOn u s₀ guard e) (walk ++ [name])) (hname : name ∈ walk) :
    IsCycle u s₀ guard e
      (.fatal loc ("Circular reference " ++ Text.join "->" (walk.dropWhile (· != name) ++ [name]))) := by
  obtain ⟨path, hpath⟩ := dropWhile_eq_cons hname
  have hsuffix : walk.dropWhile (· != name) <:+ walk := List.dropWhile_suffix _
  refine ⟨loc, name, path, by rw [hpath], ?_, ?_⟩
  · rw [← hpath]
    exact hwalk.sublist hsuffix.sublist
  · rw [← hpath]
    obtain ⟨before, hbefore⟩ := hsuffix
    rw [← hbefore, List.append_assoc] at hchain
    exact hchain.right_of_append

/-- Whatever resolving a name at the end of a walk reports is a closed walk. -/
theorem circular_of_resolve {d : Diagnostic} (fuel : Nat) {walk : List Text}
    (hfuel : Suffices s₀.scope.binding walk fuel) (hguard : ∀ name, guard = some name → name ∈ walk)
    (hwalk : walk.Nodup) {loc : Location} {name : Text}
    (hchain : List.IsChain (LeadsOn u s₀ guard e) (walk ++ [name])) {s : State}
    (hs : s.scope.binding = s₀.scope.binding)
    (h : ((resolve u fuel walk loc name).exec s).1 = .error (.report d)) : IsCycle u s₀ guard e d := by
  -- each name that is followed goes at the end of the walk
  induction fuel generalizing walk loc name s with
  | zero =>
    obtain ⟨dom, -, hcard⟩ := hfuel
    omega
  | succ fuel ih =>
    rw [resolve] at h
    rcases resolveOnce_report h with ⟨hname, rfl⟩ | ⟨hname, value, hvalue, s', hs', hrun⟩
    · exact circular_of_mem hwalk hchain hname
    · rw [hs] at hvalue hs'
      have hnext := hfuel.step hname hvalue
      obtain ⟨other, hrequests, loc', s'', hs'', hother⟩ :=
        exists_requests_of_exhibits (observation_reported d) hnext hs' (exhibits_reported.2 hrun)
      -- the name that was followed leads on to the one at fault
      have hleads : LeadsOn u s₀ guard e name other :=
        ⟨value, definiens_of_ne (fun heq => hname (hguard name heq)) hvalue, hrequests⟩
      have hwalk' : (walk ++ [name]).Nodup := by
        rw [List.nodup_append_comm]
        exact List.nodup_cons.2 ⟨hname, hwalk⟩
      have hchain' : List.IsChain (LeadsOn u s₀ guard e) (walk ++ [name] ++ [other]) := by
        rw [List.append_assoc]
        exact List.isChain_append_cons_cons.2 ⟨hchain, hleads, .singleton other⟩
      have hguard' : ∀ g, guard = some g → g ∈ walk ++ [name] :=
        fun g hg => List.mem_append_left _ (hguard g hg)
      exact ih hnext hguard' hwalk' hchain' hs'' (exhibits_reported.1 hother)

/-- Whatever an evaluation reports is a closed walk. -/
theorem circular_of_report {d : Diagnostic}
    (h : ((flattenGuarded u e guard.toList).exec s₀).1 = .error (.report d)) :
    IsCycle u s₀ guard e d := by
  rw [flattenGuarded, Act.exec_bind_of_ok (Act.exec_scope s₀)] at h
  have hfuel := suffices_resolveFuel s₀.scope guard.toList
  obtain ⟨name, hrequests, loc, s, hs, hname⟩ :=
    exists_requests_of_exhibits (observation_reported d) hfuel rfl (exhibits_reported.2 h)
  have hchain : List.IsChain (LeadsOn u s₀ guard e) (guard.toList ++ [name]) := by
    cases guard with
    | none => exact .singleton name
    | some g =>
      -- the name that is being defined stands for the expression
      have hleads : LeadsOn u s₀ (some g) e g name := ⟨e, if_pos rfl, hrequests⟩
      exact .cons_cons hleads (.singleton name)
  have hwalk : guard.toList.Nodup := by cases guard <;> simp
  have hguard : ∀ g, guard = some g → g ∈ guard.toList := fun g hg => by simp [hg]
  exact circular_of_resolve _ hfuel hguard hwalk hchain hs (exhibits_reported.1 hname)

end Walk

/-- Evaluation ends, and reports only real cycles. Over any scope and under any guard, what it does does not
depend on what happens if names are followed through more values than the scope has names, since that is never
reached. Any diagnostic it reports is a circular reference `n₀->n₁->...->n₀`, whose names are distinct and each
of which leads on to the next: evaluating what it is bound to, or for the guard the expression itself, asks the
scope for that. -/
theorem flattenGuarded_cycles (u : Surroundings) (guard : Option Text) (e : Expr) (s : State) :
    (∀ beyond fuel, resolveFuel s.scope ≤ fuel →
      (flattenWith u (resolveWithin u beyond fuel guard.toList) e true).exec s =
        (flattenGuarded u e guard.toList).exec s) ∧
    ∀ d, ((flattenGuarded u e guard.toList).exec s).1 = .error (.report d) →
      ∃ loc name path, d = .fatal loc ("Circular reference " ++ Text.join "->" (name :: path ++ [name])) ∧
        (name :: path).Nodup ∧ List.IsChain (LeadsOn u s guard e) (name :: path ++ [name]) :=
  ⟨fun beyond _ hfuel => exec_resolveWithin beyond guard.toList e s hfuel, fun _ h => circular_of_report h⟩

/-- A state where `X` is bound to `Y + 1` and `Y` to `X`. -/
def crossed : State :=
  .start ⟨(Scope.initial.root.insert "X" { value := some (.binary Location.none .add
      (.identifier Location.none "Y") (.literal Location.none 1)) }).insert "Y"
    { value := some (.identifier Location.none "X") }, []⟩

/-- Over names that lead to each other evaluation ends, and reports the names it went through: from the first
that it meets again, or from the one that is being defined. -/
theorem flattenGuarded_cycles_crossed :
    IsCycle ⟨"m", []⟩ crossed none (.identifier Location.none "Y")
      (.fatal Location.none "Circular reference Y->X->Y") ∧
    IsCycle ⟨"m", []⟩ crossed (some "Y") (.identifier Location.none "X")
      (.fatal Location.none "Circular reference Y->X->Y") ∧
    ((flattenWith ⟨"m", []⟩ (resolveWithin ⟨"m", []⟩ (fun _ _ _ => Act.raise .illegalOperands) 4 [])
      (.identifier Location.none "Y") true).exec crossed).1 =
        .error (.report (.fatal Location.none "Circular reference Y->X->Y")) := by
  refine ⟨(flattenGuarded_cycles ⟨"m", []⟩ none _ crossed).2 _ ?_,
    (flattenGuarded_cycles ⟨"m", []⟩ (some "Y") _ crossed).2 _ ?_, ?_⟩
  · rfl
  · rfl
  · refine (congrArg Prod.fst ((flattenGuarded_cycles ⟨"m", []⟩ none _ crossed).1 _ 4 ?_)).trans ?_
    · decide
    · rfl

end Eval

end MacroAsm
