import MacroAsm.Proofs.Assembly.Definitions
import MacroAsm.Proofs.Encode.Erasure
import MacroAsm.Proofs.Eval.Circular
import MacroAsm.Proofs.Eval.Failure
import MacroAsm.Proofs.Eval.Solution

/-!
# Entering definitions and data

What a program of definitions and data does to what names stand for, one statement after the other. A
definition binds its name to what is left of its value (`Entry.Enters.equate`), and data is evaluated as far
as possible (`Entry.Enters.data`). When all of it was seen, what waits is evaluated again and encoded
(`Entry.Completes`). A run that reports no failure does just that (`Entry.assemble_cases`).
-/

namespace MacroAsm

/-- Whether a token is a diagnostic that fails the run. -/
def Token.fails : Token → Bool
  | .message d => d.fails
  | _ => false

theorem Item.map_token_settled (ts : List Token) : (ts.map Item.settled).map Item.token = ts :=
  (List.map_map ..).trans (List.map_id _)

/-- A fatal diagnostic fails the run. -/
theorem Token.fails_of_isFatal {t : Token} (h : t.isFatal = true) : t.fails = true := by
  cases t with
  | message d => exact Bool.or_eq_true_iff.2 (Or.inl h)
  | _ => cases h

namespace Act

/-- A sequence of actions gives a result if each of them does. -/
theorem exists_of_exec_bind {α β : Type} {act : Act α} {k : α → Act β} {s s' : State} {b : β}
    (h : (act >>= k).exec s = (.ok b, s')) :
    ∃ a s1, act.exec s = (.ok a, s1) ∧ (k a).exec s1 = (.ok b, s') := by
  rcases hexec : act.exec s with ⟨x, s1⟩
  cases x with
  | ok a =>
    rw [exec_bind_of_ok hexec] at h
    exact ⟨a, s1, rfl, h⟩
  | error f =>
    rw [exec_bind_of_error hexec] at h
    cases h

end Act

namespace Eval

variable {u : Surroundings} {s s' : State}

/-- What resolving names under a guard leaves of an expression. -/
theorem leaves_of_exec {e v : Expr} {guard : List Text} {propagate : Bool}
    (h : (flattenWith u (resolve u (resolveFuel s.scope) guard) e propagate).exec s = (.ok v, s')) :
    Leaves u s.scope.radix s.scope.binding e propagate v ∧ s'.scope.binding = s.scope.binding := by
  have hresolve : ∀ loc name, Computes s.scope.binding (resolve u (resolveFuel s.scope) guard loc name)
      (guarded u s.scope.radix s.scope.binding (resolveFuel s.scope) guard loc name) := by
    rw [Scope.radix_eq]
    exact resolve_computes (resolveFuel s.scope) guard
  have hcomputes := flattenWith_computes (u := u) hresolve e propagate s rfl
  rw [h, ← Scope.radix_eq] at hcomputes
  have hresult : outcome u s.scope.radix
      (guarded u s.scope.radix s.scope.binding (resolveFuel s.scope) guard) e propagate = some v :=
    hcomputes.1.symm
  have hcard : (domain s.scope \ guard.toFinset).card < resolveFuel s.scope :=
    lt_of_le_of_lt (Finset.card_le_card Finset.sdiff_subset) (card_domain_lt s.scope)
  refine ⟨⟨resolveFuel s.scope, ?_⟩, hcomputes.2⟩
  exact outcome_mono (guarded_le_follow (mem_domain_of_isSome s.scope) _ guard hcard) e propagate v hresult

/-- What evaluation leaves of an expression. -/
theorem leaves_of_flattenGuarded {e v : Expr} {guard : List Text}
    (h : (flattenGuarded u e guard).exec s = (.ok v, s')) :
    Leaves u s.scope.radix s.scope.binding e true v ∧ s'.scope.binding = s.scope.binding := by
  rw [flattenGuarded, Act.exec_bind_of_ok (Act.exec_scope s)] at h
  exact leaves_of_exec h

/-- What building the names in an expression leaves of it. -/
theorem leaves_of_nameOnly {e v : Expr} (h : (nameOnly u e).exec s = (.ok v, s')) :
    Leaves u s.scope.radix s.scope.binding e false v ∧ s'.scope.binding = s.scope.binding := by
  rw [nameOnly, Act.exec_bind_of_ok (Act.exec_scope s)] at h
  exact leaves_of_exec h

/-- An expression that spells a name leaves that name. -/
theorem leaves_of_nameOf {e : Expr} {name : Text} (h : (nameOf u e).exec s = (.ok name, s')) :
    (∃ loc, Leaves u s.scope.radix s.scope.binding e false (.identifier loc name)) ∧
      s'.scope.binding = s.scope.binding := by
  rw [nameOf] at h
  obtain ⟨v, s1, hv, hname⟩ := Act.exists_of_exec_bind h
  obtain ⟨hleaves, hbinding⟩ := leaves_of_nameOnly hv
  split at hname
  · cases hname
    exact ⟨⟨_, hleaves⟩, hbinding⟩
  · cases hname

/-- Evaluation counts expressions that wait, and forgets none. -/
theorem tracks_deferred : Tracks (fun s s' => s.deferred ≤ s'.deferred) fun _ _ => True where
  refl _ := le_refl _
  trans _ _ _ := le_trans
  known _ _ _ _ _ := trivial
  request loc name s := by
    refine ⟨?_, trivial⟩
    rw [request, Act.exec_bind_of_ok (Act.exec_scope s)]
    cases hfind : s.scope.find? name with
    | some sym => exact le_refl _
    | none =>
      simp only [Scope.declareLocal_of_find?_eq_none hfind]
      exact le_refl _
  deferred s := Nat.le_succ _

/-- What evaluation leaves of an expression, and what it counts. -/
theorem leaves_of_evaluate {e v : Expr} (h : (evaluate u true e).exec s = (.ok v, s')) :
    Leaves u s.scope.radix s.scope.binding e true v ∧ s'.scope.binding = s.scope.binding ∧
      s.deferred ≤ s'.deferred ∧ (s'.deferred ≤ s.deferred → v.isResolved = true) := by
  rw [evaluate] at h
  obtain ⟨w, s1, hw, hsettle⟩ := Act.exists_of_exec_bind h
  obtain ⟨hleaves, hbinding⟩ := leaves_of_flattenGuarded hw
  have hcount := (tracks_deferred.evaluates (u := u) fun _ _ _ _ _ _ => trivial).value e [] s
  rw [show flattenGuarded u e [] = flatten u e from rfl, Act.Yields, hw] at hcount
  have hle : s.deferred ≤ s1.deferred := hcount.1
  rw [settle] at hsettle
  split at hsettle
  · rename_i hresolved
    cases hsettle
    exact ⟨hleaves, hbinding, hle, fun _ => hresolved⟩
  · -- an expression that waits is counted
    cases hsettle
    refine ⟨hleaves, hbinding, Nat.le_succ_of_le hle, fun hcounted => ?_⟩
    exact absurd (lt_of_le_of_lt hle (Nat.lt_succ_self _)) (Nat.not_lt.2 hcounted)

/-- What evaluation leaves of the expressions of a list, and what it counts. -/
theorem leaves_of_evaluateAll {es vs : List Expr} (h : (evaluateAll u true es).exec s = (.ok vs, s')) :
    List.Forall₂ (fun e v => Leaves u s.scope.radix s.scope.binding e true v) es vs ∧
      s'.scope.binding = s.scope.binding ∧ s.deferred ≤ s'.deferred ∧
      (s'.deferred ≤ s.deferred → ∀ v ∈ vs, v.isResolved = true) := by
  induction es generalizing s vs s' with
  | nil =>
    cases h
    exact ⟨.nil, rfl, le_refl _, fun _ v hv => absurd hv List.not_mem_nil⟩
  | cons e rest ih =>
    rw [evaluateAll] at h
    obtain ⟨v, s1, hv, hrest⟩ := Act.exists_of_exec_bind h
    obtain ⟨vs', s2, hvs, heq⟩ := Act.exists_of_exec_bind hrest
    cases heq
    obtain ⟨hleaves, hbinding, hle, hresolved⟩ := leaves_of_evaluate hv
    obtain ⟨hall, hbinding', hle', hresolved'⟩ := ih hvs
    rw [hbinding, Scope.radix_eq, hbinding, ← Scope.radix_eq] at hall
    refine ⟨.cons hleaves hall, hbinding'.trans hbinding, hle.trans hle', fun hcounted => ?_⟩
    exact List.forall_mem_cons.2 ⟨hresolved (hle'.trans hcounted), hresolved' (hcounted.trans hle)⟩

end Eval

namespace Stage

/-- Handling an item leaves a trail the items that it has. -/
def Grows (f : Item → Trail → StateM State Trail) : Prop :=
  ∀ item t s, t.items <+: ((f item t).run s).1.items

/-- Handling the items of a list leaves a trail the items that it has. -/
theorem Grows.feed {f : Item → Trail → StateM State Trail} (hf : Grows f) (items : List Item) (t : Trail)
    (s : State) : t.items <+: ((feed f items t).run s).1.items := by
  induction items generalizing t s with
  | nil => exact List.prefix_refl _
  | cons item rest ih =>
    rw [Stage.feed]
    split
    · exact List.prefix_refl _
    · exact (hf item t s).trans (ih ((f item t).run s).1 ((f item t).run s).2)

/-- Taking an item through the steps of a stage leaves a trail the items that it has. -/
theorem grows_through (inMacro : Bool) (last : Pass) (passes : List Pass) :
    Grows (through inMacro last passes) := by
  induction passes with
  | nil =>
    intro item t s
    rcases hrun : (last.handle inMacro item).run s with ⟨out, s'⟩
    rw [run_through_last hrun, Trail.items_add]
    exact List.prefix_append _ _
  | cons p passes ih =>
    intro item t s
    rw [through, StateM.run_bind]
    exact ih.feed _ t _

/-- A diagnostic that fails the run stays in the trail. -/
theorem fails_feed {f : Item → Trail → StateM State Trail} (hf : Grows f) {t : Trail}
    (ht : ∃ i ∈ t.items, i.token.fails = true) (items : List Item) (s : State) :
    ∃ i ∈ ((feed f items t).run s).1.items, i.token.fails = true := by
  obtain ⟨i, hi, hfails⟩ := ht
  exact ⟨i, (hf.feed items t s).subset hi, hfails⟩

end Stage

namespace Entry

open Eval (Leaves)

/-- A statement is entered: what names stand for, what is left of the statement, and what names stand for
after it. -/
inductive Enters (u : Surroundings) (radix : Nat) :
    (Text → Binding) → Token → List Item → (Text → Binding) → Prop where
  /-- A definition binds an unset name to what is left of the value. -/
  | equate {b : Text → Binding} {loc l : Location} {n n' e v : Expr} {name : Text}
    (hbuilt : Leaves u radix b n false n') (hname : Leaves u radix b n' false (.identifier l name))
    (hvalue : Leaves u radix b e true v) (hunset : (b name).isSet = false) :
    Enters u radix b (.assign loc .equate n e) [] (Function.update b name ⟨some v, false⟩)
  /-- Data is evaluated, and marked unless nothing in it waits. -/
  | data {b : Text → Binding} {loc : Location} {kind : DataKind} {es vs : List Expr} {pending : Bool}
    (hvalues : List.Forall₂ (fun e v => Leaves u radix b e true v) es vs)
    (hresolved : pending = false → ∀ v ∈ vs, v.isResolved = true) :
    Enters u radix b (.data loc kind es) [⟨.data loc kind vs, pending⟩] b

/-- The statements of a list are entered. -/
inductive EntersAll (u : Surroundings) (radix : Nat) :
    (Text → Binding) → List Token → List Item → (Text → Binding) → Prop where
  /-- There is nothing to enter. -/
  | nil {b : Text → Binding} : EntersAll u radix b [] [] b
  /-- One statement is entered before the others. -/
  | cons {b b' b'' : Text → Binding} {t : Token} {rest : List Token} {items items' : List Item}
    (hfirst : Enters u radix b t items b') (hrest : EntersAll u radix b' rest items' b'') :
    EntersAll u radix b (t :: rest) (items ++ items') b''

/-- What is left of data is evaluated again if it is marked, and encoded. -/
inductive Completes (u : Surroundings) (radix : Nat) (b : Text → Binding) : Item → List Token → Prop where
  /-- It is marked. -/
  | pending {loc : Location} {kind : DataKind} {vs rs : List Expr} {ts : List Token}
    (hvalues : List.Forall₂ (fun v r => Leaves u radix b v true r) vs rs)
    (hencoded : Encode.data kind rs = .ok ts) : Completes u radix b ⟨.data loc kind vs, true⟩ ts
  /-- It is not. -/
  | settled {loc : Location} {kind : DataKind} {vs : List Expr} {ts : List Token}
    (hencoded : Encode.data kind vs = .ok ts) : Completes u radix b ⟨.data loc kind vs, false⟩ ts

section Extends

variable {u : Surroundings} {radix : Nat} {b b' : Text → Binding}

/-- What is entered is a definition or data. -/
theorem Enters.equate_or_data {t : Token} {items : List Item} (h : Enters u radix b t items b') :
    (∃ loc n e, t = .assign loc .equate n e) ∨ ∃ loc kind es, t = .data loc kind es := by
  cases h with
  | equate => exact Or.inl ⟨_, _, _, rfl⟩
  | data => exact Or.inr ⟨_, _, _, rfl⟩

/-- What a name stands for does not change. -/
theorem Enters.eq_of_isSet {t : Token} {items : List Item} (h : Enters u radix b t items b') {name : Text}
    (hname : (b name).isSet = true) : b' name = b name := by
  cases h with
  | equate _ _ _ hunset =>
    refine Function.update_of_ne ?_ _ _
    rintro rfl
    rw [hunset] at hname
    cases hname
  | data => rfl

/-- What a name stands for does not change from one statement to the next. -/
theorem EntersAll.eq_of_isSet {ts : List Token} {items : List Item} (h : EntersAll u radix b ts items b')
    {name : Text} (hname : (b name).isSet = true) : b' name = b name := by
  induction h with
  | nil => rfl
  | cons hfirst _ ih =>
    have hkept := hfirst.eq_of_isSet hname
    exact (ih (by rw [hkept]; exact hname)).trans hkept

end Extends

section Bind

variable {w : Workbench} {s : State} {t : Trail}

/-- The value of a definition is evaluated while its name, if that is known, is being defined. -/
theorem reduceValue_eq (u : Surroundings) (n e : Expr) :
    ∃ guard, Token.reduceValue u .equate n e = Eval.flattenGuarded u e guard >>= Eval.settle true := by
  cases n with
  | identifier loc name => exact ⟨[name], by rw [Token.reduceValue, Eval.evaluateDefinition]⟩
  | _ => exact ⟨[], by rw [Token.reduceValue, Eval.evaluate, Eval.flatten] <;> simp⟩

/-- Evaluating the value of a definition leaves what evaluation does. -/
theorem leaves_of_reduceValue {u : Surroundings} {n e v : Expr} {s' : State}
    (h : (Token.reduceValue u .equate n e).exec s = (.ok v, s')) :
    Leaves u s.scope.radix s.scope.binding e true v ∧ s'.scope.binding = s.scope.binding := by
  obtain ⟨guard, heq⟩ := reduceValue_eq u n e
  rw [heq] at h
  obtain ⟨v', s1, hv, hsettle⟩ := Act.exists_of_exec_bind h
  obtain ⟨s2, hexec, hscope⟩ := Eval.exec_settle v' s1
  rw [hexec] at hsettle
  cases hsettle
  obtain ⟨hleaves, hbinding⟩ := Eval.leaves_of_flattenGuarded hv
  exact ⟨hleaves, by rw [hscope]; exact hbinding⟩

/-- Evaluating the value of a definition makes the run fail if it fails. -/
theorem isLoud_reduceValue (u : Surroundings) (n e : Expr) : (Token.reduceValue u .equate n e).IsLoud := by
  obtain ⟨guard, heq⟩ := reduceValue_eq u n e
  rw [heq]
  exact (Eval.isLoud_flattenGuarded u e guard).bind fun v => Eval.isLoud_settle true v

/-- EQU goes on with the name that its expression spells. -/
theorem exec_equate_of_nameOf {n v : Expr} {name : Text} {s' : State}
    (h : (Eval.nameOf w.around n).exec s = (.ok name, s')) (loc l : Location) :
    (Bind.equate w loc n v).exec s = (Bind.equate w loc (.identifier l name) v).exec s' := by
  rw [Bind.equate, Act.exec_bind_of_ok h, Bind.equate,
    Act.exec_bind_of_ok (Bind.exec_nameOf_identifier w.around l name s')]

/-- From a trail a stage came to a result: a failure was reported, or the items that were added and the state
satisfy `P`, and the stage goes on. -/
def Advances (t : Trail) (P : List Item → State → Prop) (r : Trail × State) : Prop :=
  (∃ i ∈ r.1.items, i.token.fails = true) ∨
    ∃ items, r.1.items = t.items ++ items ∧ r.1.stopped = false ∧ P items r.2

theorem Advances.of_fails {P : List Item → State → Prop} {d : Diagnostic} (hd : d.fails = true) (closed : Bool)
    (s : State) : Advances t P (t.add ⟨[.message d], closed, s⟩, s) :=
  Or.inl ⟨.message d, by rw [Trail.items_add]; exact List.mem_append_right _ (List.mem_singleton.2 rfl), hd⟩

theorem Advances.of_add {P : List Item → State → Prop} (ht : t.stopped = false) {items : List Item}
    (h : P items s) : Advances t P (t.add ⟨items, false, s⟩, s) :=
  Or.inr ⟨items, Trail.items_add t _, by rw [Trail.stopped_add, ht]; rfl, h⟩

/-- Items that each go on with what they lead to, from every state of a kind, do so one after the other. -/
theorem advances_feed {f : Item → Trail → StateM State Trail} (hgrows : Stage.Grows f) {I : State → Prop}
    {E : Item → List Token → Prop} {items : List Item}
    (h : ∀ item ∈ items, ∀ (t : Trail) (s : State), t.stopped = false → I s →
      Advances t (fun added s' => I s' ∧ E item (added.map Item.token)) ((f item t).run s))
    (ht : t.stopped = false) (hs : I s) :
    Advances t (fun added s' => I s' ∧ ∃ tss, added.map Item.token = tss.flatten ∧ List.Forall₂ E items tss)
      ((Stage.feed f items t).run s) := by
  induction items generalizing t s with
  | nil => exact Or.inr ⟨[], (List.append_nil _).symm, ht, hs, [], rfl, .nil⟩
  | cons item rest ih =>
    rw [List.forall_mem_cons] at h
    have hstep := h.1 t s ht hs
    rcases hrun : (f item t).run s with ⟨t1, s1⟩
    rw [hrun] at hstep
    rw [Stage.run_feed_cons ht hrun]
    rcases hstep with hfails | ⟨added, hadded, ht1, hs1, hfirst⟩
    · exact Or.inl (Stage.fails_feed hgrows hfails _ s1)
    · rcases ih h.2 ht1 hs1 with hfails | ⟨added', hadded', ht2, hs2, tss, htokens, hall⟩
      · exact Or.inl hfails
      · refine Or.inr ⟨added ++ added', ?_, ht2, hs2, added.map Item.token :: tss, ?_, .cons hfirst hall⟩
        · rw [hadded', hadded, List.append_assoc]
        · rw [List.map_append, htokens, List.flatten_cons]

/-- A step that makes the run fail if it fails reports a failure. -/
theorem advances_of_error {P : List Item → State → Prop} (ht : t.stopped = false) {inMacro : Bool}
    {p last : Pass} {passes : List Pass} {item : Item} {f : Failure} {s' : State}
    (hitem : item.token.isMessage = false) (hf : f.fails = true)
    (h : (p item).exec (Output.empty inMacro, s) = (.error f, (Output.empty inMacro, s'))) :
    Advances t P ((Stage.through inMacro last (p :: passes) item t).run s) := by
  rw [Stage.run_through_report ht (Pass.run_handle_of_error hitem h)]
  exact .of_fails (by rwa [Failure.fails_toDiagnostic]) _ s'

/-- The last step reports a failure if it makes the run fail. -/
theorem advances_last_of_error {P : List Item → State → Prop} {inMacro : Bool} {last : Pass} {item : Item}
    {f : Failure} {s' : State} (hitem : item.token.isMessage = false) (hf : f.fails = true)
    (h : (last item).exec (Output.empty inMacro, s) = (.error f, (Output.empty inMacro, s'))) :
    Advances t P ((Stage.through inMacro last [] item t).run s) := by
  rw [Stage.run_through_last (Pass.run_handle_of_error hitem h)]
  exact .of_fails (by rwa [Failure.fails_toDiagnostic]) _ s'

/-- A step that only acts on the state adds nothing, or reports its failure. -/
theorem advances_localize_act (ht : t.stopped = false) {item : Item} (hitem : item.token.isMessage = false)
    {act : Act PUnit} (hlocalize : Pass.localize w item = liftM act) {P : List Item → State → Prop}
    (h : (∃ s', act.exec s = (.ok ⟨⟩, s') ∧ P [] s') ∨ ∃ f s', act.exec s = (.error f, s') ∧ f.fails = true) :
    Advances t P ((Stage.through w.block.inMacro (.localize w) [] item t).run s) := by
  rcases h with ⟨s', hexec, hP⟩ | ⟨f, s', hexec, hf⟩
  · have hdone : (Pass.localize w item).exec (Output.empty w.block.inMacro, s) =
        (.ok ⟨⟩, (Output.empty w.block.inMacro, s')) := by
      rw [hlocalize, Emission.exec_monadLift_of_ok hexec]
    rw [Stage.run_through_last (Pass.run_handle_of_ok hitem hdone)]
    exact .of_add ht hP
  · have hfailed : (Pass.localize w item).exec (Output.empty w.block.inMacro, s) =
        (.error f, (Output.empty w.block.inMacro, s')) := by
      rw [hlocalize, Emission.exec_monadLift_of_error hexec]
    exact advances_last_of_error hitem hf hfailed

/-- The second stage for one item. -/
def bindOne (w : Workbench) : Item → Trail → StateM State Trail :=
  Stage.through w.block.inMacro (.localize w) [.reduceFirst w]

/-- From a state a definition is prepared: its expressions are evaluated, which leaves `v` of the value, and its
name is built. -/
def Prepares (u : Surroundings) (s : State) (t : Token) (name : Text) (v : Expr) (s' : State) : Prop :=
  ∃ loc n s1, (Token.reduce u t).exec s = (.ok (.assign loc .equate n v), s1) ∧
    (Eval.nameOf u n).exec s1 = (.ok name, s')

/-- The second stage prepares a definition, and binds its name. -/
theorem advances_prepares (w : Workbench) (ht : t.stopped = false) (loc : Location) (n e : Expr) (s : State) :
    Advances t (fun items s' => items = [] ∧ ∃ name v s1,
        Prepares w.around s (.assign loc .equate n e) name v s1 ∧ (s1.scope.binding name).isSet = false ∧
          (Bind.equate w loc (.identifier loc name) v).exec s1 = (.ok ⟨⟩, s'))
      ((bindOne w (.settled (.assign loc .equate n e)) t).run s) := by
  rw [bindOne]
  have hreduce : Token.reduce w.around (.assign loc .equate n e) = (do
      let name ← Eval.nameOnly w.around n
      return .assign loc .equate name (← Token.reduceValue w.around .equate name e)) := by
    rw [Token.reduce]
  have hloud : (Token.reduce w.around (.assign loc .equate n e)).IsLoud := by
    rw [hreduce]
    exact (Eval.isLoud_nameOnly w.around n).bind fun name =>
      (isLoud_reduceValue w.around name e).bind fun v => .pure _
  rcases hexec : (Token.reduce w.around (.assign loc .equate n e)).exec s with ⟨x, s1⟩
  cases x with
  | error f =>
    have hf := hloud s f (by rw [hexec])
    exact advances_of_error ht rfl hf (Pass.exec_reduceFirst_of_error hexec)
  | ok token =>
    have hparts := hexec
    rw [hreduce] at hparts
    obtain ⟨n', s2, -, hparts⟩ := Act.exists_of_exec_bind hparts
    obtain ⟨v, s3, -, hparts⟩ := Act.exists_of_exec_bind hparts
    cases hparts
    rw [Stage.run_through_step ht (Pass.run_handle_of_ok rfl (Pass.exec_reduceFirst_of_ok hexec)) rfl]
    have hact : ∀ pending, Pass.localize w ⟨.assign loc .equate n' v, pending⟩ = liftM (Bind.equate w loc n' v) :=
      fun _ => rfl
    refine advances_localize_act ht rfl (hact _) ?_
    rcases hspell : (Eval.nameOf w.around n').exec s1 with ⟨x, s4⟩
    cases x with
    | error f =>
      exact Or.inr ⟨f, s4, Act.exec_bind_of_error hspell, Eval.isLoud_nameOf w.around n' s1 f (by rw [hspell])⟩
    | ok name =>
      have hequate := exec_equate_of_nameOf (v := v) hspell loc loc
      cases hset : (s4.scope.binding name).isSet with
      | false =>
        obtain ⟨s5, hbound, -⟩ := Bind.exec_equate_of_unset hset w loc loc v
        exact Or.inl ⟨s5, hequate.trans hbound, rfl, name, v, s4, ⟨loc, n', s1, hexec, hspell⟩, hset, hbound⟩
      | true => exact Or.inr ⟨_, s4, hequate.trans (Bind.exec_equate_of_isSet hset w loc loc v), rfl⟩

/-- What is left of the expressions of a definition that is prepared. Nothing is bound meanwhile. -/
theorem Prepares.leaves {u : Surroundings} {s1 : State} {loc : Location} {n e v : Expr} {name : Text}
    (h : Prepares u s (.assign loc .equate n e) name v s1) :
    (∃ n' l, Leaves u s.scope.radix s.scope.binding n false n' ∧
      Leaves u s.scope.radix s.scope.binding n' false (.identifier l name) ∧
      Leaves u s.scope.radix s.scope.binding e true v) ∧ s1.scope.binding = s.scope.binding := by
  obtain ⟨loc', n', s2, hreduce, hspell⟩ := h
  rw [Token.reduce] at hreduce
  obtain ⟨n'', s3, hname, hparts⟩ := Act.exists_of_exec_bind hreduce
  obtain ⟨v', s4, hvalue, hparts⟩ := Act.exists_of_exec_bind hparts
  cases hparts
  obtain ⟨hbuilt, hbinding⟩ := Eval.leaves_of_nameOnly hname
  obtain ⟨hleaves, hbinding'⟩ := leaves_of_reduceValue hvalue
  obtain ⟨⟨l, hspells⟩, hbinding''⟩ := Eval.leaves_of_nameOf hspell
  rw [Scope.radix_eq, hbinding, ← Scope.radix_eq] at hleaves
  rw [Scope.radix_eq, hbinding', hbinding, ← Scope.radix_eq] at hspells
  exact ⟨⟨n', l, hbuilt, hspells, hleaves⟩, by rw [hbinding'', hbinding', hbinding]⟩

/-- The second stage enters a definition. -/
theorem advances_equate (w : Workbench) (ht : t.stopped = false) (loc : Location) (n e : Expr) (s : State) :
    Advances t (fun items s' => Enters w.around s.scope.radix s.scope.binding (.assign loc .equate n e) items
        s'.scope.binding)
      ((bindOne w (.settled (.assign loc .equate n e)) t).run s) := by
  refine (advances_prepares w ht loc n e s).imp_right ?_
  rintro ⟨items, hitems, hstopped, rfl, name, v, s1, hprepares, hunset, hbound⟩
  obtain ⟨⟨n', l, hbuilt, hspells, hleaves⟩, hbinding⟩ := hprepares.leaves
  obtain ⟨s2, hbound', hupdate⟩ := Bind.exec_equate_of_unset hunset w loc loc v
  rw [hbound] at hbound'
  cases hbound'
  rw [hbinding] at hunset hupdate
  have henters : Enters w.around s.scope.radix s.scope.binding (.assign loc .equate n e) [] _ :=
    .equate hbuilt hspells hleaves hunset
  rw [← hupdate] at henters
  exact ⟨[], hitems, hstopped, henters⟩

/-- Data is passed on by the steps that bind and expand. -/
theorem run_handle_localize_data (w : Workbench) (inMacro : Bool) (loc : Location) (kind : DataKind)
    (vs : List Expr) (pending : Bool) (s : State) :
    ((Pass.localize w).handle inMacro ⟨.data loc kind vs, pending⟩).run s =
      ((Output.empty inMacro).push ⟨.data loc kind vs, pending⟩, s) :=
  Pass.run_handle_of_ok rfl rfl

/-- The second stage evaluates data, and marks it if something in it waits. -/
theorem advances_evaluates (w : Workbench) (ht : t.stopped = false) (loc : Location) (kind : DataKind)
    (es : List Expr) (s : State) :
    Advances t (fun items s' => ∃ vs, (Eval.evaluateAll w.around true es).exec s = (.ok vs, s') ∧
        items = [⟨.data loc kind vs, decide (s.deferred < s'.deferred)⟩])
      ((bindOne w (.settled (.data loc kind es)) t).run s) := by
  rw [bindOne]
  have hreduce : Token.reduce w.around (.data loc kind es) = (do
      return .data loc kind (← Eval.evaluateAll w.around true es)) := by
    rw [Token.reduce]
  rcases hexec : (Token.reduce w.around (.data loc kind es)).exec s with ⟨x, s1⟩
  cases x with
  | error f =>
    have hloud : (Token.reduce w.around (.data loc kind es)).IsLoud := by
      rw [hreduce]
      exact (Eval.isLoud_evaluateAll w.around true es).bind fun vs => .pure _
    have hf := hloud s f (by rw [hexec])
    exact advances_of_error ht rfl hf (Pass.exec_reduceFirst_of_error hexec)
  | ok token =>
    have hparts := hexec
    rw [hreduce] at hparts
    obtain ⟨vs, s2, hvalues, hparts⟩ := Act.exists_of_exec_bind hparts
    cases hparts
    rw [Stage.run_through_step ht (Pass.run_handle_of_ok rfl (Pass.exec_reduceFirst_of_ok hexec)) rfl,
      Stage.run_through_last (run_handle_localize_data w _ loc kind vs _ s1)]
    exact .of_add ht ⟨vs, hvalues, rfl⟩

/-- The second stage enters data. -/
theorem advances_data (w : Workbench) (ht : t.stopped = false) (loc : Location) (kind : DataKind)
    (es : List Expr) (s : State) :
    Advances t (fun items s' => Enters w.around s.scope.radix s.scope.binding (.data loc kind es) items
        s'.scope.binding)
      ((bindOne w (.settled (.data loc kind es)) t).run s) := by
  refine (advances_evaluates w ht loc kind es s).imp_right ?_
  rintro ⟨items, hitems, hstopped, vs, hvalues, rfl⟩
  obtain ⟨hleaves, hbinding, -, hresolved⟩ := Eval.leaves_of_evaluateAll hvalues
  refine ⟨_, hitems, hstopped, ?_⟩
  beta_reduce
  rw [hbinding]
  exact .data hleaves fun hpending => hresolved (by simpa using hpending)

/-- The second stage enters a statement. -/
theorem advances_bind (w : Workbench) (ht : t.stopped = false) {token : Token}
    (htoken : token.isEquate = true ∨ token.isData = true) (s : State) :
    Advances t (fun items s' => Enters w.around s.scope.radix s.scope.binding token items s'.scope.binding)
      ((bindOne w (.settled token) t).run s) := by
  rcases Token.equate_or_data htoken with ⟨loc, n, e, rfl⟩ | ⟨loc, kind, es, rfl⟩
  · exact advances_equate w ht loc n e s
  · exact advances_data w ht loc kind es s

/-- The second stage enters all statements. -/
theorem advances_feed_bind (w : Workbench) (ht : t.stopped = false) {source : List Token}
    (hsource : ∀ token ∈ source, token.isEquate = true ∨ token.isData = true)
    (hradix : (s.scope.binding Scope.radixName).isSet = true) :
    Advances t (fun items s' => EntersAll w.around s.scope.radix s.scope.binding source items s'.scope.binding)
      ((Stage.feed (bindOne w) (source.map .settled) t).run s) := by
  induction source generalizing t s with
  | nil => exact Or.inr ⟨[], (List.append_nil _).symm, ht, .nil⟩
  | cons token rest ih =>
    rw [List.forall_mem_cons] at hsource
    have hstep := advances_bind w ht hsource.1 s
    rcases hrun : (bindOne w (.settled token) t).run s with ⟨t1, s1⟩
    rw [hrun] at hstep
    rw [List.map_cons, Stage.run_feed_cons ht hrun]
    rcases hstep with hfails | ⟨items, hitems, ht1, henters⟩
    · exact Or.inl (Stage.fails_feed (Stage.grows_through _ _ _) hfails _ s1)
    · -- the radix is bound, and stays what it is
      have hkept := henters.eq_of_isSet hradix
      have hsame : s1.scope.radix = s.scope.radix := by rw [Scope.radix_eq, hkept, ← Scope.radix_eq]
      rcases ih ht1 hsource.2 (by rw [hkept]; exact hradix) with hfails | ⟨items', hitems', ht2, hall⟩
      · exact Or.inl hfails
      · rw [hsame] at hall
        exact Or.inr ⟨items ++ items', by rw [hitems', hitems, List.append_assoc], ht2, .cons henters hall⟩

end Bind

section Finish

variable {w : Workbench} {s : State} {t : Trail}

/-- The third stage for one item. -/
def finishOne (w : Workbench) : Item → Trail → StateM State Trail :=
  Stage.through w.block.inMacro (.ofToken (Finish.complete w))
    [.reduceAgain w, .localize w, .expandRest w, .ofToken Finish.relax, .ofToken (Finish.encode w)]

theorem finishStage_eq (w : Workbench) (items : List Item) :
    w.finishStage items = Stage.feed (finishOne w) (Stage.messagesFirst items) Trail.empty := rfl

/-- What the last step emits for data. -/
def completed (loc : Location) (kind : DataKind) (vs : List Expr) : List Item :=
  match Encode.data kind vs with
  | .ok ts => ts.map .settled
  | .error d => [.message (d.locate loc)]

/-- Data is encoded by the last step. -/
theorem run_through_complete (w : Workbench) (t : Trail) (loc : Location) (kind : DataKind) (vs : List Expr)
    (pending : Bool) (s : State) :
    (Stage.through w.block.inMacro (.ofToken (Finish.complete w)) [] ⟨.data loc kind vs, pending⟩ t).run s =
      (t.add ⟨completed loc kind vs, false, s⟩, s) := by
  have hcomplete : (Pass.ofToken (Finish.complete w) ⟨.data loc kind vs, pending⟩ : Emission PUnit) =
      Finish.encoded (Encode.data kind vs) := rfl
  rw [completed]
  cases hdata : Encode.data kind vs with
  | error d =>
    have hexec : (Pass.ofToken (Finish.complete w) ⟨.data loc kind vs, pending⟩).exec
        (Output.empty w.block.inMacro, s) = (.error (.report d), (Output.empty w.block.inMacro, s)) := by
      rw [hcomplete, hdata]
      rfl
    rw [Stage.run_through_last (Pass.run_handle_of_error rfl hexec), Output.closed_push_empty]
    have hmild : d.isFatal = false := Encode.isFatal_of_data hdata
    exact congrArg (fun closed => (t.add ⟨[.message (d.locate loc)], closed, s⟩, s)) hmild
  | ok ts =>
    have hterminal : ∀ item ∈ ts.map Item.settled, item.token.isTerminal w.block.inMacro = false := by
      intro item hitem
      obtain ⟨token, htoken, rfl⟩ := List.mem_map.1 hitem
      exact Encode.isTerminal_of_data hdata token htoken
    have hpushed := Output.items_pushAll (o := Output.empty w.block.inMacro) rfl hterminal
    have hexec : (Pass.ofToken (Finish.complete w) ⟨.data loc kind vs, pending⟩).exec
        (Output.empty w.block.inMacro, s) =
        (.ok ⟨⟩, ((Output.empty w.block.inMacro).pushAll (ts.map .settled), s)) := by
      rw [hcomplete, hdata]
      rfl
    rw [Stage.run_through_last (Pass.run_handle_of_ok rfl hexec), hpushed.1, hpushed.2]
    rfl

/-- The last step encodes data or reports a failure. -/
theorem advances_complete (ht : t.stopped = false) (loc : Location) (kind : DataKind) (rs : List Expr)
    (pending : Bool) {P : List Item → State → Prop}
    (hP : ∀ ts, Encode.data kind rs = .ok ts → P (ts.map .settled) s) :
    Advances t P ((Stage.through w.block.inMacro (.ofToken (Finish.complete w)) []
      ⟨.data loc kind rs, pending⟩ t).run s) := by
  rw [run_through_complete, completed]
  cases hdata : Encode.data kind rs with
  | error d =>
    obtain ⟨e, c, -, rfl⟩ := Encode.exists_of_data_eq_error hdata
    exact .of_fails (by cases c <;> rfl) _ s
  | ok ts => exact .of_add ht (hP ts hdata)

/-- The steps after evaluation leave data to the last one. -/
theorem run_through_data (ht : t.stopped = false) (loc : Location) (kind : DataKind) (rs : List Expr)
    (pending : Bool) (s : State) :
    (Stage.through w.block.inMacro (.ofToken (Finish.complete w))
        [.localize w, .expandRest w, .ofToken Finish.relax, .ofToken (Finish.encode w)]
        ⟨.data loc kind rs, pending⟩ t).run s =
      (Stage.through w.block.inMacro (.ofToken (Finish.complete w)) [] ⟨.data loc kind rs, false⟩ t).run
        { s with bankSwitched := false } := by
  have hexpand : ((Pass.expandRest w).handle w.block.inMacro ⟨.data loc kind rs, pending⟩).run s =
      ((Output.empty w.block.inMacro).push ⟨.data loc kind rs, pending⟩, s) := Pass.run_handle_of_ok rfl rfl
  have hrelax : ((Pass.ofToken Finish.relax).handle w.block.inMacro ⟨.data loc kind rs, pending⟩).run s =
      ((Output.empty w.block.inMacro).push (.settled (.data loc kind rs)), { s with bankSwitched := false }) :=
    Pass.run_handle_of_ok rfl rfl
  have hencode : ((Pass.ofToken (Finish.encode w)).handle w.block.inMacro (.settled (.data loc kind rs))).run
      { s with bankSwitched := false } =
      ((Output.empty w.block.inMacro).push (.settled (.data loc kind rs)), { s with bankSwitched := false }) :=
    Pass.run_handle_of_ok rfl rfl
  rw [Stage.run_through_step ht (run_handle_localize_data w _ loc kind rs pending s) rfl,
    Stage.run_through_step ht hexpand rfl, Stage.run_through_step ht hrelax rfl,
    Stage.run_through_step ht hencode rfl]
  rfl

/-- The third stage completes data. -/
theorem advances_finish (w : Workbench) (ht : t.stopped = false) (loc : Location) (kind : DataKind)
    (vs : List Expr) (pending : Bool) (s : State) :
    Advances t (fun items s' => s'.scope.binding = s.scope.binding ∧ ∃ ts, items = ts.map .settled ∧
        Completes w.around s.scope.radix s.scope.binding ⟨.data loc kind vs, pending⟩ ts)
      ((finishOne w ⟨.data loc kind vs, pending⟩ t).run s) := by
  rw [finishOne]
  cases pending with
  | false =>
    have hagain : ((Pass.reduceAgain w).handle w.block.inMacro ⟨.data loc kind vs, false⟩).run s =
        ((Output.empty w.block.inMacro).push ⟨.data loc kind vs, false⟩, s) := Pass.run_handle_of_ok rfl rfl
    rw [Stage.run_through_step ht hagain rfl, run_through_data ht]
    exact advances_complete ht loc kind vs false fun ts hts => ⟨rfl, ts, rfl, .settled hts⟩
  | true =>
    have hreduce : Token.reduce w.around (.data loc kind vs) = (do
        return .data loc kind (← Eval.evaluateAll w.around true vs)) := by
      rw [Token.reduce]
    rcases hexec : (Token.reduce w.around (.data loc kind vs)).exec s with ⟨x, s1⟩
    cases x with
    | error f =>
      have hloud : (Token.reduce w.around (.data loc kind vs)).IsLoud := by
        rw [hreduce]
        exact (Eval.isLoud_evaluateAll w.around true vs).bind fun _ => .pure _
      have hf := hloud s f (by rw [hexec])
      exact advances_of_error ht rfl hf (Pass.exec_reduceAgain_of_error rfl hexec)
    | ok token =>
      have hparts := hexec
      rw [hreduce] at hparts
      obtain ⟨rs, s2, hvalues, hparts⟩ := Act.exists_of_exec_bind hparts
      cases hparts
      obtain ⟨hleaves, hbinding, -⟩ := Eval.leaves_of_evaluateAll hvalues
      rw [Stage.run_through_step ht (Pass.run_handle_of_ok rfl (Pass.exec_reduceAgain_of_ok rfl hexec)) rfl]
      rw [show Item.settled (.data loc kind rs) = ⟨.data loc kind rs, false⟩ from rfl, run_through_data ht]
      exact advances_complete ht loc kind rs false fun ts hts => ⟨hbinding, ts, rfl, .pending hleaves hts⟩

/-- What is left of statements that were entered is data. -/
theorem EntersAll.isData {u : Surroundings} {radix : Nat} {b b' : Text → Binding} {source : List Token}
    {items : List Item} (h : EntersAll u radix b source items b') :
    ∀ item ∈ items, ∃ loc kind vs, item.token = .data loc kind vs := by
  induction h with
  | nil => exact fun item hitem => absurd hitem List.not_mem_nil
  | cons hfirst _ ih =>
    intro item hitem
    rcases List.mem_append.1 hitem with hitem | hitem
    · cases hfirst with
      | equate => exact absurd hitem List.not_mem_nil
      | data =>
        rw [List.mem_singleton.1 hitem]
        exact ⟨_, _, _, rfl⟩
    · exact ih item hitem

/-- The third stage completes all data. -/
theorem advances_feed_finish (w : Workbench) (ht : t.stopped = false) {items : List Item}
    (hitems : ∀ item ∈ items, ∃ loc kind vs, item.token = .data loc kind vs) :
    Advances t (fun added _ => ∃ tss, added.map Item.token = tss.flatten ∧
        List.Forall₂ (Completes w.around s.scope.radix s.scope.binding) items tss)
      ((Stage.feed (finishOne w) items t).run s) := by
  refine (advances_feed (I := fun s' => s'.scope.binding = s.scope.binding)
    (E := Completes w.around s.scope.radix s.scope.binding) (Stage.grows_through _ _ _) ?_ ht rfl).imp_right ?_
  · intro item hitem t s' ht hs'
    obtain ⟨loc, kind, vs, htoken⟩ := hitems item hitem
    obtain ⟨token, pending⟩ := item
    cases htoken
    have hstep := advances_finish w ht loc kind vs pending s'
    rw [Scope.radix_eq, hs', ← Scope.radix_eq] at hstep
    refine hstep.imp_right ?_
    rintro ⟨added, hadded, hstopped, hbinding, ts, rfl, hcompletes⟩
    refine ⟨_, hadded, hstopped, hbinding, ?_⟩
    rwa [Item.map_token_settled]
  · rintro ⟨added, hadded, hstopped, -, hall⟩
    exact ⟨added, hadded, hstopped, hall⟩

/-- Of diagnostics that come first, one that fails the run is kept. -/
theorem fails_feed_messages (w : Workbench) (ht : t.stopped = false) {messages : List Item}
    (hmessages : ∀ item ∈ messages, item.token.isMessage = true)
    (hfails : ∃ item ∈ messages, item.token.fails = true) (rest : List Item) (s : State) :
    ∃ i ∈ ((Stage.feed (finishOne w) (messages ++ rest) t).run s).1.items, i.token.fails = true := by
  induction messages generalizing t with
  | nil =>
    obtain ⟨item, hitem, -⟩ := hfails
    exact absurd hitem List.not_mem_nil
  | cons item messages ih =>
    rw [List.forall_mem_cons] at hmessages
    have hpassed : (finishOne w item t).run s = (t.add ⟨[item], item.token.isTerminal w.block.inMacro, s⟩, s) :=
      Stage.run_through_message ht hmessages.1
    rw [List.cons_append, Stage.run_feed_cons ht hpassed]
    cases hitem : item.token.fails with
    | true =>
      refine Stage.fails_feed (Stage.grows_through _ _ _) ⟨item, ?_, hitem⟩ _ s
      rw [Trail.items_add]
      exact List.mem_append_right _ (List.mem_singleton.2 rfl)
    | false =>
      -- what does not fail the run does not end it either
      have hterminal : item.token.isTerminal w.block.inMacro = false := by
        obtain ⟨token, pending⟩ := item
        cases token with
        | message d =>
          have hlevel := Bool.or_eq_false_iff.1 hitem
          exact hlevel.1
        | _ => cases hmessages.1
      refine ih (by rw [Trail.stopped_add, ht, hterminal]; rfl) hmessages.2 ?_
      obtain ⟨other, hother, hfails⟩ := hfails
      rcases List.mem_cons.1 hother with rfl | hother
      · rw [hitem] at hfails
        cases hfails
      · exact ⟨other, hother, hfails⟩

/-- A failure of the second stage is reported by the third one. -/
theorem fails_finishStage (w : Workbench) {items : List Item} (h : ∃ i ∈ items, i.token.fails = true)
    (s : State) : ∃ i ∈ ((w.finishStage items).run s).1.items, i.token.fails = true := by
  obtain ⟨item, hitem, hfails⟩ := h
  have hmessage : item.token.isMessage = true := by
    obtain ⟨token, pending⟩ := item
    cases token with
    | message d => rfl
    | _ => cases hfails
  rw [finishStage_eq, Stage.messagesFirst]
  refine fails_feed_messages w rfl (fun i hi => (List.mem_filter.1 hi).2) ?_ _ s
  exact ⟨item, List.mem_filter.2 ⟨hitem, hmessage⟩, hfails⟩

end Finish

/-- A block of definitions and data reports a failure, or each statement is entered and what is left is
completed. -/
theorem run_cases (w : Workbench) {source : List Token}
    (hsource : ∀ t ∈ source, t.isEquate = true ∨ t.isData = true) {s : State}
    (hradix : (s.scope.binding Scope.radixName).isSet = true) :
    (∃ i ∈ ((w.run source).run s).1.items, i.token.fails = true) ∨
      ∃ (b : Text → Binding) (dom : Finset Text) (items : List Item) (tss : List (List Token)),
        (∀ name, (b name).value.isSome → name ∈ dom) ∧
        EntersAll w.around s.scope.radix s.scope.binding source items b ∧
        List.Forall₂ (Completes w.around s.scope.radix b) items tss ∧
        ((w.run source).run s).1.tokens = tss.flatten := by
  rcases hbind : (Stage.feed (bindOne w) (source.map .settled) Trail.empty).run s with ⟨t, s'⟩
  have hentered := advances_feed_bind w (t := Trail.empty) rfl hsource (s := s) hradix
  rw [hbind] at hentered
  rw [Workbench.run_of_forall w (fun t ht => Token.isSequential_of_equate_or_data (hsource t ht)) hbind]
  rcases hentered with hfailed | ⟨items, hitems, -, henters⟩
  · exact Or.inl (fails_finishStage w hfailed s')
  · have hfirst : Stage.messagesFirst t.items = items := by
      rw [hitems]
      refine Stage.messagesFirst_of_forall fun item hitem => ?_
      obtain ⟨loc, kind, vs, htoken⟩ := henters.isData item hitem
      rw [htoken]
      rfl
    have hsame : s'.scope.radix = s.scope.radix := by
      rw [Scope.radix_eq, henters.eq_of_isSet hradix, ← Scope.radix_eq]
    have hcompleted := advances_feed_finish w (t := Trail.empty) rfl henters.isData (s := s')
    rw [hsame, ← hfirst, ← finishStage_eq] at hcompleted
    refine hcompleted.imp_right ?_
    rintro ⟨added, hadded, -, tss, htokens, hcompletes⟩
    refine ⟨s'.scope.binding, Eval.domain s'.scope, items, tss, Eval.mem_domain_of_isSome s'.scope, henters, ?_, ?_⟩
    · rwa [hfirst] at hcompletes
    · rw [Trail.tokens, hadded]
      exact htokens

/-- The products of a program are those of its block. -/
theorem products_assemble {a : Assembler} {scope : Scope} {source : List Token} {trail : Trail} {s : State}
    (h : (Workbench.run ⟨a, a.outermost, a.runner a.maxDepth⟩ source).run (Assembler.start scope) =
      (trail, s)) : Token.products (a.assemble scope source).tokens = Token.products trail.tokens := by
  rw [Assembler.tokens_assemble h, Token.products_append]
  split
  · exact List.append_nil _
  · rw [Scope.account, Token.products_eq_nil fun t ht => (Scope.mem_accountFor ht).1, List.append_nil]

/-- A failure of the block of a program is one of the program. -/
theorem fails_assemble {a : Assembler} {scope : Scope} {source : List Token} {trail : Trail} {s : State}
    (h : (Workbench.run ⟨a, a.outermost, a.runner a.maxDepth⟩ source).run (Assembler.start scope) =
      (trail, s)) (hfails : ∃ i ∈ trail.items, i.token.fails = true) :
    ∃ t ∈ (a.assemble scope source).tokens, t.fails = true := by
  obtain ⟨i, hi, hfails⟩ := hfails
  rw [Assembler.tokens_assemble h]
  exact ⟨i.token, List.mem_append_left _ (List.mem_map_of_mem hi), hfails⟩

/-- A program of definitions and data reports a failure, or each statement is entered and what is left is
completed. -/
theorem assemble_cases (a : Assembler) (scope : Scope) {source : List Token}
    (hsource : ∀ t ∈ source, t.isEquate = true ∨ t.isData = true)
    (hradix : (scope.binding Scope.radixName).isSet = true) :
    (∃ t ∈ (a.assemble scope source).tokens, t.fails = true) ∨
      ∃ (b : Text → Binding) (dom : Finset Text) (items : List Item) (tss : List (List Token)),
        (∀ name, (b name).value.isSome → name ∈ dom) ∧
        EntersAll a.outermost.around scope.radix scope.binding source items b ∧
        List.Forall₂ (Completes a.outermost.around scope.radix b) items tss ∧
        Token.products (a.assemble scope source).tokens = Token.products tss.flatten := by
  let w : Workbench := ⟨a, a.outermost, a.runner a.maxDepth⟩
  rcases hrun : (w.run source).run (Assembler.start scope) with ⟨t, s⟩
  have hcases := run_cases w hsource (s := Assembler.start scope) hradix
  rw [hrun] at hcases
  refine hcases.imp (fails_assemble hrun) ?_
  rintro ⟨b, dom, items, tss, hdom, henters, hcompletes, htokens⟩
  exact ⟨b, dom, items, tss, hdom, henters, hcompletes, by rw [products_assemble hrun, htokens]⟩

end Entry

end MacroAsm
