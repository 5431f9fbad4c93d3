import Mathlib.Logic.Function.Basic
import MacroAsm.Proofs.Assembly.Stages
import MacroAsm.Proofs.Eval.Computes

/-!
# Statements that need no block of their own

An EQU and a data statement are handled without any nested block. Each of them goes through a stage on its
own: what a step emits for it is one item, which the next step takes up (`Stage.run_through_step`), and a
failure is one diagnostic, which every step passes on (`Stage.run_through_message`). An EQU changes what its
name stands for and nothing else (`Bind.exec_equate_of_unset`).
-/

namespace MacroAsm

namespace Token

/-- Whether a statement is an EQU. -/
def isEquate : Token → Bool
  | .assign _ .equate _ _ => true
  | _ => false

/-- Whether a statement is data. -/
def isData : Token → Bool
  | .data .. => true
  | _ => false

/-- Whether a statement is a SET, an EQU, a RADIX or data. -/
def isSequential : Token → Bool
  | .assign _ .set _ _ | .assign _ .equate _ _ | .radix .. | .data .. => true
  | _ => false

/-- An EQU or data is an EQU with some name and value, or data with some values. -/
theorem equate_or_data {t : Token} (h : t.isEquate = true ∨ t.isData = true) :
    (∃ loc name value, t = .assign loc .equate name value) ∨
      ∃ loc kind values, t = .data loc kind values := by
  rcases h with h | h
  · cases t with
    | assign loc how name value =>
      cases how with
      | equate => exact Or.inl ⟨loc, name, value, rfl⟩
      | _ => cases h
    | _ => cases h
  · cases t with
    | data loc kind values => exact Or.inr ⟨loc, kind, values, rfl⟩
    | _ => cases h

/-- An EQU or data is one of the statements that are carried out one after the other. -/
theorem isSequential_of_equate_or_data {t : Token} (h : t.isEquate = true ∨ t.isData = true) :
    t.isSequential = true := by
  rcases equate_or_data h with ⟨loc, name, value, rfl⟩ | ⟨loc, kind, values, rfl⟩
  · rfl
  · rfl

/-- The first stage passes on what is carried out one after the other. -/
theorem declareGlobals_of_isSequential (w : Workbench) {t : Token} (h : t.isSequential = true) :
    Declare.declareGlobals w t = Emission.emit t ∧ t.isMessage = false ∧
      ∀ inMacro, t.isTerminal inMacro = false := by
  cases t with
  | assign | radix | data => exact ⟨rfl, rfl, fun _ => rfl⟩
  | _ => cases h

end Token

namespace Output

@[simp]
theorem items_push_empty (inMacro : Bool) (item : Item) :
    ((empty inMacro).push item).items = [item] := rfl

@[simp]
theorem closed_push_empty (inMacro : Bool) (item : Item) :
    ((empty inMacro).push item).closed = item.token.isTerminal inMacro := rfl

end Output

namespace Pass

variable {inMacro : Bool} {p : Pass} {item : Item} {s : State}

/-- A diagnostic is passed on. -/
theorem run_handle_message (h : item.token.isMessage = true) :
    (p.handle inMacro item).run s = ((Output.empty inMacro).push item, s) := by
  rw [handle, if_pos h]
  rfl

/-- What a step emits if it does not fail. -/
theorem run_handle_of_ok {q : Output × State} (hitem : item.token.isMessage = false)
    (h : (p item).exec (Output.empty inMacro, s) = (.ok ⟨⟩, q)) :
    (p.handle inMacro item).run s = q := by
  rw [handle, hitem, if_neg Bool.false_ne_true, Emission.run_output, h]

/-- A step that fails emits its diagnostic last. -/
theorem run_handle_of_error {out : Output} {s' : State} {f : Failure}
    (hitem : item.token.isMessage = false)
    (h : (p item).exec (Output.empty inMacro, s) = (.error f, (out, s'))) :
    (p.handle inMacro item).run s = (out.push (.message (f.toDiagnostic item.token.loc)), s') := by
  rw [handle, hitem, if_neg Bool.false_ne_true, Emission.run_output, h]

end Pass

namespace Trail

/-- The trail with one more batch. -/
def add (t : Trail) (b : Batch) : Trail := ⟨b :: t.reversed, t.stopped || b.closed⟩

@[simp]
theorem items_add (t : Trail) (b : Batch) : (t.add b).items = t.items ++ b.items := by
  simp [add, items, batches, List.flatMap_append]

@[simp]
theorem stopped_add (t : Trail) (b : Batch) : (t.add b).stopped = (t.stopped || b.closed) := rfl

end Trail

namespace Stage

variable {inMacro : Bool} {p last : Pass} {passes : List Pass} {item i : Item} {t : Trail} {s s' : State}

/-- A stage that is stopped handles nothing. -/
theorem run_feed_of_stopped {f : Item → Trail → StateM State Trail} (ht : t.stopped = true)
    (items : List Item) : (feed f items t).run s = (t, s) := by
  cases items with
  | nil => rfl
  | cons item rest =>
    rw [feed, if_pos ht]
    rfl

/-- A stage that is not stopped handles the first item, and goes on with the others. -/
theorem run_feed_cons {f : Item → Trail → StateM State Trail} (ht : t.stopped = false) {t' : Trail}
    (h : (f item t).run s = (t', s')) (rest : List Item) :
    (feed f (item :: rest) t).run s = (feed f rest t').run s' := by
  rw [feed, ht, if_neg Bool.false_ne_true, StateM.run_bind, h]

/-- Items are handled one after the other. -/
theorem run_feed_append {f : Item → Trail → StateM State Trail} {items : List Item} {t' : Trail}
    (h : (feed f items t).run s = (t', s')) (rest : List Item) :
    (feed f (items ++ rest) t).run s = (feed f rest t').run s' := by
  induction items generalizing t s with
  | nil =>
    cases h
    rfl
  | cons item items ih =>
    rw [List.cons_append]
    cases ht : t.stopped with
    | true =>
      rw [run_feed_of_stopped ht] at h
      cases h
      rw [run_feed_of_stopped ht, run_feed_of_stopped ht]
    | false =>
      rcases hrun : (f item t).run s with ⟨t1, s1⟩
      rw [run_feed_cons ht hrun] at h ⊢
      exact ih h

/-- What the last step emits is a batch. -/
theorem run_through_last {out : Output} (h : (last.handle inMacro item).run s = (out, s')) :
    (through inMacro last [] item t).run s = (t.add ⟨out.items, out.closed, s'⟩, s') := by
  rw [through, StateM.run_bind, h]
  rfl

/-- An item that a step emits alone is taken up by the steps that follow. -/
theorem run_through_step (ht : t.stopped = false)
    (h : (p.handle inMacro item).run s = ((Output.empty inMacro).push i, s'))
    (hi : i.token.isTerminal inMacro = false) :
    (through inMacro last (p :: passes) item t).run s =
      (through inMacro last passes i t).run s' := by
  rw [through, StateM.run_bind, h, StateM.run_bind, Output.items_push_empty, feed, ht,
    if_neg Bool.false_ne_true, Output.closed_push_empty, hi]
  rcases hrun : (through inMacro last passes i t).run s' with ⟨⟨reversed, stopped⟩, s2⟩
  rw [StateM.run_bind, hrun, feed, StateM.run_pure, StateM.run_pure, Bool.or_false]

/-- Every step passes a diagnostic on. -/
theorem run_through_message (ht : t.stopped = false) (hitem : item.token.isMessage = true) :
    (through inMacro last passes item t).run s =
      (t.add ⟨[item], item.token.isTerminal inMacro, s⟩, s) := by
  induction passes with
  | nil => exact run_through_last (Pass.run_handle_message hitem)
  | cons p passes ih =>
    rw [through, StateM.run_bind, Pass.run_handle_message hitem, StateM.run_bind,
      Output.items_push_empty, feed, ht, if_neg Bool.false_ne_true, StateM.run_bind, ih]
    simp only [feed, StateM.run_pure, Output.closed_push_empty, Trail.add, Bool.or_assoc, Bool.or_self]

/-- A diagnostic that a step emits alone is passed on by the steps that follow. -/
theorem run_through_report (ht : t.stopped = false) {d : Diagnostic}
    (h : (p.handle inMacro item).run s = ((Output.empty inMacro).push (.message d), s')) :
    (through inMacro last (p :: passes) item t).run s =
      (t.add ⟨[.message d], d.isFatal, s'⟩, s') := by
  rw [through, StateM.run_bind, h, StateM.run_bind, Output.items_push_empty, feed, ht,
    if_neg Bool.false_ne_true, StateM.run_bind, run_through_message ht rfl]
  simp only [feed, StateM.run_pure, Output.closed_push_empty, Trail.add, Bool.or_assoc, Bool.or_self]
  rfl

/-- Items that each lead to one batch of the item itself lead to themselves. -/
theorem run_feed_of_forall {f : Item → Trail → StateM State Trail} {items : List Item}
    (hf : ∀ item ∈ items, ∀ t : Trail, t.stopped = false →
      (f item t).run s = (t.add ⟨[item], false, s⟩, s)) (ht : t.stopped = false) :
    ((feed f items t).run s).1.items = t.items ++ items ∧ ((feed f items t).run s).2 = s := by
  induction items generalizing t with
  | nil => exact ⟨(List.append_nil _).symm, rfl⟩
  | cons item rest ih =>
    rw [List.forall_mem_cons] at hf
    rw [run_feed_cons ht (hf.1 t ht)]
    obtain ⟨hitems, hs⟩ := ih (t := t.add ⟨[item], false, s⟩) hf.2 (by simp [ht])
    rw [Trail.items_add, List.append_assoc] at hitems
    exact ⟨hitems, hs⟩

/-- Items that are no diagnostics keep their order. -/
theorem messagesFirst_of_forall {items : List Item}
    (h : ∀ item ∈ items, item.token.isMessage = false) : messagesFirst items = items := by
  rw [messagesFirst, List.filter_eq_nil_iff.2 fun item hitem => by simp [h item hitem],
    List.filter_eq_self.2 fun item hitem => by simp [h item hitem], List.nil_append]

/-- Statements that are no diagnostics keep their order. -/
theorem messagesFirst_settled {source : List Token} (h : ∀ t ∈ source, t.isMessage = false) :
    messagesFirst (source.map .settled) = source.map .settled := by
  refine messagesFirst_of_forall fun item hitem => ?_
  obtain ⟨t, ht, rfl⟩ := List.mem_map.1 hitem
  exact h t ht

end Stage

namespace Workbench

/-- A statement that the first stage passes on. -/
def IsPassed (w : Workbench) (t : Token) : Prop :=
  Declare.declareGlobals w t = Emission.emit t ∧ t.isMessage = false ∧ ∀ inMacro, t.isTerminal inMacro = false

/-- The first stage passes statements on. -/
theorem run_declareStage (w : Workbench) {source : List Token} (h : ∀ t ∈ source, w.IsPassed t) (s : State) :
    ((w.declareStage source).run s).1.items = source.map .settled ∧
      ((w.declareStage source).run s).2 = s := by
  refine Stage.run_feed_of_forall (t := Trail.empty) (fun item hitem t _ => ?_) rfl
  obtain ⟨token, htoken, rfl⟩ := List.mem_map.1 hitem
  obtain ⟨hpassed, hmessage, hterminal⟩ := h token htoken
  have hexec : (Pass.ofToken (Declare.declareGlobals w) (.settled token)).exec
      (Output.empty w.block.inMacro, s) =
      (.ok ⟨⟩, ((Output.empty w.block.inMacro).push (.settled token), s)) := by
    rw [Pass.ofToken, Item.settled, hpassed, Emission.exec_emit]
    rfl
  rw [Stage.run_through_last (Pass.run_handle_of_ok hmessage hexec), Output.closed_push_empty, Item.settled,
    hterminal]
  rfl

/-- Statements that the first stage passes on go through the second stage and the third one. -/
theorem run_of_isPassed (w : Workbench) {source : List Token} (h : ∀ t ∈ source, w.IsPassed t) {s s' : State}
    {t : Trail} (hbind : (Stage.feed (Stage.through w.block.inMacro (.localize w) [.reduceFirst w])
      (source.map .settled) Trail.empty).run s = (t, s')) :
    (w.run source).run s = (w.finishStage t.items).run s' := by
  obtain ⟨hitems, hs⟩ := w.run_declareStage h s
  rw [run, StateM.run_bind, hs, hitems, bindStage, Stage.messagesFirst_settled fun t ht => (h t ht).2.1, Stage.run,
    StateM.run_bind, hbind]

/-- Definitions and data go through the second stage and the third one. -/
theorem run_of_forall (w : Workbench) {source : List Token}
    (h : ∀ t ∈ source, t.isSequential = true) {s s' : State} {t : Trail}
    (hbind : (Stage.feed (Stage.through w.block.inMacro (.localize w) [.reduceFirst w])
      (source.map .settled) Trail.empty).run s = (t, s')) :
    (w.run source).run s = (w.finishStage t.items).run s' :=
  w.run_of_isPassed (fun t ht => Token.declareGlobals_of_isSequential w (h t ht)) hbind

/-- A diagnostic goes through the third stage as it is. -/
theorem run_finishStage_message (w : Workbench) (d : Diagnostic) (s : State) :
    (w.finishStage [.message d]).run s = (Trail.empty.add ⟨[.message d], d.isFatal, s⟩, s) := by
  rw [finishStage, Stage.messagesFirst, Stage.run, List.filter_cons_of_pos rfl,
    List.filter_cons_of_neg Bool.false_ne_true]
  exact Stage.run_feed_cons rfl (Stage.run_through_message rfl rfl) []

end Workbench

namespace Emission

variable {α : Type} {act : Act α} {s s' : State}

theorem exec_monadLift_of_ok {a : α} (h : act.exec s = (.ok a, s')) (out : Output) :
    (liftM act : Emission α).exec (out, s) = (.ok a, (out, s')) := by
  rw [exec_monadLift, h]

theorem exec_monadLift_of_error {f : Failure} (h : act.exec s = (.error f, s')) (out : Output) :
    (liftM act : Emission α).exec (out, s) = (.error f, (out, s')) := by
  rw [exec_monadLift, h]

end Emission

namespace Pass

variable {w : Workbench} {item : Item} {t : Token} {s s' : State} {out : Output} {f : Failure}

/-- A token that is evaluated is emitted, marked if more expressions wait than before. -/
theorem exec_reduceFirst_of_ok (h : (Token.reduce w.around item.token).exec s = (.ok t, s')) :
    (reduceFirst w item).exec (out, s) =
      (.ok ⟨⟩, (out.push ⟨t, decide (s.deferred < s'.deferred)⟩, s')) := by
  rw [reduceFirst, Emission.exec_bind_of_ok (Emission.exec_getThe _),
    Emission.exec_bind_of_ok (Emission.exec_monadLift_of_ok h out),
    Emission.exec_bind_of_ok (Emission.exec_getThe _), Emission.exec_emitItem]

/-- A token whose evaluation fails is not emitted. -/
theorem exec_reduceFirst_of_error (h : (Token.reduce w.around item.token).exec s = (.error f, s')) :
    (reduceFirst w item).exec (out, s) = (.error f, (out, s')) := by
  rw [reduceFirst, Emission.exec_bind_of_ok (Emission.exec_getThe _),
    Emission.exec_bind_of_error (Emission.exec_monadLift_of_error h out)]

/-- A marked token is evaluated again. -/
theorem exec_reduceAgain_of_ok (hpending : item.pending = true)
    (h : (Token.reduce w.around item.token).exec s = (.ok t, s')) :
    (reduceAgain w item).exec (out, s) = (.ok ⟨⟩, (out.push (.settled t), s')) := by
  rw [reduceAgain, if_pos hpending, Emission.exec_bind_of_ok (Emission.exec_monadLift_of_ok h out),
    Emission.exec_emit]

/-- A marked token whose evaluation fails is not emitted. -/
theorem exec_reduceAgain_of_error (hpending : item.pending = true)
    (h : (Token.reduce w.around item.token).exec s = (.error f, s')) :
    (reduceAgain w item).exec (out, s) = (.error f, (out, s')) := by
  rw [reduceAgain, if_pos hpending, Emission.exec_bind_of_error (Emission.exec_monadLift_of_error h out)]

end Pass

namespace Scope

/-- Binding an unset name to a value changes what that name stands for, and nothing else. -/
theorem binding_modify_value {s : Scope} {name : Text} {sym : Symbol} (hfind : s.find? name = some sym)
    (hunset : sym.isMacro = false) {g : Symbol → Symbol} {value : Expr}
    (hg : ∀ sym, (g sym).value = some value ∧ (g sym).template = sym.template) :
    (s.modify name g).binding = Function.update s.binding name ⟨some value, false⟩ := by
  funext other
  rw [binding, find?_modify]
  by_cases hother : other = name
  · subst hother
    rw [if_pos rfl, hfind, Function.update_self]
    simp only [Option.map_some, Option.getD_some, Symbol.binding, (hg sym).1, Symbol.isMacro,
      (hg sym).2]
    rw [Symbol.isMacro] at hunset
    rw [hunset]
  · rw [if_neg hother, Function.update_of_ne hother]
    rfl

/-- A name that is not found becomes a global name, and no other name changes. -/
theorem declareGlobal_of_find?_eq_none {s : Scope} {name : Text} (h : s.find? name = none) :
    ∃ s', s.declareGlobal name = .ok s' ∧
      ∀ other, s'.find? other = if other = name then some (promote {}) else s.find? other := by
  obtain ⟨hin, hroot⟩ := find?_eq_none_iff.1 h
  refine ⟨{ s with root := s.root.insert name (promote {}) }, ?_, fun other => ?_⟩
  · rw [declareGlobal, hroot, hin]
  · rw [find?_eq, find?_eq, Frame.find?_insert]
    by_cases hother : other = name
    · rw [if_pos hother, if_pos hother, hother, hin]
      rfl
    · rw [if_neg hother, if_neg hother]

end Scope

namespace Bind

variable {name : Text} {s : State}

theorem exec_nameOf_identifier (u : Surroundings) (loc : Location) (name : Text) (s : State) :
    (Eval.nameOf u (.identifier loc name)).exec s = (.ok name, s) := rfl

/-- The symbol of a name that is found. -/
theorem exec_symbolOr_of_some {sym : Symbol} (h : s.scope.find? name = some sym)
    (declare : Scope → Except Cause Scope) : (symbolOr name declare).exec s = (.ok sym, s) := by
  rw [symbolOr, Act.exec_bind_of_ok (Act.exec_scope s), h]
  rfl

/-- The symbol of a name that is declared first. -/
theorem exec_symbolOr_of_none (h : s.scope.find? name = none) {declare : Scope → Except Cause Scope}
    {scope : Scope} (hdeclare : declare s.scope = .ok scope) :
    (symbolOr name declare).exec s = (.ok ((scope.find? name).getD {}), { s with scope }) := by
  rw [symbolOr, Act.exec_bind_of_ok (Act.exec_scope s), h, hdeclare]
  rfl

/-- EQU binds a name that stands for nothing. -/
theorem exec_equate_of_unset (h : (s.scope.binding name).isSet = false) (w : Workbench)
    (loc nameLoc : Location) (value : Expr) :
    ∃ s', (Bind.equate w loc (.identifier nameLoc name) value).exec s = (.ok ⟨⟩, s') ∧
      s'.scope.binding = Function.update s.scope.binding name ⟨some value, false⟩ := by
  rw [equate, Act.exec_bind_of_ok (exec_nameOf_identifier w.around nameLoc name s)]
  cases hfind : s.scope.find? name with
  | some sym =>
    have hunset : sym.isSet = false := by
      rw [Scope.binding, hfind] at h
      exact h
    have hkind : sym.isMacro = false := by
      rw [Symbol.isSet, Bool.or_eq_false_iff] at hunset
      exact hunset.2
    rw [Act.exec_bind_of_ok (exec_symbolOr_of_some hfind _), hunset, if_neg Bool.false_ne_true]
    exact ⟨_, rfl, Scope.binding_modify_value hfind hkind fun _ => ⟨rfl, rfl⟩⟩
  | none =>
    obtain ⟨scope, hdeclare, hscope⟩ := Scope.declareGlobal_of_find?_eq_none hfind
    have hfound : scope.find? name = some (Scope.promote {}) := by rw [hscope, if_pos rfl]
    have hbinding := Scope.binding_of_find?_eq_none hfind hscope rfl
    rw [Act.exec_bind_of_ok (exec_symbolOr_of_none hfind hdeclare), hfound, if_neg (by decide)]
    refine ⟨_, rfl, ?_⟩
    rw [← hbinding]
    exact Scope.binding_modify_value hfound rfl fun _ => ⟨rfl, rfl⟩

/-- EQU fails on a name that stands for something, and changes nothing. -/
theorem exec_equate_of_isSet (h : (s.scope.binding name).isSet = true) (w : Workbench)
    (loc nameLoc : Location) (value : Expr) :
    (Bind.equate w loc (.identifier nameLoc name) value).exec s =
      (.error (.report (.fail loc ("Cannot change frozen value " ++ name))), s) := by
  rw [equate, Act.exec_bind_of_ok (exec_nameOf_identifier w.around nameLoc name s)]
  cases hfind : s.scope.find? name with
  | some sym =>
    have hset : sym.isSet = true := by
      rw [Scope.binding, hfind] at h
      exact h
    rw [Act.exec_bind_of_ok (exec_symbolOr_of_some hfind _), hset, if_pos rfl]
    rfl
  | none =>
    rw [Scope.binding, hfind] at h
    cases h

end Bind

namespace Scope

/-- The account of names is made of diagnostics, none of which is fatal. -/
theorem mem_accountFor {nested : Bool} {entries : List (Text × Symbol)} {s : Scope} {t : Token}
    (h : t ∈ (accountFor nested entries s).2) : t.isMessage = true ∧ t.isFatal = false := by
  induction entries generalizing s with
  | nil => exact absurd h List.not_mem_nil
  | cons entry rest ih =>
    obtain ⟨name, sym⟩ := entry
    rw [accountFor] at h
    cases hverdict : sym.verdict nested name with
    | settled =>
      rw [hverdict] at h
      exact ih h
    | hoisted =>
      rw [hverdict] at h
      exact ih h
    | reported d =>
      rw [hverdict] at h
      rcases List.mem_cons.1 h with rfl | h
      · refine ⟨rfl, ?_⟩
        -- a name is reported with a failure or a warning
        rw [Symbol.verdict] at hverdict
        repeat' split at hverdict
        all_goals cases hverdict
        all_goals rfl
      · exact ih h

end Scope

/-- The output of a program is that of its block, and the account of its names unless a fatal diagnostic ended
it. -/
theorem Assembler.tokens_assemble {a : Assembler} {scope : Scope} {source : List Token} {trail : Trail}
    {s : State}
    (h : (Workbench.run ⟨a, a.outermost, a.runner a.maxDepth⟩ source).run (Assembler.start scope) =
      (trail, s)) :
    (a.assemble scope source).tokens = trail.tokens ++
      if trail.tokens.any Token.isFatal then [] else (s.scope.account false).2 := by
  rw [Assembler.assemble, h, Assembly.tokens]
  dsimp only
  rw [Trail.tokens_eq_flatMap]
  split <;> rfl

end MacroAsm
