import MacroAsm.Proofs.Assembly.Entry
import MacroAsm.Proofs.Eval.Portable

/-!
# The course of what names stand for

SET and RADIX change what a name stands for that stands for something already. `Entry.Takes` says what each
of the statements that are carried out one after the other does to names, and what is left of it. A second stage
that reports no failure takes them in order (`Entry.advances_feed_takes`).
-/

namespace MacroAsm

/-- A changed symbol changes what its name stands for, and nothing else. -/
theorem Scope.binding_modify_of_find? {s : Scope} {name : Text} {sym : Symbol} (hfind : s.find? name = some sym)
    (g : Symbol → Symbol) : (s.modify name g).binding = Function.update s.binding name (g sym).binding := by
  funext other
  rw [binding, find?_modify_of_find? hfind]
  by_cases hother : other = name
  · rw [if_pos hother, hother, Function.update_self]
    rfl
  · rw [if_neg hother, Function.update_of_ne hother]
    rfl

/-- A symbol that is found tells what its name stands for. -/
theorem Scope.binding_of_find? {s : Scope} {name : Text} {sym : Symbol} (hfind : s.find? name = some sym) :
    s.binding name = sym.binding := by
  rw [binding, hfind]
  rfl

namespace Bind

variable {name : Text} {s : State}

/-- The symbol of a name that is made local if it does not exist. -/
theorem exec_symbolOr_local (name : Text) (s : State) :
    ∃ sym scope, (symbolOr name fun s => s.declareLocal name).exec s = (.ok sym, { s with scope }) ∧
      scope.find? name = some sym ∧ scope.binding = s.scope.binding := by
  cases hfind : s.scope.find? name with
  | some sym => exact ⟨sym, s.scope, exec_symbolOr_of_some hfind _, hfind, rfl⟩
  | none =>
    have hdeclared := Scope.find?_modifyTop_insert s.scope name name {}
    rw [if_pos rfl] at hdeclared
    refine ⟨_, _, exec_symbolOr_of_none hfind (Scope.declareLocal_of_find?_eq_none hfind), ?_,
      Scope.binding_declare hfind⟩
    rw [hdeclared]
    rfl

/-- SET binds a name, or fails and changes nothing that a name stands for. -/
theorem exec_assign_cases (w : Workbench) (loc nameLoc : Location) (name : Text) (value : Expr) (s : State) :
    (∃ s', (assign w loc (.identifier nameLoc name) value).exec s = (.ok ⟨⟩, s') ∧
      s'.scope.binding =
        Function.update s.scope.binding name ⟨some value, (s.scope.binding name).isMacro⟩) ∨
    ∃ f s', (assign w loc (.identifier nameLoc name) value).exec s = (.error f, s') ∧ f.fails = true := by
  obtain ⟨sym, scope, hsym, hfind, hbinding⟩ := exec_symbolOr_local name s
  rw [assign, Act.exec_bind_of_ok (exec_nameOf_identifier w.around nameLoc name s), Act.exec_bind_of_ok hsym]
  split
  · exact Or.inr ⟨_, _, rfl, rfl⟩
  · refine Or.inl ⟨_, rfl, ?_⟩
    have hmacro : (s.scope.binding name).isMacro = sym.isMacro := by
      rw [← hbinding, Scope.binding_of_find? hfind]
      rfl
    rw [ hmacro, ← hbinding]
    exact Scope.binding_modify_of_find? hfind _

/-- RADIX binds the reserved name to a number in 2..36, or fails and changes nothing that a name stands for. -/
theorem exec_setRadix_cases (h : (s.scope.binding Scope.radixName).isSet = true) (loc : Location)
    (value : Expr) :
    (∃ l radix via s', value = .number l radix via ∧ (setRadix loc value).exec s = (.ok ⟨⟩, s') ∧
      s'.scope.binding = Function.update s.scope.binding Scope.radixName
        ⟨some (.literal loc radix), (s.scope.binding Scope.radixName).isMacro⟩) ∨
    ∃ f s', (setRadix loc value).exec s = (.error f, s') ∧ f.fails = true := by
  cases value with
  | number l radix via =>
    rw [setRadix, Act.exec_bind_of_ok (Act.exec_scope s), Scope.setRadix]
    split
    · exact Or.inr ⟨_, _, rfl, rfl⟩
    · refine Or.inl ⟨l, radix, via, _, rfl, rfl, ?_⟩
      cases hfind : s.scope.find? Scope.radixName with
      | none =>
        rw [Scope.binding, hfind] at h
        cases h
      | some sym =>
        rw [Scope.binding_of_find? hfind]
        exact Scope.binding_modify_of_find? hfind _
  | numeral l digits => exact Or.inr ⟨_, _, rfl, rfl⟩
  | _ => exact Or.inr ⟨_, _, rfl, rfl⟩

end Bind

namespace Entry

open Eval (Leaves PortableNames)

/-- A statement is taken: what names stand for, what is left of the statement, and what names stand for after
it. -/
inductive Takes (u : Surroundings) :
    (Text → Binding) → Token → List Item → (Text → Binding) → Prop where
  /-- EQU or data. -/
  | enters {b b' : Text → Binding} {t : Token} {items : List Item}
    (h : Enters u (b Scope.radixName).radix b t items b') : Takes u b t items b'
  /-- SET binds a name to what is left of the value. -/
  | set {b : Text → Binding} {loc l : Location} {n n' e v : Expr} {name : Text}
    (hbuilt : Leaves u (b Scope.radixName).radix b n false n')
    (hname : Leaves u (b Scope.radixName).radix b n' false (.identifier l name))
    (hvalue : Leaves u (b Scope.radixName).radix b e true v) :
    Takes u b (.assign loc .set n e) [] (Function.update b name ⟨some v, (b name).isMacro⟩)
  /-- RADIX binds the reserved name to a number. -/
  | radix {b : Text → Binding} {loc l : Location} {e : Expr} {radix : Int64} {via : Text}
    (hvalue : Leaves u (b Scope.radixName).radix b e true (.number l radix via)) :
    Takes u b (.radix loc e) []
      (Function.update b Scope.radixName ⟨some (.literal loc radix), (b Scope.radixName).isMacro⟩)

/-- The statements of a list are taken. -/
inductive TakesAll (u : Surroundings) :
    (Text → Binding) → List Token → List Item → (Text → Binding) → Prop where
  /-- There is nothing to take. -/
  | nil {b : Text → Binding} : TakesAll u b [] [] b
  /-- One statement is taken before the others. -/
  | cons {b b' b'' : Text → Binding} {t : Token} {rest : List Token} {items items' : List Item}
    (hfirst : Takes u b t items b') (hrest : TakesAll u b' rest items' b'') :
    TakesAll u b (t :: rest) (items ++ items') b''

section Takes

variable {u : Surroundings} {b b' : Text → Binding} {t : Token} {items : List Item}

/-- What stands for something goes on doing so. -/
theorem Takes.isSet (h : Takes u b t items b') {name : Text} (hname : (b name).isSet = true) :
    (b' name).isSet = true := by
  have hupdate : ∀ (other : Text) (v : Expr) (isMacro : Bool),
      (Function.update b other ⟨some v, isMacro⟩ name).isSet = true := by
    intro other v isMacro
    by_cases heq : name = other
    · rw [heq, Function.update_self]
      rfl
    · rwa [Function.update_of_ne heq]
  cases h with
  | enters h => rwa [h.eq_of_isSet hname]
  | set => exact hupdate _ _ _
  | radix => exact hupdate _ _ _

/-- Only data is left. -/
theorem Takes.isData (h : Takes u b t items b') : ∀ item ∈ items, item.token.isData = true := by
  cases h with
  | enters h =>
    cases h with
    | equate => exact fun item hitem => absurd hitem List.not_mem_nil
    | data =>
      intro item hitem
      rw [List.mem_singleton.1 hitem]
      rfl
  | set => exact fun item hitem => absurd hitem List.not_mem_nil
  | radix => exact fun item hitem => absurd hitem List.not_mem_nil

/-- Definitions are bound to portable values. -/
theorem Enters.portableNames {radix : Nat} (hargs : ∀ a ∈ u.args, a.isPortable false = true) (hb : PortableNames b)
    (h : Enters u radix b t items b') : PortableNames b' := by
  cases h with
  | equate _ _ hvalue _ =>
    refine hb.update _ fun v hv => ?_
    cases hv
    exact Expr.isPortable_of_false true _ (hvalue.isPortable hargs)
  | data => exact hb

/-- Definitions are bound to portable values, one after the other. -/
theorem EntersAll.portableNames {radix : Nat} (hargs : ∀ a ∈ u.args, a.isPortable false = true)
    (hb : PortableNames b) {source : List Token} (h : EntersAll u radix b source items b') : PortableNames b' := by
  induction h with
  | nil => exact hb
  | cons hfirst _ ih => exact ih (hfirst.portableNames hargs hb)

/-- Names go on standing for portable values. -/
theorem Takes.portableNames (hargs : ∀ a ∈ u.args, a.isPortable false = true) (hb : PortableNames b)
    (h : Takes u b t items b') : PortableNames b' := by
  cases h with
  | enters h => exact h.portableNames hargs hb
  | set _ _ hvalue =>
    refine hb.update _ fun v hv => ?_
    cases hv
    exact Expr.isPortable_of_false true _ (hvalue.isPortable hargs)
  | radix =>
    refine hb.update _ fun v hv => ?_
    cases hv
    rfl

/-- What stands for something goes on doing so, statement after statement. -/
theorem TakesAll.isSet {source : List Token} (h : TakesAll u b source items b') {name : Text}
    (hname : (b name).isSet = true) : (b' name).isSet = true := by
  induction h with
  | nil => exact hname
  | cons hfirst _ ih => exact ih (hfirst.isSet hname)

/-- Only data is left of the statements of a list. -/
theorem TakesAll.isData {source : List Token} (h : TakesAll u b source items b') :
    ∀ item ∈ items, item.token.isData = true := by
  induction h with
  | nil => exact fun item hitem => absurd hitem List.not_mem_nil
  | cons hfirst _ ih =>
    intro item hitem
    exact (List.mem_append.1 hitem).elim (hfirst.isData item) (ih item)

/-- Names go on standing for portable values, statement after statement. -/
theorem TakesAll.portableNames (hargs : ∀ a ∈ u.args, a.isPortable false = true) (hb : PortableNames b)
    {source : List Token} (h : TakesAll u b source items b') : PortableNames b' := by
  induction h with
  | nil => exact hb
  | cons hfirst _ ih => exact ih (hfirst.portableNames hargs hb)

end Takes

section Bind

variable {w : Workbench} {s : State} {t : Trail}

/-- SET goes on with the name that its expression spells. -/
theorem exec_assign_of_nameOf {n v : Expr} {name : Text} {s' : State}
    (h : (Eval.nameOf w.around n).exec s = (.ok name, s')) (loc l : Location) :
    (Bind.assign w loc n v).exec s = (Bind.assign w loc (.identifier l name) v).exec s' := by
  rw [Bind.assign, Act.exec_bind_of_ok h, Bind.assign,
    Act.exec_bind_of_ok (Bind.exec_nameOf_identifier w.around l name s')]

/-- The second stage takes a SET. -/
theorem advances_set (w : Workbench) (ht : t.stopped = false) (loc : Location) (n e : Expr) (s : State) :
    Advances t (fun items s' => Takes w.around s.scope.binding (.assign loc .set n e) items s'.scope.binding)
      ((bindOne w (.settled (.assign loc .set n e)) t).run s) := by
  rw [bindOne]
  have hreduce : Token.reduce w.around (.assign loc .set n e) = (do
      let name ← Eval.nameOnly w.around n
      return .assign loc .set name (← Token.reduceValue w.around .set name e)) := by
    rw [Token.reduce]
  have hvalue : ∀ name, Token.reduceValue w.around .set name e = Eval.evaluate w.around true e :=
    fun name => rfl
  rcases hexec : (Token.reduce w.around (.assign loc .set n e)).exec s with ⟨x, s1⟩
  cases x with
  | error f =>
    have hloud : (Token.reduce w.around (.assign loc .set n e)).IsLoud := by
      rw [hreduce]
      exact (Eval.isLoud_nameOnly w.around n).bind fun name =>
        (Eval.isLoud_evaluate w.around true e).bind fun v => .pure _
    have hf := hloud s f (by rw [hexec])
    exact advances_of_error ht rfl hf (Pass.exec_reduceFirst_of_error hexec)
  | ok token =>
    have hparts := hexec
    rw [hreduce] at hparts
    obtain ⟨n', s2, hname, hparts⟩ := Act.exists_of_exec_bind hparts
    obtain ⟨v, s3, heval, hparts⟩ := Act.exists_of_exec_bind hparts
    cases hparts
    rw [hvalue] at heval
    obtain ⟨hbuilt, hbinding⟩ := Eval.leaves_of_nameOnly hname
    obtain ⟨hleaves, hbinding', -⟩ := Eval.leaves_of_evaluate heval
    rw [Stage.run_through_step ht (Pass.run_handle_of_ok rfl (Pass.exec_reduceFirst_of_ok hexec)) rfl]
    have hact : ∀ pending, Pass.localize w ⟨.assign loc .set n' v, pending⟩ = liftM (Bind.assign w loc n' v) :=
      fun _ => rfl
    refine advances_localize_act ht rfl (hact _) ?_
    rcases hspell : (Eval.nameOf w.around n').exec s1 with ⟨x, s4⟩
    cases x with
    | error f =>
      exact Or.inr ⟨f, s4, Act.exec_bind_of_error hspell, Eval.isLoud_nameOf w.around n' s1 f (by rw [hspell])⟩
    | ok name =>
      obtain ⟨⟨l, hspells⟩, hbinding''⟩ := Eval.leaves_of_nameOf hspell
      rw [exec_assign_of_nameOf hspell loc l]
      refine (Bind.exec_assign_cases w loc l name v s4).imp_left ?_
      rintro ⟨s', hdone, hupdate⟩
      refine ⟨s', hdone, ?_⟩
      -- evaluation changes nothing that a name stands for
      rw [Scope.radix_eq, hbinding', hbinding] at hspells
      rw [Scope.radix_eq, hbinding] at hleaves
      rw [Scope.radix_eq] at hbuilt
      rw [hupdate, hbinding'', hbinding', hbinding]
      exact .set hbuilt hspells hleaves

/-- The second stage takes a RADIX. -/
theorem advances_radix (w : Workbench) (ht : t.stopped = false) (loc : Location) (e : Expr)
    (hradix : (s.scope.binding Scope.radixName).isSet = true) :
    Advances t (fun items s' => Takes w.around s.scope.binding (.radix loc e) items s'.scope.binding)
      ((bindOne w (.settled (.radix loc e)) t).run s) := by
  rw [bindOne]
  have hreduce : Token.reduce w.around (.radix loc e) = (do
      return .radix loc (← Eval.evaluate w.around true e)) := by
    rw [Token.reduce]
  rcases hexec : (Token.reduce w.around (.radix loc e)).exec s with ⟨x, s1⟩
  cases x with
  | error f =>
    have hloud : (Token.reduce w.around (.radix loc e)).IsLoud := by
      rw [hreduce]
      exact (Eval.isLoud_evaluate w.around true e).bind fun v => .pure _
    have hf := hloud s f (by rw [hexec])
    exact advances_of_error ht rfl hf (Pass.exec_reduceFirst_of_error hexec)
  | ok token =>
    have hparts := hexec
    rw [hreduce] at hparts
    obtain ⟨v, s2, heval, hparts⟩ := Act.exists_of_exec_bind hparts
    cases hparts
    obtain ⟨hleaves, hbinding, -⟩ := Eval.leaves_of_evaluate heval
    rw [Stage.run_through_step ht (Pass.run_handle_of_ok rfl (Pass.exec_reduceFirst_of_ok hexec)) rfl]
    have hact : ∀ pending, Pass.localize w ⟨.radix loc v, pending⟩ = liftM (Bind.setRadix loc v) := fun _ => rfl
    refine advances_localize_act ht rfl (hact _) ?_
    refine (Bind.exec_setRadix_cases (by rwa [hbinding]) loc v).imp_left ?_
    rintro ⟨l, radix, via, s', rfl, hdone, hupdate⟩
    refine ⟨s', hdone, ?_⟩
    rw [Scope.radix_eq] at hleaves
    rw [hupdate, hbinding]
    exact .radix hleaves

/-- The second stage takes a statement. -/
theorem advances_takes (w : Workbench) (ht : t.stopped = false) {token : Token}
    (htoken : token.isSequential = true) (hradix : (s.scope.binding Scope.radixName).isSet = true) :
    Advances t (fun items s' => Takes w.around s.scope.binding token items s'.scope.binding)
      ((bindOne w (.settled token) t).run s) := by
  have henters : ∀ {r : Trail × State},
      Advances t (fun items s' => Enters w.around s.scope.radix s.scope.binding token items s'.scope.binding) r →
      Advances t (fun items s' => Takes w.around s.scope.binding token items s'.scope.binding) r := by
    intro r hr
    refine hr.imp_right ?_
    rintro ⟨items, hitems, hstopped, h⟩
    rw [Scope.radix_eq] at h
    exact ⟨items, hitems, hstopped, .enters h⟩
  cases token with
  | assign loc how n e =>
    cases how with
    | set => exact advances_set w ht loc n e s
    | equate => exact henters (advances_equate w ht loc n e s)
    | define => cases htoken
  | radix loc e => exact advances_radix w ht loc e hradix
  | data loc kind es => exact henters (advances_data w ht loc kind es s)
  | _ => cases htoken

/-- The second stage takes all statements. -/
theorem advances_feed_takes (w : Workbench) (ht : t.stopped = false) {source : List Token}
    (hsource : ∀ token ∈ source, token.isSequential = true)
    (hradix : (s.scope.binding Scope.radixName).isSet = true) :
    Advances t (fun items s' => TakesAll w.around s.scope.binding source items s'.scope.binding)
      ((Stage.feed (bindOne w) (source.map .settled) t).run s) := by
  induction source generalizing t s with
  | nil => exact Or.inr ⟨[], (List.append_nil _).symm, ht, .nil⟩
  | cons token rest ih =>
    rw [List.forall_mem_cons] at hsource
    have hstep := advances_takes w ht hsource.1 hradix
    rcases hrun : (bindOne w (.settled token) t).run s with ⟨t1, s1⟩
    rw [hrun] at hstep
    rw [List.map_cons, Stage.run_feed_cons ht hrun]
    rcases hstep with hfails | ⟨items, hitems, ht1, htakes⟩
    · exact Or.inl (Stage.fails_feed (Stage.grows_through _ _ _) hfails _ s1)
    · rcases ih ht1 hsource.2 (htakes.isSet hradix) with hfails | ⟨items', hitems', ht2, hall⟩
      · exact Or.inl hfails
      · exact Or.inr ⟨items ++ items', by rw [hitems', hitems, List.append_assoc], ht2, .cons htakes hall⟩

end Bind

end Entry

end MacroAsm
