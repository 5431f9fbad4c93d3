import MacroAsm.Proofs.Assembly.Definitions
import MacroAsm.Proofs.Eval.Circular

/-!
# Programs of definitions

A program of EQU statements is a graph: the name of each definition refers to the names in its value
(`Definition.Refers`). The main result, `Assembler.assemble_definitions`, says that assembling the program
reports a circular reference exactly if that graph has a cycle.

When a definition is bound, the names in its value that are bound already have been replaced by what they
lead to, so the graph is no longer there when a cycle closes. What is kept is which names are led to in the
end (`Definition.Follows`): a name that is not bound yet can be reached through the stored values exactly if
it can be reached in the graph of the definitions so far.
-/

namespace MacroAsm

open Relation (TransGen ReflTransGen)

/-- An EQU statement. -/
structure Definition where
  /-- Where the statement was read. -/
  loc : Location
  /-- Where the name was read. -/
  nameLoc : Location
  /-- The name. -/
  name : Text
  /-- The value. -/
  value : Expr

namespace Definition

/-- The statement as a token. -/
def token (d : Definition) : Token := .assign d.loc .equate (.identifier d.nameLoc d.name) d.value

/-- The name of a definition refers to the names in its value. -/
def Refers (defs : List Definition) (name other : Text) : Prop :=
  ∃ d ∈ defs, d.name = name ∧ other ∈ d.value.identifiers

/-- A definition of an unset name whose value is a polynomial in unset names. -/
structure IsPolynomial (root : Text → Binding) (radix : Nat) (d : Definition) : Prop where
  /-- The name is unset. -/
  name : (root d.name).isSet = false
  /-- The value is a polynomial. -/
  value : d.value.isPolynomial radix = true
  /-- Its names are unset. -/
  identifiers : ∀ other ∈ d.value.identifiers, (root other).isSet = false

instance (root : Text → Binding) (radix : Nat) (d : Definition) : Decidable (d.IsPolynomial root radix) :=
  decidable_of_iff ((root d.name).isSet = false ∧ d.value.isPolynomial radix = true ∧
      ∀ other ∈ d.value.identifiers, (root other).isSet = false)
    ⟨fun ⟨name, value, identifiers⟩ => ⟨name, value, identifiers⟩,
      fun h => ⟨h.name, h.value, h.identifiers⟩⟩

section Refers

variable {defs done : List Definition} {d : Definition} {x y : Text}

theorem Refers.append_left (h : Refers done x y) (more : List Definition) : Refers (done ++ more) x y := by
  obtain ⟨d, hd, hname, hmem⟩ := h
  exact ⟨d, List.mem_append_left more hd, hname, hmem⟩

theorem mem_names_of_transGen (h : TransGen (Refers defs) x y) : x ∈ defs.map Definition.name := by
  obtain ⟨-, ⟨d, hd, rfl, -⟩, -⟩ := TransGen.head'_iff.1 h
  exact List.mem_map_of_mem hd

/-- A name that is led to stands in a value. -/
theorem exists_mem_identifiers_of_transGen (h : TransGen (Refers defs) x y) :
    ∃ d ∈ defs, y ∈ d.value.identifiers := by
  obtain ⟨-, -, ⟨d, hd, -, hmem⟩⟩ := TransGen.tail'_iff.1 h
  exact ⟨d, hd, hmem⟩

/-- A walk through one more definition, from where it first comes to its name and from where it last leaves
its value. -/
theorem transGen_refers_concat (h : TransGen (Refers (done ++ [d])) x y) :
    TransGen (Refers done) x y ∨ ReflTransGen (Refers done) x d.name ∧
      ∃ z ∈ d.value.identifiers, ReflTransGen (Refers done) z y := by
  have hstep : ∀ {a b}, Refers (done ++ [d]) a b →
      Refers done a b ∨ a = d.name ∧ b ∈ d.value.identifiers := by
    rintro a b ⟨d', hd', rfl, hmem⟩
    rcases List.mem_append.1 hd' with hd' | hd'
    · exact Or.inl ⟨d', hd', rfl, hmem⟩
    · rw [List.mem_singleton] at hd'
      subst hd'
      exact Or.inr ⟨rfl, hmem⟩
  induction h with
  | single h =>
    rcases hstep h with h | ⟨rfl, hmem⟩
    · exact Or.inl (.single h)
    · exact Or.inr ⟨.refl, _, hmem, .refl⟩
  | tail _ h ih =>
    rcases hstep h with h | ⟨rfl, hmem⟩
    · rcases ih with ih | ⟨hname, z, hz, hwalk⟩
      · exact Or.inl (ih.tail h)
      · exact Or.inr ⟨hname, z, hz, hwalk.tail h⟩
    · rcases ih with ih | ⟨hname, -⟩
      · exact Or.inr ⟨ih.to_reflTransGen, _, hmem, .refl⟩
      · exact Or.inr ⟨hname, _, hmem, .refl⟩

end Refers

/-- What names stand for once definitions were bound one after the other, in terms of the graph of these
definitions. -/
structure Follows (root : Text → Binding) (radix : Nat) (done : List Definition)
    (bindings : Text → Binding) : Prop where
  /-- Names that are not defined stand for what they did. -/
  others : ∀ x ∉ done.map Definition.name, bindings x = root x
  /-- Names that are defined are bound to polynomials. -/
  bound : ∀ x ∈ done.map Definition.name, ∃ value, bindings x = ⟨some value, false⟩ ∧
    value.isPolynomial radix = true
  /-- What a stored value leads to can be reached in the graph. -/
  sound : ∀ x, (root x).isSet = false → ∀ y, Eval.Leads bindings x y → TransGen (Refers done) x y
  /-- What can be reached in the graph and is not defined yet is led to by the stored values. -/
  complete : ∀ x y, TransGen (Refers done) x y → y ∉ done.map Definition.name →
    TransGen (Eval.Leads bindings) x y
  /-- The graph has no cycle. -/
  acyclic : ∀ x, ¬ TransGen (Refers done) x x

section Follows

variable {root bindings : Text → Binding} {radix : Nat} {done : List Definition} {d : Definition}

/-- Without definitions names stand for what they did. -/
theorem follows_nil : Follows root radix [] root where
  others _ _ := rfl
  bound _ hx := absurd hx List.not_mem_nil
  sound x hx y := by
    rintro ⟨value, hvalue, -⟩
    rw [Binding.eq_unset hx] at hvalue
    cases hvalue
  complete _ _ h := absurd (mem_names_of_transGen h) List.not_mem_nil
  acyclic _ h := absurd (mem_names_of_transGen h) List.not_mem_nil

/-- Unset names are bound to nothing or to polynomials in unset names. -/
theorem Follows.closed (h : Follows root radix done bindings)
    (hdone : ∀ d ∈ done, d.IsPolynomial root radix) :
    Eval.Closed radix {x | (root x).isSet = false} bindings := by
  -- a name that was unset is bound by a definition or not at all
  have hcases : ∀ x, (root x).isSet = false → bindings x = Binding.unset ∨
      x ∈ done.map Definition.name := by
    intro x hx
    by_cases hmem : x ∈ done.map Definition.name
    · exact Or.inr hmem
    · exact Or.inl (by rw [h.others x hmem, Binding.eq_unset hx])
  refine ⟨fun x hx => ?_, fun x hx value hvalue => ?_, fun x hx y hleads => ?_⟩
  · rcases hcases x hx with hunset | hmem
    · rw [hunset]
      rfl
    · obtain ⟨value, hvalue, -⟩ := h.bound x hmem
      rw [hvalue]
  · rcases hcases x hx with hunset | hmem
    · rw [hunset] at hvalue
      cases hvalue
    · obtain ⟨value', hvalue', hpoly⟩ := h.bound x hmem
      rw [hvalue'] at hvalue
      cases hvalue
      exact hpoly
  · rcases hcases x hx with hunset | hmem
    · obtain ⟨value, hvalue, -⟩ := hleads
      rw [hunset] at hvalue
      cases hvalue
    · obtain ⟨d, hd, hy⟩ := exists_mem_identifiers_of_transGen (h.sound x hx y hleads)
      exact (hdone d hd).identifiers y hy

/-- A name that is not defined and was unset stands for nothing. -/
theorem Follows.value_eq_none (h : Follows root radix done bindings) {x : Text}
    (hx : x ∉ done.map Definition.name) (hunset : (root x).isSet = false) :
    (bindings x).value = none := by
  rw [h.others x hx, Binding.eq_unset hunset]
  rfl

/-- What can be reached in the graph and is not defined is led to by the stored values, in any number of
steps. -/
theorem Follows.complete' (h : Follows root radix done bindings) {x y : Text}
    (hwalk : ReflTransGen (Refers done) x y) (hy : y ∉ done.map Definition.name) :
    ReflTransGen (Eval.Leads bindings) x y := by
  rcases Relation.reflTransGen_iff_eq_or_transGen.1 hwalk with rfl | hwalk
  · exact .refl
  · exact (h.complete x y hwalk hy).to_reflTransGen

/-- What unset names are led to by the stored values can be reached in the graph. -/
theorem Follows.sound' (h : Follows root radix done bindings)
    (hdone : ∀ d ∈ done, d.IsPolynomial root radix) {x y : Text} (hx : (root x).isSet = false)
    (hwalk : ReflTransGen (Eval.Leads bindings) x y) : ReflTransGen (Refers done) x y := by
  induction hwalk using ReflTransGen.head_induction_on with
  | refl => exact .refl
  | head hleads _ ih =>
    exact (h.sound _ hx _ hleads).to_reflTransGen.trans (ih ((h.closed hdone).mem _ hx _ hleads))

section Step

variable {u : Surroundings} {fuel : Nat} {v : Expr} {dom : Finset Text}

/-- One more definition is bound: its value was evaluated without its name being met. -/
theorem Follows.concat (h : Follows root radix done bindings)
    (hdone : ∀ d ∈ done, d.IsPolynomial root radix) (hd : d.IsPolynomial root radix)
    (hnew : d.name ∉ done.map Definition.name)
    (hdom : ∀ name, (bindings name).value.isSome → name ∈ dom)
    (hfuel : (dom \ [d.name].toFinset).card < fuel)
    (hv : Eval.Substitutes radix (Eval.guarded u radix bindings fuel [d.name]) d.value v) :
    Follows root radix (done ++ [d]) (Function.update bindings d.name ⟨some v, false⟩) := by
  have hclosed := h.closed hdone
  have hunset : (bindings d.name).value = none := h.value_eq_none hnew hd.name
  have hnames : ∀ x, x ∈ (done ++ [d]).map Definition.name ↔ x ∈ done.map Definition.name ∨ x = d.name := by
    simp
  -- the stored values of other names stay
  have hmono : ∀ {x y}, Eval.Leads bindings x y →
      Eval.Leads (Function.update bindings d.name ⟨some v, false⟩) x y := by
    rintro x y ⟨value, hvalue, hy⟩
    have hne : x ≠ d.name := fun heq => by rw [heq, hunset] at hvalue; cases hvalue
    exact ⟨value, by rw [Function.update_of_ne hne]; exact hvalue, hy⟩
  have hself : ∀ {y}, y ∈ v.identifiers →
      Eval.Leads (Function.update bindings d.name ⟨some v, false⟩) d.name y :=
    fun hy => ⟨v, by rw [Function.update_self], hy⟩
  -- what the value leads to is neither the name nor lost
  have hreaches : ∀ z ∈ d.value.identifiers, ∀ y, ReflTransGen (Eval.Leads bindings) z y →
      y ≠ d.name ∧ ((bindings y).value = none → y ∈ v.identifiers) := by
    intro z hz y hwalk
    obtain ⟨loc, w, hw, hsub⟩ := hv.forth z hz
    obtain ⟨hguard, hleft⟩ := Eval.guarded_reaches hclosed hdom hfuel (hd.identifiers z hz) hw hwalk
    exact ⟨fun heq => hguard (by simp [heq]), fun hnone => hsub (hleft hnone)⟩
  refine ⟨fun x hx => ?_, fun x hx => ?_, fun x hx y hleads => ?_, fun x y hwalk hy => ?_,
    fun x hwalk => ?_⟩
  · rw [hnames, not_or] at hx
    rw [Function.update_of_ne hx.2, h.others x hx.1]
  · by_cases hname : x = d.name
    · subst hname
      exact ⟨v, Function.update_self .., hv.isReduced.isPolynomial⟩
    · rw [Function.update_of_ne hname]
      exact h.bound x (((hnames x).1 hx).resolve_right hname)
  · by_cases hname : x = d.name
    · subst hname
      obtain ⟨value, hvalue, hy⟩ := hleads
      rw [Function.update_self] at hvalue
      cases hvalue
      obtain ⟨z, hz, loc, w, hw, hyw⟩ := hv.back y hy
      have hstored := Eval.reaches_of_mem_guarded hclosed (hd.identifiers z hz) hw hyw
      refine TransGen.head' ⟨d, by simp, rfl, hz⟩ ?_
      exact ReflTransGen.mono (fun _ _ hr => hr.append_left [d]) _ _
        (h.sound' hdone (hd.identifiers z hz) hstored)
    · obtain ⟨value, hvalue, hy⟩ := hleads
      rw [Function.update_of_ne hname] at hvalue
      exact TransGen.mono (fun _ _ hr => hr.append_left [d]) _ _ (h.sound x hx y ⟨value, hvalue, hy⟩)
  · rw [hnames, not_or] at hy
    rcases transGen_refers_concat hwalk with hwalk | ⟨hname, z, hz, hrest⟩
    · exact TransGen.mono (fun _ _ => hmono) _ _ (h.complete x y hwalk hy.1)
    · have hfresh : (root y).isSet = false := by
        obtain ⟨d', hd', hmem⟩ := exists_mem_identifiers_of_transGen hwalk
        rcases List.mem_append.1 hd' with hd' | hd'
        · exact (hdone d' hd').identifiers y hmem
        · rw [List.mem_singleton.1 hd'] at hmem
          exact hd.identifiers y hmem
      have hleft := (hreaches z hz y (h.complete' hrest hy.1)).2 (h.value_eq_none hy.1 hfresh)
      exact TransGen.tail' (ReflTransGen.mono (fun _ _ => hmono) _ _ (h.complete' hname hnew)) (hself hleft)
  · rcases transGen_refers_concat hwalk with hwalk | ⟨hname, z, hz, hrest⟩
    · exact h.acyclic x hwalk
    · exact (hreaches z hz d.name (h.complete' (hrest.trans hname) hnew)).1 rfl

end Step

/-- The radix is not defined, so it stays what it was. -/
theorem Follows.radixName (h : Follows root radix done bindings)
    (hdone : ∀ d ∈ done, d.IsPolynomial root radix) (hroot : (root Scope.radixName).isSet = true) :
    bindings Scope.radixName = root Scope.radixName := by
  refine h.others _ fun hmem => ?_
  obtain ⟨d, hd, hname⟩ := List.mem_map.1 hmem
  have hunset := (hdone d hd).name
  rw [hname, hroot] at hunset
  cases hunset

end Follows

/-- The diagnostic that reports a walk through definitions from a name back to itself. -/
def Reports (defs : List Definition) (report : Diagnostic) : Prop :=
  ∃ loc name between, report = .fatal loc ("Circular reference " ++
      Text.join "->" (name :: between ++ [name])) ∧
    List.IsChain (TransGen (Refers defs)) (name :: between ++ [name])

/-- A walk that is reported is a walk through more definitions as well. -/
theorem Reports.append_left {done : List Definition} {report : Diagnostic} (h : Reports done report)
    (more : List Definition) : Reports (done ++ more) report := by
  obtain ⟨loc, name, between, rfl, hwalk⟩ := h
  refine ⟨loc, name, between, rfl, hwalk.imp fun _ _ => ?_⟩
  exact TransGen.mono (fun _ _ hr => hr.append_left more) _ _

/-- What is reported is a cycle. -/
theorem Reports.exists_cycle {defs : List Definition} {report : Diagnostic} (h : Reports defs report) :
    ∃ name, TransGen (Refers defs) name name := by
  obtain ⟨-, name, between, -, hwalk⟩ := h
  exact ⟨name, hwalk.rel_cons (by simp)⟩

section Run

variable {root : Text → Binding} {radix : Nat} {done : List Definition} {d : Definition} {w : Workbench}
  {s : State} {t : Trail}

/-- Evaluating a definition evaluates its value. -/
theorem exec_reduce (u : Surroundings) (d : Definition) (s : State) :
    (Token.reduce u d.token).exec s =
      (((Eval.evaluateDefinition u d.name d.value).exec s).1.map
          (.assign d.loc .equate (.identifier d.nameLoc d.name)),
        ((Eval.evaluateDefinition u d.name d.value).exec s).2) := by
  have hname : (Eval.nameOnly u (.identifier d.nameLoc d.name)).exec s =
      (.ok (.identifier d.nameLoc d.name), s) := rfl
  rw [token, Token.reduce, Act.exec_bind_of_ok hname, Token.reduceValue]
  rcases hexec : (Eval.evaluateDefinition u d.name d.value).exec s with ⟨x, s'⟩
  cases x with
  | ok v =>
    rw [Act.exec_bind_of_ok hexec]
    rfl
  | error f =>
    rw [Act.exec_bind_of_error hexec]
    rfl

/-- The second stage binds a definition, or reports a cycle that it closes and stops. -/
theorem run_bind (hfollows : Follows root radix done s.scope.binding)
    (hroot : (root Scope.radixName).isSet = true) (hradix : (root Scope.radixName).radix = radix)
    (hdone : ∀ d ∈ done, d.IsPolynomial root radix) (hd : d.IsPolynomial root radix)
    (hnew : d.name ∉ done.map Definition.name) (ht : t.stopped = false) :
    ∃ s', (Stage.through w.block.inMacro (.localize w) [.reduceFirst w] (.settled d.token) t).run s =
        (t.add ⟨[], false, s'⟩, s') ∧ Follows root radix (done ++ [d]) s'.scope.binding ∨
      ∃ report, (Stage.through w.block.inMacro (.localize w) [.reduceFirst w] (.settled d.token) t).run s =
        (t.add ⟨[.message report], true, s'⟩, s') ∧ Reports (done ++ [d]) report := by
  have hradix' : s.scope.radix = radix := by
    rw [Scope.radix_eq, hfollows.radixName hdone hroot, hradix]
  subst hradix'
  have hvalue := exec_reduce w.around d s
  -- names lead to names that can be reached in the graph, and so does the definition
  obtain ⟨s1, hbinding, ⟨v, hexec, hv⟩ | ⟨f, hexec, hcircular⟩⟩ :=
    Eval.evaluateDefinition_cases (u := w.around) (R := TransGen (Refers (done ++ [d])))
      (hfollows.closed hdone)
      (fun x hx y hleads => TransGen.mono (fun _ _ hr => hr.append_left [d]) _ _
        (hfollows.sound x hx y hleads)) d.name d.value hd.value
      fun y hy => ⟨hd.identifiers y hy, .single ⟨d, by simp, rfl, hy⟩⟩
  · rw [hexec] at hvalue
    have hunset : (s1.scope.binding d.name).isSet = false := by
      rw [hbinding, hfollows.others d.name hnew]
      exact hd.name
    obtain ⟨s2, hequate, hbound⟩ := Bind.exec_equate_of_unset hunset w d.loc d.nameLoc v
    have hlocal : (Pass.localize w ⟨.assign d.loc .equate (.identifier d.nameLoc d.name) v,
        decide (s.deferred < s1.deferred)⟩).exec (Output.empty w.block.inMacro, s1) =
        (.ok ⟨⟩, (Output.empty w.block.inMacro, s2)) := Emission.exec_monadLift_of_ok hequate _
    refine ⟨s2, Or.inl ⟨?_, ?_⟩⟩
    · rw [Stage.run_through_step ht (Pass.run_handle_of_ok rfl (Pass.exec_reduceFirst_of_ok hvalue)) rfl]
      exact Stage.run_through_last (Pass.run_handle_of_ok rfl hlocal)
    · rw [hbound, hbinding]
      have hcard := Finset.card_le_card (Finset.sdiff_subset (s := Eval.domain s.scope)
        (t := [d.name].toFinset))
      exact hfollows.concat hdone hd hnew (Eval.mem_domain_of_isSome s.scope)
        (lt_of_le_of_lt hcard (Eval.card_domain_lt s.scope)) hv
  · rw [hexec] at hvalue
    obtain ⟨loc, name, between, rfl, hwalk⟩ := hcircular
    have hreport : ((Pass.reduceFirst w).handle w.block.inMacro (.settled d.token)).run s =
        ((Output.empty w.block.inMacro).push (.message (Failure.toDiagnostic d.loc (.report (.fatal loc
          ("Circular reference " ++ Text.join "->" (name :: between ++ [name])))))), s1) :=
      Pass.run_handle_of_error rfl (Pass.exec_reduceFirst_of_error hvalue)
    exact ⟨s1, Or.inr ⟨_, Stage.run_through_report ht hreport, _, name, between, rfl, hwalk⟩⟩

/-- The second stage binds all definitions, or reports a cycle and stops. -/
theorem run_feed_bind (w : Workbench) (rest : List Definition) (hfollows : Follows root radix done s.scope.binding)
    (hroot : (root Scope.radixName).isSet = true) (hradix : (root Scope.radixName).radix = radix)
    (hdefs : ∀ d ∈ done ++ rest, d.IsPolynomial root radix)
    (hnames : ((done ++ rest).map Definition.name).Nodup) (ht : t.stopped = false) :
    ∃ t' s', (Stage.feed (Stage.through w.block.inMacro (.localize w) [.reduceFirst w])
        ((rest.map token).map .settled) t).run s = (t', s') ∧
      (t'.items = t.items ∧ Follows root radix (done ++ rest) s'.scope.binding ∨
        ∃ report, t'.items = t.items ++ [.message report] ∧ Reports (done ++ rest) report) := by
  -- the induction is on the definitions that are left; a report stops it early
  induction rest generalizing done t s with
  | nil => exact ⟨t, s, rfl, Or.inl ⟨rfl, by rwa [List.append_nil]⟩⟩
  | cons d rest ih =>
    have hnew : d.name ∉ done.map Definition.name := by
      rw [List.map_append, List.nodup_append] at hnames
      exact fun hmem => hnames.2.2 _ hmem _ List.mem_cons_self rfl
    have happend : done ++ d :: rest = (done ++ [d]) ++ rest := by simp
    rw [List.map_cons, List.map_cons]
    obtain ⟨s1, ⟨hrun, hfollows⟩ | ⟨report, hrun, hreport⟩⟩ := run_bind (w := w) hfollows hroot hradix
      (fun d' hd' => hdefs d' (List.mem_append_left _ hd')) (hdefs d (by simp)) hnew ht
    · rw [Stage.run_feed_cons ht hrun, happend]
      rw [happend] at hdefs hnames
      simpa using ih (t := t.add ⟨[], false, s1⟩) hfollows hdefs hnames (by simp [ht])
    · rw [Stage.run_feed_cons ht hrun, Stage.run_feed_of_stopped (by simp), happend]
      exact ⟨_, _, rfl, Or.inr ⟨report, by simp, hreport.append_left rest⟩⟩

end Run

/-- A report is fatal. -/
theorem Reports.isFatal {defs : List Definition} {report : Diagnostic} (h : Reports defs report) :
    report.isFatal = true := by
  obtain ⟨loc, name, between, rfl, -⟩ := h
  rfl

/-- Definitions are EQU statements. -/
theorem isEquate_of_mem_map {defs : List Definition} {t : Token} (h : t ∈ defs.map token) :
    t.isEquate = true ∨ t.isData = true := by
  obtain ⟨d, -, rfl⟩ := List.mem_map.1 h
  exact Or.inl rfl

end Definition

open Definition in
/-- Assembling definitions of distinct names, whose values are polynomials in names without a value, reports
one circular reference and nothing else if the names refer to one another in a cycle. Otherwise nothing
fatal is reported. -/
theorem Assembler.assemble_definitions (a : Assembler) (scope : Scope) (defs : List Definition)
    (hradix : (scope.binding Scope.radixName).isSet = true) (hnames : (defs.map Definition.name).Nodup)
    (hdefs : ∀ d ∈ defs, d.IsPolynomial scope.binding scope.radix) :
    ((∃ name, TransGen (Refers defs) name name) →
      ∃ report, Reports defs report ∧
        (a.assemble scope (defs.map token)).tokens = [.message report]) ∧
    ((∀ name, ¬ TransGen (Refers defs) name name) →
      ∀ t ∈ (a.assemble scope (defs.map token)).tokens, t.isFatal = false) := by
  have hstart : Follows scope.binding scope.radix [] (start scope).scope.binding := follows_nil
  obtain ⟨t, s, hbind, hcases⟩ := run_feed_bind ⟨a, a.outermost, a.runner a.maxDepth⟩ defs
    (t := Trail.empty) hstart hradix (Scope.radix_eq scope).symm hdefs hnames rfl
  have hrun := Workbench.run_of_forall _
    (fun t ht => Token.isSequential_of_equate_or_data (isEquate_of_mem_map ht)) hbind
  rcases hcases with ⟨hitems, hfollows⟩ | ⟨report, hitems, hreport⟩
  · refine ⟨fun ⟨name, hcycle⟩ => absurd hcycle (hfollows.acyclic name), fun _ t ht => ?_⟩
    rw [hitems] at hrun
    rw [Assembler.tokens_assemble hrun] at ht
    exact (Scope.mem_accountFor ht).2
  · refine ⟨fun _ => ⟨report, hreport, ?_⟩, fun hacyclic => ?_⟩
    · rw [hitems] at hrun
      rw [Assembler.tokens_assemble (hrun.trans (Workbench.run_finishStage_message _ _ _))]
      have htokens : (Trail.empty.add ⟨[.message report], report.isFatal, s⟩).tokens =
        [.message report] := rfl
      have hfatal : Token.isFatal (.message report) = true := hreport.isFatal
      rw [htokens, List.any_cons, hfatal, Bool.true_or, if_pos rfl, List.append_nil]
    · obtain ⟨name, hcycle⟩ := hreport.exists_cycle
      exact absurd hcycle (hacyclic name)

namespace Definition

/-- A definition of a name as a binary operation. -/
def ofBinary (name : Text) (op : BinaryOp) (left right : Expr) : Definition :=
  ⟨Location.none, Location.none, name, .binary Location.none op left right⟩

/-- `A EQU B+1`, `C EQU A*2` and `B EQU C-A`. -/
def threeNames : List Definition :=
  [ofBinary "A" .add (.identifier Location.none "B") (.literal Location.none 1),
    ofBinary "C" .multiply (.identifier Location.none "A") (.literal Location.none 2),
    ofBinary "B" .subtract (.identifier Location.none "C") (.identifier Location.none "A")]

/-- `A EQU B+1`. -/
def oneName : List Definition :=
  [ofBinary "A" .add (.identifier Location.none "B") (.literal Location.none 1)]

end Definition

open Definition in
/-- Three names in a cycle are reported, a name that refers to another one is not. -/
theorem Assembler.assemble_definitions_threeNames :
    (∃ report, Reports threeNames report ∧
      (assemble (.bare 0) Scope.initial (threeNames.map token)).tokens = [.message report]) ∧
    ∀ t ∈ (assemble (.bare 0) Scope.initial (oneName.map token)).tokens, t.isFatal = false := by
  constructor
  · refine (assemble_definitions _ Scope.initial threeNames (by decide +kernel) (by decide +kernel)
      (by decide +kernel)).1 ⟨"A", ?_⟩
    have hB : Refers threeNames "A" "B" := ⟨_, .head _, rfl, .head _⟩
    have hA : Refers threeNames "B" "A" := ⟨_, .tail _ (.tail _ (.head _)), rfl, .tail _ (.head _)⟩
    exact .tail (.single hB) hA
  · refine (assemble_definitions _ Scope.initial oneName (by decide +kernel) (by decide +kernel)
      (by decide +kernel)).2 fun name hcycle => ?_
    have hname : name ∈ (["A"] : List Text) := mem_names_of_transGen hcycle
    obtain ⟨d, hd, hmem⟩ := exists_mem_identifiers_of_transGen hcycle
    rw [List.mem_singleton.1 hd] at hmem
    rw [List.mem_singleton.1 hname] at hmem
    exact absurd hmem (by decide +kernel)

end MacroAsm
