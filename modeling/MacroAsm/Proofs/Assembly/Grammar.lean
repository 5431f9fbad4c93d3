import MacroAsm.Assembly.Bind
import MacroAsm.Assembly.Declare
import MacroAsm.Proofs.Assembly.Emission
import MacroAsm.Proofs.Assembly.Lasting
import MacroAsm.Proofs.Assembly.Reduction
import MacroAsm.Proofs.Assembly.Roles
import MacroAsm.Proofs.Assembly.Unfolding

/-!
# What blocks are made of and what they give

A `Grammar` tells of which tokens the blocks of a program are made, which ones assembling a block may give,
and which names may be removed. The handling of a statement makes the scope unfold, keeps the macros of the
scope within the grammar, and emits items that satisfy a property `P`, if `P` admits what the handlings emit
(`Grammar.Admits`). Here this is shown for evaluation and for the statements that declare, bind and remove
names.
-/

namespace MacroAsm

/-- The tokens that blocks are made of, those that assembling them may give, and the names that are removed
on the way. -/
structure Grammar where
  /-- The tokens that blocks are made of. -/
  source : Token → Prop
  /-- The tokens that assembling a block may give. -/
  output : Token → Prop
  /-- The names that may be removed. -/
  gone : Text → Prop

namespace Grammar

/-- A macro is made of source tokens. -/
def IsMacro (g : Grammar) (m : Macro) : Prop := ∀ t ∈ m.body, g.source t

/-- A symbol that holds no macro but one made of source tokens. -/
def IsSymbol (g : Grammar) (_ : Bool) (sym : Symbol) : Prop := ∀ m, sym.template = some m → g.IsMacro m

/-- A well formed scope whose macros are made of source tokens. -/
structure Sound (g : Grammar) (s : Scope) : Prop where
  /-- It is well formed. -/
  wellFormed : s.WellFormed
  /-- Its macros are made of source tokens. -/
  everywhere : s.Everywhere g.IsSymbol

/-- The macros of a scope stay made of source tokens. -/
theorem lasting (g : Grammar) : Scope.Lasting g.IsMacro g.IsSymbol where
  changes _ sym sym' h hsym m hm := hsym m (h.template ▸ hm)
  declared _ hm := by cases hm
  promoted _ _ hsym := hsym
  defined _ _ _ _ hsym := hsym
  template _ m _ hok _ m' hm' := by
    cases hm'
    exact hok
  bound _ _ _ hsym := hsym
  absorbed _ _ hold := hold
  merged inner test onTrue onFalse here name r htrue _ hhere hstep := by
    obtain heq | ⟨heq, -⟩ | ⟨base, sym, heq, hfrom⟩ := hstep.frame_cases
    · rwa [heq]
    · rw [heq]
      exact hhere.erase name
    · rw [heq]
      refine hhere.insert name ?_
      -- the macro of a merged symbol comes from the frame or from the taken arm
      have hbase : g.IsSymbol inner base := by
        rcases hfrom.origin with hfind | ⟨-, hfind | rfl⟩
        · exact hhere.of_find? hfind
        · exact htrue.of_find? hfind
        · exact fun _ hm => by cases hm
      rcases hfrom.template with htemplate | ⟨ts, hts, htemplate⟩
      · exact fun m hm => hbase m (htemplate ▸ hm)
      · exact fun m hm => htrue.of_find? hts m (htemplate ▸ hm)

variable {g : Grammar}

/-- What the handling of the statements of a program does to a scope. -/
abbrev Evolves (g : Grammar) : Scope → Scope → Prop := Scope.Unfolds g.gone g.IsMacro

theorem Sound.evolves {s s' : Scope} (hs : g.Sound s) (h : g.Evolves s s') : g.Sound s' :=
  ⟨(h.evolves.preserved hs.wellFormed).wellFormed,
    h.evolves.everywhere g.lasting hs.wellFormed hs.everywhere⟩

theorem Sound.opens {s t : Scope} (hs : g.Sound s) (h : s.Opens t) : g.Sound t :=
  ⟨hs.wellFormed.of_opens h, hs.everywhere.opens g.lasting h⟩

/-- States between which the scope evolves. -/
def Leads (g : Grammar) (s s' : State) : Prop := g.Evolves s.scope s'.scope

/-- The scope is sound, and all items that were emitted satisfy `P`. -/
structure Keeps (g : Grammar) (P : Item → Prop) (p : Output × State) : Prop where
  /-- The scope is sound. -/
  sound : g.Sound p.2.scope
  /-- The items that were emitted. -/
  items : ∀ item ∈ p.1.reversed, P item

/-- What the handling of a statement is shown to do: the scope evolves and stays sound, and what is emitted
satisfies `P`. -/
abbrev Handles {α : Type} (g : Grammar) (P : Item → Prop) (e : Emission α) (p : Output × State) : Prop :=
  Emission.Yields g.Leads (g.Keeps P) (fun _ _ => True) e p

theorem Leads.of_scope_eq {s s' : State} (h : s'.scope = s.scope) : g.Leads s s' := by
  rw [Leads, h]
  exact .refl s.scope

/-- The scope evolves, and stays sound. -/
theorem invariant (g : Grammar) (P : Item → Prop) : Emission.Invariant g.Leads (g.Keeps P) where
  refl s := .refl s.scope
  trans _ _ _ hxy hyz := .trans hxy hyz
  stable _ _ _ h hp := ⟨hp.sound.evolves h, hp.items⟩

/-- Evaluation makes the scope evolve. -/
theorem tracks (g : Grammar) : Eval.Tracks g.Leads fun _ _ => True where
  refl s := .refl s.scope
  trans _ _ _ hxy hyz := .trans hxy hyz
  known _ _ _ _ h := h
  deferred s := .of_scope_eq rfl
  request loc name s := by
    refine ⟨?_, trivial⟩
    rw [Eval.request, Act.exec_bind_of_ok (Act.exec_scope s), Leads]
    cases hfind : s.scope.find? name with
    | some sym =>
      exact .modify s.scope name _ fun _ _ => Symbol.Updates.revises
        ⟨⟨rfl, rfl, rfl, rfl, fun _ => rfl, id, Or.inl rfl⟩, id⟩ rfl
    | none =>
      simp only [Scope.declareLocal_of_find?_eq_none hfind]
      refine .trans (.declareAhead hfind (Scope.declareLocal_of_find?_eq_none hfind)) ?_
      exact .modify _ name _ fun _ _ => Symbol.Updates.revises
        ⟨⟨rfl, rfl, rfl, rfl, fun _ => rfl, fun _ => rfl, Or.inl rfl⟩, id⟩ rfl

theorem evaluates (g : Grammar) (u : Surroundings) : Eval.Evaluates u g.Leads fun _ _ => True :=
  g.tracks.evaluates fun _ _ _ _ _ _ => trivial

/-- A property of items that every diagnostic has. -/
def Reports (P : Item → Prop) : Prop := ∀ item : Item, item.token.isMessage = true → P item

/-- A property of items that admits what the handling of statements emits. -/
structure Admits (g : Grammar) (P : Item → Prop) : Prop where
  /-- A diagnostic. -/
  message : Reports P
  /-- The place of a label. -/
  fragment : ∀ loc id label, P (.settled (.fragment loc id label))
  /-- A token that a nested block gave. -/
  spliced : ∀ t, g.output t → P (.spliced t)

theorem admits_true (g : Grammar) : g.Admits fun _ => True :=
  ⟨fun _ _ => trivial, fun _ _ _ => trivial, fun _ _ => trivial⟩

/-- A property of items that admits an IF that only the linker can decide, at a location. The diagnostics of its arms
are not left in them. -/
def AdmitsCond (g : Grammar) (P : Item → Prop) (loc : Location) : Prop :=
  ∀ clauses otherwise, (∀ c ∈ clauses, ∀ t ∈ c.body, g.output t ∧ t.isMessage = false) →
    (∀ body ∈ otherwise, ∀ t ∈ body, g.output t ∧ t.isMessage = false) → P ⟨.cond loc clauses otherwise true, true⟩

section Emit

variable {P : Item → Prop} {p : Output × State}

/-- An item that satisfies the property is emitted. -/
theorem Keeps.push (hp : g.Keeps P p) {item : Item} (hitem : P item) :
    g.Keeps P (p.1.push item, p.2) := by
  refine ⟨hp.sound, ?_⟩
  rw [Output.push]
  split
  · exact hp.items
  · exact List.forall_mem_cons.2 ⟨hitem, hp.items⟩

/-- Items that satisfy the property are emitted. -/
theorem Keeps.pushAll (hp : g.Keeps P p) {items : List Item} (hitems : ∀ item ∈ items, P item) :
    g.Keeps P (p.1.pushAll items, p.2) := by
  induction items generalizing p with
  | nil => exact hp
  | cons item rest ih =>
    rw [List.forall_mem_cons] at hitems
    exact ih (hp.push hitems.1) hitems.2

theorem handles_emitItem (hp : g.Keeps P p) {item : Item} (hitem : P item) :
    g.Handles P (Emission.emitItem item) p :=
  .emit (g.invariant P) (Emission.exec_emitItem item p) (hp.push hitem)

theorem handles_warn (hP : Reports P) (hp : g.Keeps P p) (d : Diagnostic) :
    g.Handles P (Emission.warn d) p :=
  .emit (g.invariant P) (Emission.exec_warn d p) (hp.push (hP _ rfl))

/-- Tokens that satisfy the property are emitted. -/
theorem handles_emitAll (hp : g.Keeps P p) {ts : List Token} (hts : ∀ t ∈ ts, P (.settled t)) :
    g.Handles P (Emission.emitAll ts) p := by
  refine .emit (g.invariant P) (Emission.exec_emitAll ts p) (hp.pushAll fun item hitem => ?_)
  obtain ⟨t, ht, rfl⟩ := List.mem_map.1 hitem
  exact hts t ht

/-- An action that replaces the scope. -/
theorem handles_setScope (hp : g.Keeps P p) {scope : Scope}
    (h : g.Evolves p.2.scope scope) :
    g.Handles P (liftM (Act.setScope scope) : Emission PUnit) p :=
  .act (g.invariant P) hp ⟨h, fun _ _ => trivial⟩

/-- A handling that does not fail. -/
theorem handles_of_exec {e : Emission PUnit} {q : Output × State} (h : e.exec p = (.ok ⟨⟩, q))
    (hleads : g.Leads p.2 q.2) (hq : g.Keeps P q) : g.Handles P e p := by
  refine ⟨?_, ?_, fun _ _ => trivial⟩
  · rwa [h]
  · rwa [h]

/-- A handling that begins by reading the scope. -/
theorem handles_scope {α : Type} {k : Scope → Emission α} (hk : g.Handles P (k p.2.scope) p) :
    g.Handles P (do k (← (liftM Act.scope : Emission Scope))) p := by
  have heq := Emission.exec_bind_of_ok (k := k) (Emission.exec_scope p)
  exact ⟨by rw [heq]; exact hk.rel, by rw [heq]; exact hk.inv, fun _ _ => trivial⟩

end Emit

section Bind

variable {P : Item → Prop} {p : Output × State} {w : Workbench}

/-- LOCAL, for one name. -/
theorem handles_declareLocal (hP : Reports P) (hp : g.Keeps P p) (loc : Location) (name : Text) :
    g.Handles P (Bind.declareLocal loc name) p := by
  rw [Bind.declareLocal]
  refine handles_scope ?_
  cases hdeclare : p.2.scope.declareLocal name with
  | error c => exact handles_warn hP hp _
  | ok scope =>
    exact handles_setScope hp (.declareLocal hdeclare loc)

/-- LOCAL. -/
theorem handles_declareLocals (hP : Reports P) (hp : g.Keeps P p) (loc : Location)
    (names : List Expr) : g.Handles P (Bind.declareLocals w loc names) p := by
  have hnames := Eval.namesOf_yields (g.evaluates w.around) names p.2
  refine (Emission.Yields.act (g.invariant P) hp hnames).bind (g.invariant P) fun ns q _ hq _ => ?_
  exact .forM (g.invariant P) (fun name _ r _ hr => handles_declareLocal hP hr loc name) hq

/-- The symbol of a name that is declared if it does not exist. -/
theorem symbolOr_yields (name : Text) {declare : Scope → Except Cause Scope}
    (hdeclare : ∀ s s' : Scope, s.find? name = none → declare s = .ok s' → g.Evolves s s') (s : State) :
    Act.Yields g.Leads (fun sym s' => ∀ found, s'.scope.find? name = some found → found = sym)
      (Bind.symbolOr name declare) s := by
  have hR := g.tracks
  rw [Bind.symbolOr, Act.Yields, Act.exec_bind_of_ok (Act.exec_scope s)]
  cases hfind : s.scope.find? name with
  | some sym =>
    refine ⟨hR.refl s, fun found hfound sym' hsym' => ?_⟩
    cases hfound
    exact (Option.some.inj (hfind.symm.trans hsym')).symm
  | none =>
    dsimp only
    cases hscope : declare s.scope with
    | error c => exact ⟨hR.refl s, fun _ h => by cases h⟩
    | ok scope =>
      refine ⟨hdeclare _ _ hfind hscope, fun found hfound sym' hsym' => ?_⟩
      cases hfound
      exact (congrArg (Option.getD · {}) hsym').symm

/-- A statement that binds a name: the name is spelled, declared if it does not exist, and then its symbol
changes or a failure is reported. -/
theorem assignment_yields {name : Expr} (declare : Text → Scope → Except Cause Scope)
    {finish : Text → Symbol → Act PUnit}
    (hdeclare : ∀ name s s', s.find? name = none → declare name s = .ok s' → g.Evolves s s')
    (hfinish : ∀ name sym s, (∀ found, s.scope.find? name = some found → found = sym) →
      Act.Yields g.Leads (fun _ _ => True) (finish name sym) s) (s : State) :
    Act.Yields g.Leads (fun _ _ => True)
      (do
        let name ← Eval.nameOf w.around name
        let sym ← Bind.symbolOr name (declare name)
        finish name sym) s := by
  refine (Eval.nameOf_yields (g.evaluates w.around) name s).bind g.tracks.trans
    fun name s1 _ _ => ?_
  exact (symbolOr_yields name (hdeclare name) s1).bind g.tracks.trans fun sym s2 _ hsym =>
    hfinish name sym s2 hsym

/-- A change of the symbol of a name. -/
theorem modify_yields {name : Text} {change : Symbol → Symbol} {s : State}
    (hchange : ∀ sym, s.scope.find? name = some sym → sym.Revises name (change sym)) :
    Act.Yields g.Leads (fun _ _ => True) (Act.modifyScope fun s => s.modify name change) s :=
  ⟨.modify s.scope name change hchange, fun _ _ => trivial⟩

theorem fresh_yields (s : State) :
    Act.Yields g.Leads (fun _ s' => s'.scope = s.scope) Act.fresh s :=
  ⟨.of_scope_eq rfl, fun _ _ => rfl⟩

/-- SET. -/
theorem assign_yields (loc : Location) (name value : Expr) (s : State) :
    Act.Yields g.Leads (fun _ _ => True) (Bind.assign w loc name value) s := by
  refine assignment_yields (fun name s => s.declareLocal name)
    (fun _ _ _ => .declareAhead) (fun name sym s hsym => ?_) s
  split
  · exact .report (g.tracks.refl s) _
  · rename_i hopen
    refine modify_yields fun found hfound => ?_
    refine ⟨⟨⟨rfl, rfl, rfl, rfl, id, id, Or.inr rfl⟩, id⟩, fun _ hfrozen hvalue => absurd ?_ hopen⟩
    rw [← hsym found hfound, hfrozen, Symbol.isSet, hvalue]
    rfl

/-- EQU. -/
theorem equate_yields (loc : Location) (name value : Expr) (s : State) :
    Act.Yields g.Leads (fun _ _ => True) (Bind.equate w loc name value) s := by
  refine assignment_yields (fun name s => s.declareGlobal name)
    (fun _ _ _ _ => .declareGlobal) (fun name sym s hsym => ?_) s
  split
  · exact .report (g.tracks.refl s) _
  · rename_i hopen
    refine modify_yields fun found hfound => ?_
    refine ⟨⟨⟨rfl, rfl, rfl, rfl, id, fun _ => rfl, Or.inr rfl⟩, id⟩, fun _ _ hvalue => absurd ?_ hopen⟩
    rw [← hsym found hfound, Symbol.isSet, hvalue, Bool.true_or]

/-- DEFINE. -/
theorem define_yields (loc : Location) (name value : Expr) (s : State) :
    Act.Yields g.Leads (fun _ _ => True) (Bind.define w loc name value) s := by
  refine (Eval.nameOf_yields (g.evaluates w.around) name s).bind g.tracks.trans
    fun name s1 _ _ => ⟨?_, fun _ _ => trivial⟩
  rw [Act.exec_bind_of_ok (Act.exec_scope s1)]
  cases hfind : s1.scope.find? name with
  | some sym => exact g.tracks.refl s1
  | none =>
    rw [Option.isSome_none, if_neg Bool.false_ne_true]
    cases hdeclare : s1.scope.declareGlobal name with
    | error c => exact g.tracks.refl s1
    | ok scope => exact .define hfind hdeclare value loc

/-- A label. -/
theorem handles_label (hP : g.Admits P) (hp : g.Keeps P p) (loc : Location) (name : Expr) :
    g.Handles P (Bind.label w loc name) p := by
  have hR := g.invariant P
  refine (Emission.Yields.act hR hp (Eval.nameOf_yields (g.evaluates w.around) name p.2)).bind hR
    fun name q _ hq _ => ?_
  refine (Emission.Yields.act hR hq (symbolOr_yields name (fun _ _ => .declareAhead) q.2)).bind hR
    fun sym q _ hq hsym => ?_
  split
  · exact .report hR hq _
  · rename_i hopen
    refine (Emission.Yields.act hR hq (fresh_yields q.2)).bind hR fun id q' _ hq' hscope => ?_
    refine (Emission.Yields.act hR hq' (modify_yields fun found hfound => ?_)).bind hR fun _ q _ hq _ => ?_
    · refine ⟨⟨⟨rfl, rfl, rfl, rfl, fun h => h, fun _ => rfl, Or.inr rfl⟩, fun h => h⟩,
        fun _ _ hvalue => absurd ?_ hopen⟩
      rw [← hsym found (hscope ▸ hfound), Symbol.isSet, hvalue, Bool.true_or]
    · exact handles_emitItem hq (hP.fragment loc _ name)

/-- UNDEF and PMACRO, for one name. -/
theorem handles_retractName (hP : Reports P) (hp : g.Keeps P p) (loc : Location)
    (what : Retraction) {name : Text} (hgone : g.gone name) :
    g.Handles P (Bind.retractName loc what name) p := by
  rw [Bind.retractName]
  refine handles_scope ?_
  split
  · rename_i hremovable
    cases hfind : p.2.scope.find? name with
    | none =>
      rw [hfind] at hremovable
      cases hremovable
    | some sym =>
      rw [hfind] at hremovable
      refine handles_setScope hp (.remove hfind ?_ hgone)
      cases what with
      | defines => exact Or.inl hremovable
      | macros => exact Or.inr hremovable
  · exact handles_warn hP hp _

/-- UNDEF and PMACRO. -/
theorem handles_retract (hP : Reports P) (hp : g.Keeps P p) (loc : Location) (what : Retraction)
    {names : List Expr} (hgone : Act.Gives (fun ns => ∀ n ∈ ns, g.gone n) (Eval.namesOf w.around names)) :
    g.Handles P (Bind.retract w loc what names) p := by
  have hR := g.invariant P
  have hnames : Act.Yields g.Leads (fun ns _ => ∀ n ∈ ns, g.gone n) (Eval.namesOf w.around names) p.2 :=
    ⟨(Eval.namesOf_yields (g.evaluates w.around) names p.2).1, fun ns hns => hgone p.2 ns hns⟩
  refine (Emission.Yields.act hR hp hnames).bind hR fun ns q _ hq hns => ?_
  exact .forM hR (fun name hname r _ hr => handles_retractName hP hr loc what (hns name hname)) hq

/-- A name that is declared in the innermost frame, and that is frozen there, was declared before. -/
theorem declareLocal_eq_self {s s' : Scope} {name : Text} (h : s.declareLocal name = .ok s')
    (hfrozen : ((s'.top.find? name).getD {}).frozen = true) : s' = s := by
  cases (Scope.declareLocal_eq_ok h).2 with
  | kept => rfl
  | entered =>
    rw [Scope.top_modifyTop, Frame.find?_insert, if_pos rfl] at hfrozen
    cases hfrozen

/-- MACRO. -/
theorem handles_defineMacro (hP : Reports P) (hp : g.Keeps P p) (loc : Location) (name : Expr)
    (parameters : List Expr) {body : List Token} (hbody : ∀ t ∈ body, g.source t) :
    g.Handles P (Bind.defineMacro w loc name parameters body) p := by
  have hR := g.invariant P
  refine (Emission.Yields.act hR hp (Eval.nameOf_yields (g.evaluates w.around) name p.2)).bind hR
    fun name q _ hq _ => ?_
  refine (Emission.Yields.act hR hq
    (Eval.namesOf_yields (g.evaluates w.around) parameters q.2)).bind hR fun ps q _ hq _ => ?_
  refine handles_scope ?_
  cases hdeclare : q.2.scope.declareLocal name with
  | error c => exact ⟨.refl _, hq, fun _ h => by cases h⟩
  | ok scope =>
    -- declaring the name alone is no step: it is bound to the macro at once, or it was there before
    have hlift : (liftM (Act.lift (.ok scope)) : Emission Scope).exec q = (.ok scope, q) := rfl
    have hset : (liftM (Act.setScope scope) : Emission PUnit).exec q =
      (.ok ⟨⟩, (q.1, { q.2 with scope })) := rfl
    cases hfrozen : ((scope.top.find? name).getD {}).frozen &&
        ((scope.top.find? name).getD {}).value.isSome with
    | true =>
      have hsame : scope = q.2.scope :=
        declareLocal_eq_self hdeclare (Bool.and_eq_true_iff.1 hfrozen).1
      refine handles_of_exec (q := (q.1.push (.message (.warn loc
        ("Cannot reassign frozen value " ++ name ++ " to macro"))), q.2)) ?_ (.refl _) (hq.push (hP _ rfl))
      rw [Emission.exec_bind_of_ok hlift, Emission.exec_bind_of_ok hset]
      dsimp only
      rw [hfrozen, if_pos rfl, Emission.exec_warn, hsame]
    | false =>
      obtain ⟨s, hs⟩ : ∃ s, s = { q.2 with
        scope := scope.modifyTop fun f => f.modify name fun sym =>
          { sym with value := none, template := some ⟨q.2.supply, loc, ps, body⟩, loc }
        supply := q.2.supply + 1 } := ⟨_, rfl⟩
      have hopen : ∀ sym, scope.top.find? name = some sym → sym.frozen = true → sym.value = none := by
        intro sym hsym hsymFrozen
        simpa [hsym, hsymFrozen] using hfrozen
      have hleads : g.Leads q.2 s := hs ▸ .defineMacro hdeclare hopen hbody loc
      refine handles_of_exec (q := (q.1, s)) ?_ hleads ⟨hq.sound.evolves hleads, hq.items⟩
      rw [Emission.exec_bind_of_ok hlift, Emission.exec_bind_of_ok hset]
      dsimp only
      rw [hfrozen, if_neg Bool.false_ne_true, hs]
      rfl

/-- RADIX. -/
theorem setRadix_yields (loc : Location) (value : Expr) (s : State) :
    Act.Yields g.Leads (fun _ _ => True) (Bind.setRadix loc value) s := by
  have hset : ∀ radix : Int64, Act.Yields g.Leads (fun _ _ => True)
      (do Act.setScope (← Act.lift ((← Act.scope).setRadix radix loc))) s := by
    intro radix
    refine ⟨?_, fun _ _ => trivial⟩
    rw [Act.exec_bind_of_ok (Act.exec_scope s), Scope.setRadix]
    split
    · exact g.tracks.refl s
    · exact .modify s.scope Scope.radixName _ fun _ _ =>
        ⟨⟨⟨rfl, rfl, rfl, rfl, id, id, Or.inr rfl⟩, id⟩, fun hne => absurd rfl hne⟩
  rw [Bind.setRadix.eq_def]
  split
  · exact hset _
  · exact hset _
  · exact .report (g.tracks.refl s) _

end Bind

section Declare

variable {P : Item → Prop} {p : Output × State} {w : Workbench}

/-- GLOBAL and EXTERN, for one name: it becomes global, and its symbol changes. -/
theorem handles_globalName (hP : Reports P) (hp : g.Keeps P p) (loc : Location)
    {change : Symbol → Symbol} (hchange : ∀ sym : Symbol, sym.Updates { change sym with
      loc := (change sym).loc.orElse loc }) (hvalue : ∀ sym, (change sym).value = sym.value) (name : Text) :
    g.Handles P (Declare.globalName loc change name) p := by
  have hR := g.invariant P
  rw [Declare.globalName]
  refine handles_scope ?_
  cases hdeclare : p.2.scope.declareGlobal name with
  | error c => exact (handles_warn hP hp _).bind hR fun _ q _ hq _ => .pure hR hq trivial
  | ok scope =>
    refine (handles_setScope hp (.trans (.declareGlobal hdeclare) ?_)).bind hR
      fun _ q _ hq _ => .pure hR hq trivial
    exact .modifyRoot scope name _ fun sym _ => (hchange sym).revises (hvalue sym)

/-- The attributes of EXTERN, for one name. -/
theorem handles_attach (hP : Reports P) (hp : g.Keeps P p) (loc : Location)
    (attributes : Attributes) (name : Text) : g.Handles P (Declare.attach loc attributes name) p := by
  have hR := g.invariant P
  rw [Declare.attach]
  refine handles_scope ?_
  dsimp only
  refine (handles_setScope hp ?_).bind hR fun _ q _ hq _ => ?_
  · exact .modifyRoot _ name _ fun sym _ => Symbol.Updates.revises
      ⟨⟨rfl, rfl, rfl, rfl, id, id, Or.inl rfl⟩, id⟩ rfl
  · split
    · exact .pure hR hq trivial
    · exact handles_warn hP hq _

/-- GLOBAL and EXTERN are carried out, and everything else is passed on. -/
theorem handles_declareGlobals (hP : Reports P) (hp : g.Keeps P p) {t : Token}
    (ht : t.role ≠ .sharing → P (.settled t)) : g.Handles P (Declare.declareGlobals w t) p := by
  have hR := g.invariant P
  cases t with
  | declare loc how names =>
    have hnames : ∀ {step : Text → Emission PUnit},
        (∀ name q, g.Keeps P q → g.Handles P (step name) q) →
        g.Handles P (do (← Eval.namesOf w.around names).forM step) p := by
      intro step hstep
      have hspelled := Eval.namesOf_yields (g.evaluates w.around) names p.2
      refine (Emission.Yields.act hR hp hspelled).bind hR fun ns q _ hq _ => ?_
      exact .forM hR (fun name _ r _ hr => hstep name r hr) hq
    cases how with
    | locally => exact handles_emitItem hp (ht nofun)
    | globally weak =>
      refine hnames fun name q hq => ?_
      refine (handles_globalName hP hq loc (fun _ => ?_) (fun _ => ?_) name).bind hR
        fun _ q _ hq _ => .pure hR hq trivial
      · exact ⟨⟨rfl, rfl, rfl, rfl, id, id, Or.inl rfl⟩, id⟩
      · rfl
    | externally attributes =>
      refine hnames fun name q hq => ?_
      refine (handles_globalName hP hq loc (fun _ => ?_) (fun _ => ?_) name).bind hR
        fun isGlobal q _ hq _ => ?_
      · exact ⟨⟨rfl, rfl, rfl, rfl, fun h => h, fun h => h, Or.inl rfl⟩, fun h => h⟩
      · rfl
      · split
        · exact handles_attach hP hq loc _ name
        · exact .pure hR hq trivial
  | cond _ _ _ assembled => exact handles_emitItem hp (ht (by cases assembled <;> nofun))
  | _ => exact handles_emitItem hp (ht nofun)

end Declare

end Grammar

end MacroAsm
