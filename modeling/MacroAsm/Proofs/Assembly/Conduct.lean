import MacroAsm.Proofs.Assembly.Nesting

/-!
# The conduct of statements

`Scope.Acts` lists what a statement does to a scope without a block of its own: where it gives a value to a
symbol, and what it has looked at before. `Scope.Conducts` closes the list under the blocks of statements and under
the merge of arms. It tells apart what `Scope.Unfolds` takes together: EQU and labels only bind what is unset, and
SET and RADIX bind what `may` allows them.

`State.Conducts` adds that the mark of a bank switch stays. Here this is shown of evaluation and of the statements
that declare, bind and remove names.
-/

namespace MacroAsm

theorem Symbol.updates_bind (sym : Symbol) (value : Expr) (loc : Location) :
    sym.Updates { sym with value := some value, loc } :=
  ⟨⟨rfl, rfl, rfl, rfl, id, id, Or.inr rfl⟩, id⟩

theorem Symbol.updates_freeze (sym : Symbol) (value : Expr) (loc : Location) :
    sym.Updates { sym with value := some value, loc, frozen := true } :=
  ⟨⟨rfl, rfl, rfl, rfl, id, fun _ => rfl, Or.inr rfl⟩, id⟩

namespace Scope

/-- What a statement does to a scope without a block of its own. SET and RADIX bind only symbols that `may`
allows. -/
inductive Acts (may : Text → Symbol → Bool) (s : Scope) : Scope → Prop where
  /-- The innermost symbol of a name is marked, and keeps what it is bound to. -/
  | mark (name : Text) (g : Symbol → Symbol) (hg : ∀ sym : Symbol, sym.Updates (g sym))
    (hvalue : ∀ sym, (g sym).value = sym.value) : Acts may s (s.modify name g)
  /-- A symbol of the root frame is marked, and keeps what it is bound to. -/
  | markRoot (name : Text) (g : Symbol → Symbol) (hg : ∀ sym : Symbol, sym.Updates (g sym))
    (hvalue : ∀ sym, (g sym).value = sym.value) : Acts may s { s with root := s.root.modify name g }
  /-- A name that does not exist is declared in the innermost frame. -/
  | declareAhead {s' : Scope} {name : Text} (hnone : s.find? name = none) (h : s.declareLocal name = .ok s') :
    Acts may s s'
  /-- LOCAL. -/
  | declareLocal {s' : Scope} {name : Text} (h : s.declareLocal name = .ok s') (loc : Location) :
    Acts may s (s'.modifyTop fun f => f.modify name fun sym => { sym with declared := true, loc })
  /-- A name is declared in the root frame. -/
  | declareGlobal {s' : Scope} {name : Text} (h : s.declareGlobal name = .ok s') : Acts may s s'
  /-- SET binds the innermost symbol of a name, unless that is bound for good. -/
  | assign (name : Text) (value : Expr) (loc : Location)
    (hopen : ∀ sym, s.find? name = some sym → sym.frozen = true → sym.isSet = false)
    (hmay : ∀ sym, s.find? name = some sym → may name sym) :
    Acts may s (s.modify name fun sym => { sym with value := some value, loc })
  /-- RADIX binds the radix. -/
  | radix (value : Expr) (loc : Location) (hmay : ∀ sym, s.find? radixName = some sym → may radixName sym) :
    Acts may s (s.modify radixName fun sym => { sym with value := some value, loc })
  /-- EQU and labels bind the innermost symbol of a name for good, if it is unset. -/
  | bind (name : Text) (value : Expr) (loc : Location)
    (hunset : ∀ sym, s.find? name = some sym → sym.isSet = false) :
    Acts may s (s.modify name fun sym => { sym with value := some value, loc, frozen := true })
  /-- DEFINE binds a name that does not exist. -/
  | define {s' : Scope} {name : Text} (hnone : s.find? name = none) (h : s.declareGlobal name = .ok s')
    (value : Expr) (loc : Location) :
    Acts may s (s'.modify name fun sym => { sym with value := some value, loc, define := true })
  /-- UNDEF and PMACRO remove a name that was bound by DEFINE or to a macro. -/
  | remove {name : Text} {sym : Symbol} (hfind : s.find? name = some sym)
    (h : sym.define = true ∨ sym.isMacro = true) : Acts may s (s.remove name)
  /-- MACRO binds a name of the innermost frame that holds no frozen value. -/
  | defineMacro {s' : Scope} {name : Text} (h : s.declareLocal name = .ok s')
    (hopen : ∀ sym, s'.top.find? name = some sym → sym.frozen = true → sym.value = none) (m : Macro)
    (loc : Location) :
    Acts may s (s'.modifyTop fun f => f.modify name fun sym =>
      { sym with value := none, template := some m, loc })

/-- What the handling of statements does to a scope. SET and RADIX bind only symbols that `may` allows. -/
inductive Conducts (may : Text → Symbol → Bool) : Scope → Scope → Prop where
  /-- Nothing happens. -/
  | refl (s : Scope) : Conducts may s s
  /-- One thing happens after another. -/
  | trans {s t v : Scope} (hst : Conducts may s t) (htv : Conducts may t v) : Conducts may s v
  /-- A statement does something. -/
  | act {s s' : Scope} (h : s.Acts may s') : Conducts may s s'
  /-- A block is assembled over a frame of its own. -/
  | block {s t v v' : Scope} (hopens : s.Opens t) (hrun : Conducts may t v) (hends : v.Hoists v') :
    Conducts may s v'.unnest
  /-- Arms are assembled over copies of the scope, and what they did is merged. -/
  | fork (s : Scope) (forks : List (Expr × Conditional.Fork)) (ran ended : Conditional.Fork → Scope)
    (hforks : ∀ arm ∈ forks, Conducts may s.nest (ran arm.2))
    (hends : ∀ arm ∈ forks, (ran arm.2).Hoists (ended arm.2))
    (hended : ∀ arm ∈ forks, arm.2.scope = (ended arm.2).unnest) (last : Option (Scope × Scope))
    (hlast : ∀ t ∈ last, Conducts may s.nest t.1) (hlastEnds : ∀ t ∈ last, t.1.Hoists t.2) :
    Conducts may s (Conditional.mergeForks (((last.map Prod.snd).map Scope.unnest).getD s) forks s).1

variable {may : Text → Symbol → Bool} {s s' : Scope}

/-- What a statement does is a step of what scopes unfold to. -/
theorem Acts.unfolds (h : s.Acts may s') : Unfolds (fun _ => True) (fun _ => True) s s' := by
  cases h with
  | mark name g hg hvalue => exact .modify s name g fun sym _ => (hg sym).revises (hvalue sym)
  | markRoot name g hg hvalue => exact .modifyRoot s name g fun sym _ => (hg sym).revises (hvalue sym)
  | declareAhead hnone h => exact .declareAhead hnone h
  | declareLocal h loc => exact .declareLocal h loc
  | declareGlobal h => exact .declareGlobal h
  | assign name value loc hopen =>
    refine .modify s name _ fun sym hsym => ⟨sym.updates_bind value loc, fun _ hfrozen hset => ?_⟩
    have hunset := hopen sym hsym hfrozen
    rw [Symbol.isSet, hset] at hunset
    cases hunset
  | radix value loc =>
    exact .modify s radixName _ fun sym _ => ⟨sym.updates_bind value loc, fun hname => absurd rfl hname⟩
  | bind name value loc hunset =>
    refine .modify s name _ fun sym hsym => ⟨sym.updates_freeze value loc, fun _ _ hset => ?_⟩
    have hunset := hunset sym hsym
    rw [Symbol.isSet, hset] at hunset
    cases hunset
  | define hnone h value loc => exact .define hnone h value loc
  | remove hfind h => exact .remove hfind h trivial
  | defineMacro h hopen m loc => exact .defineMacro h hopen trivial loc

/-- The conduct of statements unfolds a scope. -/
theorem Conducts.unfolds (h : Conducts may s s') : Unfolds (fun _ => True) (fun _ => True) s s' := by
  induction h with
  | refl s => exact .refl s
  | trans _ _ ihst ihtv => exact .trans ihst ihtv
  | act h => exact h.unfolds
  | block hopens _ hends ih => exact .block hopens ih hends
  | fork s forks ran ended _ hends hended last _ hlastEnds ihforks ihlast =>
    exact .fork s forks ran ended ihforks hends hended last ihlast hlastEnds

theorem Conducts.wellFormed (h : Conducts may s s') (hs : s.WellFormed) : s'.WellFormed :=
  (h.unfolds.evolves.preserved hs).wellFormed

end Scope

/-- What the handling of statements does to the state: what it does to a well formed scope is told by
`Scope.Conducts`, and the mark of a bank switch stays. -/
structure State.Conducts (may : Text → Symbol → Bool) (s s' : State) : Prop where
  /-- What is done to the scope. -/
  scope : s.scope.WellFormed → Scope.Conducts may s.scope s'.scope
  /-- The mark stays. -/
  bankSwitched : s'.bankSwitched = s.bankSwitched

namespace State.Conducts

variable {s s' : State}

theorem of_scope_eq (h : s'.scope = s.scope) (hmark : s'.bankSwitched = s.bankSwitched) : State.Conducts may s s' :=
  ⟨fun _ => by rw [h]; exact .refl s.scope, hmark⟩

theorem act {scope : Scope} (h : s.scope.Acts may scope) : State.Conducts may s { s with scope } :=
  ⟨fun _ => .act h, rfl⟩

/-- The conduct of statements is a preorder. -/
theorem progress : Progress (State.Conducts may) where
  refl _ := .of_scope_eq rfl rfl
  trans _ _ _ hxy hyz :=
    ⟨fun hx => (hxy.scope hx).trans (hyz.scope ((hxy.scope hx).wellFormed hx)),
      hyz.bankSwitched.trans hxy.bankSwitched⟩

theorem invariant : Emission.Invariant (State.Conducts may) fun _ => True where
  toProgress := progress
  stable _ _ _ _ _ := trivial

/-- Evaluation marks names as used, and declares those that are not known yet. -/
theorem tracks : Eval.Tracks (State.Conducts may) fun _ _ => True where
  toProgress := progress
  known _ _ _ _ h := h
  deferred _ := .of_scope_eq rfl rfl
  request loc name s := by
    refine ⟨?_, trivial⟩
    rw [Eval.request, Act.exec_bind_of_ok (Act.exec_scope s)]
    cases hfind : s.scope.find? name with
    | some sym =>
      exact act (.mark name _ (fun _ => ⟨⟨rfl, rfl, rfl, rfl, fun _ => rfl, id, Or.inl rfl⟩, id⟩) fun _ => rfl)
    | none =>
      have hdeclare := Scope.declareLocal_of_find?_eq_none hfind
      simp only [hdeclare]
      refine ⟨fun _ => .trans (.act (.declareAhead hfind hdeclare)) (.act (.mark name _ (fun _ => ?_) fun _ => rfl)),
        rfl⟩
      exact ⟨⟨rfl, rfl, rfl, rfl, fun _ => rfl, fun _ => rfl, Or.inl rfl⟩, id⟩

theorem evaluates (u : Surroundings) : Eval.Evaluates u (State.Conducts may) fun _ _ => True :=
  tracks.evaluates fun _ _ _ _ _ _ => trivial

end State.Conducts

/-- The handling of a statement conducts itself as told, wherever it begins. -/
def Emission.Conducts {α : Type} (may : Text → Symbol → Bool) (e : Emission α) : Prop :=
  ∀ p, Emission.Yields (State.Conducts may) (fun _ => True) (fun _ _ => True) e p

namespace Emission.Conducts

open State.Conducts (invariant)

variable {α β : Type}

theorem pure (a : α) : Conducts may (Pure.pure a) := fun _ => .pure invariant trivial trivial

theorem raise (c : Cause) : Conducts may (Emission.raise c : Emission α) := fun _ => .raise invariant trivial c

theorem report (d : Diagnostic) : Conducts may (Emission.report d : Emission α) := fun _ => .report invariant trivial d

theorem require (x : Except Cause α) : Conducts may (Emission.require x) :=
  fun _ => .require invariant trivial fun _ _ => trivial

theorem bind {e : Emission α} {k : α → Emission β} (he : Conducts may e) (hk : ∀ a, Conducts may (k a)) :
    Conducts may (e >>= k) :=
  fun p => (he p).bind invariant fun a q _ _ _ => hk a q

theorem act {x : Act α} (hx : ∀ s, x.Yields (State.Conducts may) (fun _ _ => True) s) :
    Conducts may (liftM x : Emission α) :=
  fun p => .act invariant trivial (hx p.2)

theorem emitItems (items : List Item) : Conducts may (Emission.emitItems items) :=
  fun p => .emit invariant (exec_emitItems items p) trivial

theorem emitItem (item : Item) : Conducts may (Emission.emitItem item) :=
  fun p => .emit invariant (exec_emitItem item p) trivial

theorem isClosed : Conducts may Emission.isClosed :=
  fun p => ⟨State.Conducts.progress.refl p.2, trivial, fun _ _ => trivial⟩

theorem forM {xs : List β} {step : β → Emission PUnit} (hstep : ∀ x, Conducts may (step x)) :
    Conducts may (xs.forM step) :=
  fun _ => .forM invariant (fun x _ q _ _ => hstep x q) trivial

/-- A handling that begins by reading the scope. -/
theorem scope {k : Scope → Emission α}
    (hk : ∀ p, Emission.Yields (State.Conducts may) (fun _ => True) (fun _ _ => True) (k p.2.scope) p) :
    Conducts may (do k (← (liftM Act.scope : Emission Scope))) := by
  intro p
  have heq := exec_bind_of_ok (k := k) (exec_scope p)
  exact ⟨by rw [heq]; exact (hk p).rel, trivial, fun _ _ => trivial⟩

theorem nameOf (u : Surroundings) (e : Expr) : Conducts may (liftM (Eval.nameOf u e) : Emission Text) :=
  act fun s => Eval.nameOf_yields (State.Conducts.evaluates u) e s

theorem namesOf (u : Surroundings) (es : List Expr) :
    Conducts may (liftM (Eval.namesOf u es) : Emission (List Text)) :=
  act fun s => Eval.namesOf_yields (State.Conducts.evaluates u) es s

end Emission.Conducts

section Bind

open State.Conducts (invariant progress)

variable {w : Workbench}

namespace Emission

theorem yields_setScope {p : Output × State} {scope : Scope} (h : p.2.scope.Acts may scope) :
    Yields (State.Conducts may) (fun _ => True) (fun _ _ => True) (liftM (Act.setScope scope) : Emission PUnit) p :=
  .act invariant trivial ⟨.act h, fun _ _ => trivial⟩

end Emission

namespace Bind

/-- SET, where it must bind only symbols that `may` allows: any other one ends the program. -/
def assignWithin (may : Text → Symbol → Bool) (w : Workbench) (loc : Location) (name value : Expr) : Act PUnit := do
  let name ← Eval.nameOf w.around name
  let sym ← symbolOr name fun s => s.declareLocal name
  if sym.frozen && sym.isSet then Act.report (.fail loc ("Cannot set frozen value " ++ name))
  else if may name sym then Act.modifyScope fun s => s.modify name fun sym => { sym with value := some value, loc }
  else Act.report (.fatal loc ("SET must not bind " ++ name))

/-- Binds the radix, if `may` allows that. -/
def bindRadix (may : Text → Symbol → Bool) (loc : Location) (radix : Int64) : Act PUnit := do
  let scope ← Act.scope
  let bound ← Act.lift (scope.setRadix radix loc)
  if (scope.find? Scope.radixName).all (may Scope.radixName) then Act.setScope bound
  else Act.report (.fatal loc "RADIX must not bind the radix")

/-- RADIX, where it must bind only symbols that `may` allows. -/
def setRadixWithin (may : Text → Symbol → Bool) (loc : Location) (value : Expr) : Act PUnit :=
  match value with
  | .number _ radix _ => bindRadix may loc radix
  | .numeral _ _ => bindRadix may loc 0
  | e => Act.report (.fail loc ("RADIX expects a constant number, found " ++ e.describe))

theorem assign_eq (w : Workbench) (loc : Location) (name value : Expr) :
    assign w loc name value = assignWithin (fun _ _ => true) w loc name value := by
  simp only [assign, assignWithin, if_true]

/-- RADIX binds whatever is allowed if everything is. -/
theorem setRadix_eq (loc : Location) (value : Expr) :
    setRadix loc value = setRadixWithin (fun _ _ => true) loc value := by
  have hbind : ∀ radix : Int64, bindRadix (fun _ _ => true) loc radix =
      (do Act.setScope (← Act.lift ((← Act.scope).setRadix radix loc))) := by
    intro radix
    rw [bindRadix]
    refine congrArg (_ >>= ·) (funext fun scope => congrArg (_ >>= ·) (funext fun bound => if_pos ?_))
    cases scope.find? Scope.radixName <;> rfl
  rw [setRadix.eq_def, setRadixWithin.eq_def]
  cases value <;> simp only [hbind]

/-- LOCAL declares names. -/
theorem conducts_declareLocals (loc : Location) (names : List Expr) : (declareLocals w loc names).Conducts may := by
  refine (Emission.Conducts.namesOf w.around names).bind fun ns => .forM fun name => ?_
  rw [declareLocal]
  refine .scope fun p => ?_
  cases hdeclare : p.2.scope.declareLocal name with
  | error c => exact Emission.Conducts.emitItem _ p
  | ok scope => exact Emission.yields_setScope (.declareLocal hdeclare loc)

/-- The symbol of a name is looked up, and declared if the name does not exist. -/
theorem symbolOr_conducts (name : Text) {declare : Scope → Except Cause Scope}
    (hdeclare : ∀ s s' : Scope, s.find? name = none → declare s = .ok s' → s.Acts may s') (s : State) :
    Act.Yields (State.Conducts may) (fun sym s' => ∀ found, s'.scope.find? name = some found → found = sym)
      (symbolOr name declare) s := by
  rw [symbolOr, Act.Yields, Act.exec_bind_of_ok (Act.exec_scope s)]
  cases hfind : s.scope.find? name with
  | some sym =>
    refine ⟨progress.refl s, fun found hfound sym' hsym' => ?_⟩
    cases hfound
    exact (Option.some.inj (hfind.symm.trans hsym')).symm
  | none =>
    dsimp only
    cases hscope : declare s.scope with
    | error c => exact ⟨progress.refl s, fun _ h => by cases h⟩
    | ok scope =>
      refine ⟨.act (hdeclare _ _ hfind hscope), fun found hfound sym' hsym' => ?_⟩
      cases hfound
      exact (congrArg (Option.getD · {}) hsym').symm

/-- SET, which must bind only symbols that `may` allows. -/
theorem assignWithin_conducts (loc : Location) (name value : Expr) (s : State) :
    Act.Yields (State.Conducts may) (fun _ _ => True) (assignWithin may w loc name value) s := by
  refine (Eval.nameOf_yields (State.Conducts.evaluates w.around) name s).bind progress.trans fun name s1 _ _ => ?_
  refine (symbolOr_conducts name (fun _ _ hnone h => .declareAhead hnone h) s1).bind progress.trans
    fun sym s2 _ hsym => ?_
  split
  · exact .report (progress.refl s2) _
  · rename_i hopen
    split
    · rename_i hmay
      refine ⟨.act (.assign name value loc (fun found hfound hfrozen => ?_) fun found hfound => ?_), fun _ _ => trivial⟩
      · rw [hsym found hfound] at hfrozen ⊢
        simpa [hfrozen] using hopen
      · rwa [hsym found hfound]
    · exact .report (progress.refl s2) _

/-- EQU. -/
theorem equate_conducts (loc : Location) (name value : Expr) (s : State) :
    Act.Yields (State.Conducts may) (fun _ _ => True) (equate w loc name value) s := by
  refine (Eval.nameOf_yields (State.Conducts.evaluates w.around) name s).bind progress.trans fun name s1 _ _ => ?_
  refine (symbolOr_conducts name (fun _ _ _ h => .declareGlobal h) s1).bind progress.trans fun sym s2 _ hsym => ?_
  split
  · exact .report (progress.refl s2) _
  · rename_i hunset
    refine ⟨.act (.bind name value loc fun found hfound => ?_), fun _ _ => trivial⟩
    rw [hsym found hfound]
    exact Bool.eq_false_of_not_eq_true hunset

/-- DEFINE. -/
theorem define_conducts (loc : Location) (name value : Expr) (s : State) :
    Act.Yields (State.Conducts may) (fun _ _ => True) (define w loc name value) s := by
  refine (Eval.nameOf_yields (State.Conducts.evaluates w.around) name s).bind progress.trans
    fun name s1 _ _ => ⟨?_, fun _ _ => trivial⟩
  rw [Act.exec_bind_of_ok (Act.exec_scope s1)]
  cases hfind : s1.scope.find? name with
  | some sym => exact progress.refl s1
  | none =>
    rw [Option.isSome_none, if_neg Bool.false_ne_true]
    cases hdeclare : s1.scope.declareGlobal name with
    | error c => exact progress.refl s1
    | ok scope => exact .act (.define hfind hdeclare value loc)

/-- A label. -/
theorem conducts_label (loc : Location) (name : Expr) : (label w loc name).Conducts may := by
  refine (Emission.Conducts.nameOf w.around name).bind fun name p => ?_
  refine (Emission.Yields.act invariant trivial (symbolOr_conducts name
    (fun _ _ hnone h => .declareAhead hnone h) p.2)).bind invariant fun sym q _ _ hsym => ?_
  split
  · exact .report invariant trivial _
  · rename_i hunset
    -- the identity of the label is handed out before its name is bound
    have hfresh : Act.Yields (State.Conducts may) (fun _ s' => s'.scope = q.2.scope) Act.fresh q.2 :=
      ⟨.of_scope_eq rfl rfl, fun _ _ => rfl⟩
    refine (Emission.Yields.act invariant trivial hfresh).bind invariant fun id q' _ _ hscope => ?_
    refine Emission.Yields.bind (Q := fun _ _ => True) invariant (.act invariant trivial ?_)
      fun _ q'' _ _ _ => Emission.Conducts.emitItem _ q''
    refine ⟨.act (.bind name _ loc fun found hfound => ?_), fun _ _ => trivial⟩
    rw [hsym found (hscope ▸ hfound)]
    exact Bool.eq_false_of_not_eq_true hunset

/-- UNDEF and PMACRO remove names. -/
theorem conducts_retract (loc : Location) (what : Retraction) (names : List Expr) :
    (retract w loc what names).Conducts may := by
  refine (Emission.Conducts.namesOf w.around names).bind fun ns => .forM fun name => ?_
  rw [retractName]
  refine .scope fun p => ?_
  split
  · rename_i hremovable
    cases hfind : p.2.scope.find? name with
    | none =>
      rw [hfind] at hremovable
      cases hremovable
    | some sym =>
      rw [hfind] at hremovable
      refine Emission.yields_setScope (.remove hfind ?_)
      cases what with
      | defines => exact Or.inl hremovable
      | macros => exact Or.inr hremovable
  · exact Emission.Conducts.emitItem _ p

/-- MACRO. -/
theorem conducts_defineMacro (loc : Location) (name : Expr) (parameters : List Expr) (body : List Token) :
    (defineMacro w loc name parameters body).Conducts may := by
  refine (Emission.Conducts.nameOf w.around name).bind fun name => ?_
  refine (Emission.Conducts.namesOf w.around parameters).bind fun ps => .scope fun p => ?_
  cases hdeclare : p.2.scope.declareLocal name with
  | error c => exact ⟨progress.refl p.2, trivial, fun _ h => by cases h⟩
  | ok scope =>
    have hlift : (liftM (Act.lift (.ok scope)) : Emission Scope).exec p = (.ok scope, p) := rfl
    have hset : (liftM (Act.setScope scope) : Emission PUnit).exec p =
      (.ok ⟨⟩, (p.1, { p.2 with scope })) := rfl
    refine ⟨?_, trivial, fun _ _ => trivial⟩
    rw [Emission.exec_bind_of_ok hlift, Emission.exec_bind_of_ok hset]
    dsimp only
    split
    · rename_i hfrozen
      -- the name was there before, as what is declared just now is not frozen
      have hsame : scope = p.2.scope :=
        Grammar.declareLocal_eq_self hdeclare (Bool.and_eq_true_iff.1 hfrozen).1
      exact .of_scope_eq hsame rfl
    · rename_i hopen
      have hunset : ∀ sym, scope.top.find? name = some sym → sym.frozen = true → sym.value = none := by
        intro sym hsym hfrozen
        simpa [hsym, hfrozen] using hopen
      exact ⟨fun _ => .act (.defineMacro hdeclare hunset ⟨p.2.supply, loc, ps, body⟩ loc), rfl⟩

/-- RADIX, which must bind only symbols that `may` allows. -/
theorem setRadixWithin_conducts (loc : Location) (value : Expr) (s : State) :
    Act.Yields (State.Conducts may) (fun _ _ => True) (setRadixWithin may loc value) s := by
  have hbind : ∀ radix : Int64, Act.Yields (State.Conducts may) (fun _ _ => True) (bindRadix may loc radix) s := by
    intro radix
    refine ⟨?_, fun _ _ => trivial⟩
    rw [bindRadix, Act.exec_bind_of_ok (Act.exec_scope s), Scope.setRadix]
    split
    · exact progress.refl s
    · split
      · rename_i hmay
        exact .act (.radix _ loc fun sym hsym => by simpa [hsym] using hmay)
      · exact progress.refl s
  rw [setRadixWithin.eq_def]
  split
  · exact hbind _
  · exact hbind _
  · exact .report (progress.refl s) _

end Bind

namespace Declare

/-- GLOBAL and EXTERN make a name global, and mark its symbol. -/
theorem conducts_globalName (loc : Location) {change : Symbol → Symbol}
    (hchange : ∀ sym : Symbol, sym.Updates { change sym with loc := (change sym).loc.orElse loc })
    (hvalue : ∀ sym, (change sym).value = sym.value) (name : Text) : (globalName loc change name).Conducts may := by
  rw [globalName]
  refine .scope fun p => ?_
  cases hdeclare : p.2.scope.declareGlobal name with
  | error c => exact ((Emission.Conducts.emitItem _).bind fun _ => .pure false) p
  | ok scope =>
    have hset : Emission.Yields (State.Conducts may) (fun _ => True) (fun _ _ => True)
        (liftM (Act.setScope { scope with
          root := scope.root.modify name fun s => { change s with loc := (change s).loc.orElse loc } }) :
          Emission PUnit) p := by
      refine .act invariant trivial ⟨⟨fun _ => ?_, rfl⟩, fun _ _ => trivial⟩
      exact .trans (.act (.declareGlobal hdeclare)) (.act (.markRoot name _ hchange hvalue))
    exact hset.bind invariant fun _ q _ _ _ => Emission.Conducts.pure true q

/-- EXTERN records attributes. -/
theorem conducts_attach (loc : Location) (attributes : Attributes) (name : Text) :
    (attach loc attributes name).Conducts may := by
  rw [attach]
  refine .scope fun p => ?_
  dsimp only
  have hset : Emission.Yields (State.Conducts may) (fun _ => True) (fun _ _ => True)
      (liftM (Act.setScope { p.2.scope with
        root := p.2.scope.root.modify name fun s => { s with
          attributes := some (Attributes.merge (((p.2.scope.root.find? name).bind Symbol.attributes).getD [])
            attributes).1 } }) : Emission PUnit) p :=
    Emission.yields_setScope (.markRoot name _ (fun _ => ⟨⟨rfl, rfl, rfl, rfl, id, id, Or.inl rfl⟩, id⟩)
      fun _ => rfl)
  refine hset.bind invariant fun _ q _ _ _ => ?_
  split
  · exact Emission.Conducts.pure _ q
  · exact Emission.Conducts.emitItem _ q

/-- GLOBAL and EXTERN. -/
theorem conducts_declareGlobals (t : Token) : (declareGlobals w t).Conducts may := by
  cases t with
  | declare loc how names =>
    cases how with
    | locally => exact .emitItem _
    | globally weak =>
      refine (Emission.Conducts.namesOf w.around names).bind fun ns => .forM fun name => ?_
      refine (conducts_globalName loc (fun _ => ?_) (fun _ => ?_) name).bind fun _ => .pure _
      · exact ⟨⟨rfl, rfl, rfl, rfl, id, id, Or.inl rfl⟩, id⟩
      · rfl
    | externally attributes =>
      refine (Emission.Conducts.namesOf w.around names).bind fun ns => .forM fun name => ?_
      refine (conducts_globalName loc (fun _ => ?_) (fun _ => ?_) name).bind fun isGlobal => ?_
      · exact ⟨⟨rfl, rfl, rfl, rfl, fun h => h, fun h => h, Or.inl rfl⟩, fun h => h⟩
      · rfl
      · split
        · exact conducts_attach loc _ name
        · exact .pure _
  | _ => exact .emitItem _

end Declare

end Bind

end MacroAsm
