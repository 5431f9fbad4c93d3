import MacroAsm.Proofs.Assembly.Entry

/-!
# The order of definitions

A program of definitions and data may be reordered as long as the data stays in order. The main result,
`Assembler.assemble_reordered`, says that its output is the same if no failure is reported either way, apart from
diagnostics, locations and the names that values were resolved through.

A run sees its definitions one after the other, and what it stores depends on what it has seen. What does not
depend on the order are the equations that the definitions are. A solution of these (`Entry.IsSolution`) exists
if a run reports no failure (`Entry.EntersAll.exists_isSolution`), and it determines the output of every run
(`Entry.EntersAll.writes`).
-/

namespace MacroAsm

namespace Entry

open Eval (Leaves Solves Following outcome Agrees)

variable {u : Surroundings} {radix : Nat} {g : Following} {root b b' : Text → Binding}

/-- An expression spells a name by a way to follow names. -/
def Spells (u : Surroundings) (radix : Nat) (g : Following) (n : Expr) (name : Text) : Prop :=
  ∃ a, outcome u radix g n.strip false = some a ∧ a.name? = some name

/-- An expression spells one name at most. -/
theorem Spells.unique {n : Expr} {name other : Text} (h : Spells u radix g n name)
    (h' : Spells u radix g n other) : name = other := by
  obtain ⟨a, ha, hname⟩ := h
  obtain ⟨a', ha', hother⟩ := h'
  rw [ha] at ha'
  cases ha'
  exact Option.some.inj (hname.symm.trans hother)

/-- A name leads to what an expression does. -/
def Equals (u : Surroundings) (radix : Nat) (g : Following) (name : Text) (e : Expr) : Prop :=
  ∀ loc, Agrees True Expr.erase (g loc name) (outcome u radix g e.strip true)

/-- A way to follow names that solves the definitions of a program over what names stand for before. -/
structure IsSolution (u : Surroundings) (radix : Nat) (root : Text → Binding) (source : List Token)
    (g : Following) : Prop where
  /-- Names that are bound before lead to what they are bound to. -/
  bound : Solves u radix g root
  /-- The name of each definition leads to what its value does. -/
  equate : ∀ loc n e, .assign loc .equate n e ∈ source →
    ∃ name, Spells u radix g n name ∧ Equals u radix g name e
  /-- All other names stay what they are. -/
  rest : ∀ name, (root name).isSet = false →
    (∀ loc n e, .assign loc .equate n e ∈ source → ¬ Spells u radix g n name) →
    ∀ loc, g loc name = some (.identifier loc name)

/-- Definitions have the same solutions in any order. -/
theorem IsSolution.perm {source source' : List Token} (h : IsSolution u radix root source g)
    (hperm : source.Perm source') : IsSolution u radix root source' g where
  bound := h.bound
  equate loc n e hmem := h.equate loc n e (hperm.mem_iff.2 hmem)
  rest name hname hnone := h.rest name hname fun loc n e hmem => hnone loc n e (hperm.mem_iff.1 hmem)

section Step

variable (hargs : u.args = [])
include hargs

/-- An expression of which a name is left spells that name. -/
theorem Spells.of_leaves (hg : Solves u radix g b) {n n' : Expr} {l : Location} {name : Text}
    (hbuilt : Leaves u radix b n false n') (hname : Leaves u radix b n' false (.identifier l name)) :
    Spells u radix g n name := by
  obtain ⟨hbuilt, hstripped⟩ := Solves.leaves hargs hg hbuilt
  obtain ⟨hname, -⟩ := Solves.leaves hargs hg hname
  rw [hstripped] at hname
  -- the name that is left spells itself
  have hself : outcome u radix g (.identifier l name) false = some (.identifier l name) :=
    Eval.outcome_of_name? rfl g
  rw [hself] at hname
  obtain ⟨a, ha, herase⟩ := (hbuilt.trans hname).back trivial _ rfl
  exact ⟨a, ha, Eval.name?_congr herase⟩

/-- A definition that is entered spells the name that it binds, and binds it to an expression that leads to what
the value does. -/
theorem Enters.spells (hg : Solves u radix g b) {loc : Location} {n e : Expr} {items : List Item}
    (h : Enters u radix b (.assign loc .equate n e) items b') :
    ∃ name v, b' = Function.update b name ⟨some v, false⟩ ∧ Spells u radix g n name ∧ v.IsStripped ∧
      Agrees True Expr.erase (outcome u radix g e.strip true) (outcome u radix g v true) := by
  cases h with
  | @equate _ _ _ _ _ v name hbuilt hname hvalue _ =>
    obtain ⟨hvalue, hv⟩ := Solves.leaves hargs hg hvalue
    exact ⟨name, v, rfl, .of_leaves hargs hg hbuilt hname, hv, hvalue⟩

/-- A solution goes on solving what is bound while definitions that it solves are entered, and their names are
bound then. -/
theorem EntersAll.solves {source : List Token} {items : List Item} (hg : Solves u radix g b)
    (hequate : ∀ loc n e, .assign loc .equate n e ∈ source →
      ∃ name, Spells u radix g n name ∧ Equals u radix g name e)
    (h : EntersAll u radix b source items b') :
    Solves u radix g b' ∧ ∀ loc n e name, .assign loc .equate n e ∈ source → Spells u radix g n name →
      (b' name).isSet = true := by
  induction h with
  | nil => exact ⟨hg, fun _ _ _ _ hmem => absurd hmem List.not_mem_nil⟩
  | @cons b b1 b2 t rest items items' hfirst hrest ih =>
    have hrest' := fun loc n e hmem => hequate loc n e (List.mem_cons_of_mem t hmem)
    rcases hfirst.equate_or_data with ⟨loc, n, e, rfl⟩ | ⟨loc, kind, es, rfl⟩
    · obtain ⟨name, v, rfl, hspells, hv, hvalue⟩ := Enters.spells hargs hg hfirst
      obtain ⟨name', hspells', hequals⟩ := hequate loc n e List.mem_cons_self
      obtain rfl := hspells.unique hspells'
      obtain ⟨hsolves, hset⟩ := ih (hg.update hv hequals hvalue) hrest'
      refine ⟨hsolves, fun loc' n' e' name' hmem hname' => ?_⟩
      rcases List.mem_cons.1 hmem with heq | hmem
      · cases heq
        obtain rfl := hspells.unique hname'
        have hbound : (Function.update b name ⟨some v, false⟩ name).isSet = true := by
          rw [Function.update_self]
          rfl
        rw [hrest.eq_of_isSet hbound]
        exact hbound
      · exact hset loc' n' e' name' hmem hname'
    · cases hfirst
      obtain ⟨hsolves, hset⟩ := ih hg hrest'
      refine ⟨hsolves, fun loc' n' e' name' hmem => ?_⟩
      rcases List.mem_cons.1 hmem with heq | hmem
      · cases heq
      · exact hset loc' n' e' name' hmem

/-- A solution of what is bound in the end solves every definition that was entered, and what is bound in the end
was bound before or is the name of a definition. -/
theorem EntersAll.equals {source : List Token} {items : List Item} (hg : Solves u radix g b')
    (h : EntersAll u radix b source items b') :
    (∀ loc n e, .assign loc .equate n e ∈ source →
      ∃ name, Spells u radix g n name ∧ Equals u radix g name e) ∧
    ∀ name, (b' name).isSet = true → (b name).isSet = true ∨
      ∃ loc n e, .assign loc .equate n e ∈ source ∧ Spells u radix g n name := by
  induction h with
  | nil => exact ⟨fun _ _ _ hmem => absurd hmem List.not_mem_nil, fun name hname => Or.inl hname⟩
  | @cons b b1 b2 t rest items items' hfirst hrest ih =>
    obtain ⟨hequals, hset⟩ := ih hg
    have hstart : Solves u radix g b := by
      refine hg.of_extends fun name hname => ?_
      have hkept := hfirst.eq_of_isSet hname
      rw [hrest.eq_of_isSet (by rw [hkept]; exact hname), hkept]
    rcases hfirst.equate_or_data with ⟨loc, n, e, rfl⟩ | ⟨loc, kind, es, rfl⟩
    · obtain ⟨name, v, rfl, hspells, hv, hvalue⟩ := Enters.spells hargs hstart hfirst
      have hbound : Function.update b name ⟨some v, false⟩ name = ⟨some v, false⟩ := Function.update_self ..
      have hkept : b2 name = ⟨some v, false⟩ := by
        rw [hrest.eq_of_isSet (by rw [hbound]; rfl), hbound]
      refine ⟨fun loc' n' e' hmem => ?_, fun other hother => ?_⟩
      · rcases List.mem_cons.1 hmem with heq | hmem
        · cases heq
          refine ⟨name, hspells, fun l => ?_⟩
          -- the name leads to what is stored, which leads to what the value does
          have hname := hg name (by rw [hkept]; rfl) l
          rw [Eval.lookup, Eval.stripped, hkept, Binding.strip, Option.map_some, hv] at hname
          exact hname.trans ((Eval.map_tag_agrees name _).trans hvalue.symm)
        · exact hequals loc' n' e' hmem
      · rcases hset other hother with hset | ⟨loc', n', e', hmem, hother⟩
        · by_cases heq : other = name
          · subst heq
            exact Or.inr ⟨loc, n, e, List.mem_cons_self, hspells⟩
          · rw [Function.update_of_ne heq] at hset
            exact Or.inl hset
        · exact Or.inr ⟨loc', n', e', List.mem_cons_of_mem _ hmem, hother⟩
    · cases hfirst
      refine ⟨fun loc' n' e' hmem => ?_, fun other hother => ?_⟩
      · rcases List.mem_cons.1 hmem with heq | hmem
        · cases heq
        · exact hequals loc' n' e' hmem
      · refine (hset other hother).imp_right ?_
        rintro ⟨loc', n', e', hmem, hother⟩
        exact ⟨loc', n', e', List.mem_cons_of_mem _ hmem, hother⟩

/-- Definitions that can be entered have a solution. -/
theorem EntersAll.exists_isSolution {source : List Token} {items : List Item} {dom : Finset Text}
    (hdom : ∀ name, (b name).value.isSome → name ∈ dom) (h : EntersAll u radix root source items b) :
    ∃ g, IsSolution u radix root source g := by
  obtain ⟨g, hg, hrest⟩ := Eval.exists_solves u radix hdom
  obtain ⟨hequals, hset⟩ := EntersAll.equals hargs hg h
  refine ⟨g, hg.of_extends fun name hname => h.eq_of_isSet hname, hequals, fun name hname hnone => ?_⟩
  refine hrest name ?_
  by_contra hbound
  rcases hset name (by simpa using hbound) with hroot | ⟨loc, n, e, hmem, hspells⟩
  · rw [hname] at hroot
    cases hroot
  · exact hnone loc n e hmem hspells

end Step

/-- By a way to follow names, an expression leads to something that looks like `r`. -/
def Means (u : Surroundings) (radix : Nat) (g : Following) (e r : Expr) : Prop :=
  ∃ a, outcome u radix g e.strip true = some a ∧ r.erase = a.erase

/-- What an expression leads to looks alike. -/
theorem map_erase_of_means {es rs rs' : List Expr} (h : List.Forall₂ (Means u radix g) es rs)
    (h' : List.Forall₂ (Means u radix g) es rs') : rs.map Expr.erase = rs'.map Expr.erase := by
  induction h generalizing rs' with
  | nil =>
    cases h'
    rfl
  | cons hfirst _ ih =>
    cases h' with
    | cons hfirst' hrest' =>
      obtain ⟨a, ha, hr⟩ := hfirst
      obtain ⟨a', ha', hr'⟩ := hfirst'
      rw [ha] at ha'
      cases ha'
      rw [List.map_cons, List.map_cons, ih hrest', hr, hr']

/-- What is left of data: what the elements lead to, or expressions that lead to the same if it is marked. -/
inductive Carries (u : Surroundings) (radix : Nat) (g : Following) : Token → Item → Prop where
  /-- It is marked. -/
  | pending {loc : Location} {kind : DataKind} {es vs : List Expr}
    (h : List.Forall₂ (fun e v => Agrees True Expr.erase (outcome u radix g e.strip true)
      (outcome u radix g v true) ∧ v.IsStripped) es vs) :
    Carries u radix g (.data loc kind es) ⟨.data loc kind vs, true⟩
  /-- It is not. -/
  | settled {loc : Location} {kind : DataKind} {es vs : List Expr}
    (h : List.Forall₂ (Means u radix g) es vs) :
    Carries u radix g (.data loc kind es) ⟨.data loc kind vs, false⟩

/-- Data is encoded from what its elements lead to. -/
def Writes (u : Surroundings) (radix : Nat) (g : Following) (t : Token) (ts : List Token) : Prop :=
  ∃ loc kind es rs, t = .data loc kind es ∧ List.Forall₂ (Means u radix g) es rs ∧
    Encode.data kind rs = .ok ts

/-- What is left of data that was entered carries what it leads to. -/
theorem EntersAll.carries (hargs : u.args = []) {source : List Token} {items : List Item} {dom : Finset Text}
    (hdom : ∀ name, (b' name).value.isSome → name ∈ dom) (hg : Solves u radix g b')
    (h : EntersAll u radix b source items b') :
    List.Forall₂ (Carries u radix g) (source.filter Token.isData) items := by
  induction h with
  | nil => exact .nil
  | @cons b b1 b2 t rest items items' hfirst hrest ih =>
    have hextends : ∀ name, (b name).isSet = true → b2 name = b name := by
      intro name hname
      have hkept := hfirst.eq_of_isSet hname
      rw [hrest.eq_of_isSet (by rw [hkept]; exact hname), hkept]
    cases hfirst with
    | equate => exact ih hdom hg
    | @data loc kind es vs pending hvalues hresolved =>
      have hstart : Solves u radix g b := hg.of_extends hextends
      have hdom' : ∀ name, (b name).value.isSome → name ∈ dom := by
        intro name hname
        refine hdom name ?_
        rwa [hextends name (by rw [Binding.isSet, hname]; rfl)]
      refine .cons ?_ (ih hdom hg)
      cases pending with
      | true => exact .pending (hvalues.imp fun e v hv => Solves.leaves hargs hstart hv)
      | false =>
        -- what waits for nothing is what the elements lead to already
        refine .settled (((List.forall₂_and_left vs es).2 ⟨hresolved rfl, hvalues.flip⟩).flip.imp ?_)
        rintro e v ⟨hv, hleaves⟩
        obtain ⟨r, herase, hr⟩ := Leaves.settled hargs hdom' hleaves hv
        obtain ⟨a, ha, har⟩ := (Solves.leaves hargs hstart hleaves).1.back trivial r (hr g true)
        exact ⟨a, ha, herase.trans har.symm⟩

/-- Completing what is left of data writes what it leads to, once the solution leaves alone what is not bound. -/
theorem Completes.writes (hg : Solves u radix g b)
    (hrest : ∀ name, (b name).isSet = false → ∀ loc, g loc name = some (.identifier loc name)) {t : Token}
    {item : Item} {ts : List Token} (hcarries : Carries u radix g t item) (h : Completes u radix b item ts) :
    Writes u radix g t ts := by
  cases hcarries with
  | @pending loc kind es vs hagree =>
    cases h with
    | @pending _ _ _ rs _ hvalues hencoded =>
      refine ⟨loc, kind, es, rs, rfl, ?_, hencoded⟩
      clear hencoded
      induction hagree generalizing rs with
      | nil =>
        cases hvalues
        exact .nil
      | cons hfirst _ ih =>
        cases hvalues with
        | @cons _ r _ _ hleaves hmore =>
          obtain ⟨a, ha, hra⟩ := hg.total hrest hleaves
          rw [hfirst.2] at ha
          obtain ⟨a', ha', haa⟩ := hfirst.1.back trivial a ha
          exact .cons ⟨a', ha', hra.trans haa.symm⟩ (ih hmore)
  | @settled loc kind es vs hmeans =>
    cases h with
    | settled hencoded => exact ⟨loc, kind, es, vs, rfl, hmeans, hencoded⟩

/-- A solution of the definitions of a program solves what is bound in the end, and leaves alone what is not. -/
theorem EntersAll.solved (hargs : u.args = []) {source : List Token} {items : List Item}
    (hsolution : IsSolution u radix root source g) (henters : EntersAll u radix root source items b) :
    Solves u radix g b ∧ ∀ name, (b name).isSet = false → ∀ loc, g loc name = some (.identifier loc name) := by
  obtain ⟨hg, hset⟩ := EntersAll.solves hargs hsolution.bound hsolution.equate henters
  refine ⟨hg, fun name hname => hsolution.rest name ?_ fun loc n e hmem hspells => ?_⟩
  · by_contra hroot
    have hkept := henters.eq_of_isSet (by simpa using hroot)
    rw [hkept] at hname
    exact hroot hname
  · rw [hset loc n e name hmem hspells] at hname
    cases hname

/-- A run without a failure writes what the solution of its definitions says. -/
theorem EntersAll.writes (hargs : u.args = []) {source : List Token} {items : List Item} {dom : Finset Text}
    {tss : List (List Token)} (hsolution : IsSolution u radix root source g)
    (hdom : ∀ name, (b name).value.isSome → name ∈ dom) (henters : EntersAll u radix root source items b)
    (hcompletes : List.Forall₂ (Completes u radix b) items tss) :
    List.Forall₂ (Writes u radix g) (source.filter Token.isData) tss := by
  obtain ⟨hg, hrest⟩ := EntersAll.solved hargs hsolution henters
  have hcarries := EntersAll.carries hargs hdom hg henters
  generalize source.filter Token.isData = kept at hcarries
  clear henters
  induction hcarries generalizing tss with
  | nil =>
    cases hcompletes
    exact .nil
  | cons hfirst _ ih =>
    cases hcompletes with
    | cons hcompletes hmore => exact .cons (hcompletes.writes hg hrest hfirst) (ih hmore)

/-- What is written for the same data looks alike. -/
theorem map_erase_of_writes {source : List Token} {tss tss' : List (List Token)}
    (h : List.Forall₂ (Writes u radix g) source tss) (h' : List.Forall₂ (Writes u radix g) source tss') :
    (Token.products tss.flatten).map Token.erase = (Token.products tss'.flatten).map Token.erase := by
  induction h generalizing tss' with
  | nil =>
    cases h'
    rfl
  | cons hfirst _ ih =>
    cases h' with
    | cons hfirst' hrest' =>
      obtain ⟨loc, kind, es, rs, rfl, hmeans, hencoded⟩ := hfirst
      obtain ⟨loc', kind', es', rs', heq, hmeans', hencoded'⟩ := hfirst'
      cases heq
      rw [List.flatten_cons, List.flatten_cons, Token.products_append, Token.products_append, List.map_append,
        List.map_append, ih hrest', Encode.data_erase (map_erase_of_means hmeans hmeans') hencoded hencoded']

end Entry

open Entry in
/-- Let a program of definitions and data be reordered so that the data stays in order. If no failure is
reported either way, then the output is the same, apart from diagnostics, locations and the names that values
were resolved through. A name that is defined twice is a failure, and so is a name of the root scope. -/
theorem Assembler.assemble_reordered (a : Assembler) (scope : Scope) {source source' : List Token}
    (hradix : (scope.binding Scope.radixName).isSet = true)
    (hsource : ∀ t ∈ source, t.isEquate = true ∨ t.isData = true) (hperm : source.Perm source')
    (hdata : source.filter Token.isData = source'.filter Token.isData)
    (hok : ∀ t ∈ (a.assemble scope source).tokens, t.fails = false)
    (hok' : ∀ t ∈ (a.assemble scope source').tokens, t.fails = false) :
    (Token.products (a.assemble scope source).tokens).map Token.erase =
      (Token.products (a.assemble scope source').tokens).map Token.erase := by
  have hargs : a.outermost.around.args = [] := rfl
  -- each run enters its definitions and completes its data
  have hrun : ∀ {program : List Token}, (∀ t ∈ program, t.isEquate = true ∨ t.isData = true) →
      (∀ t ∈ (a.assemble scope program).tokens, t.fails = false) →
      ∃ (b : Text → Binding) (dom : Finset Text) (items : List Item) (tss : List (List Token)),
        (∀ name, (b name).value.isSome → name ∈ dom) ∧
        EntersAll a.outermost.around scope.radix scope.binding program items b ∧
        List.Forall₂ (Completes a.outermost.around scope.radix b) items tss ∧
        Token.products (a.assemble scope program).tokens = Token.products tss.flatten := by
    intro program hprogram hok
    rcases assemble_cases a scope hprogram hradix with ⟨t, ht, hfails⟩ | hcases
    · rw [hok t ht] at hfails
      cases hfails
    · exact hcases
  obtain ⟨b, dom, items, tss, hdom, henters, hcompletes, hproducts⟩ := hrun hsource hok
  obtain ⟨b', dom', items', tss', hdom', henters', hcompletes', hproducts'⟩ :=
    hrun (fun t ht => hsource t (hperm.mem_iff.2 ht)) hok'
  obtain ⟨g, hg⟩ := EntersAll.exists_isSolution hargs hdom henters
  have hwrites := EntersAll.writes hargs hg hdom henters hcompletes
  have hwrites' := EntersAll.writes hargs (hg.perm hperm) hdom' henters' hcompletes'
  rw [← hdata] at hwrites'
  rw [hproducts, hproducts', map_erase_of_writes hwrites hwrites']

namespace Entry

/-- `A EQU B+1`. -/
def equateA : Token :=
  .assign Location.none .equate (.identifier Location.none "A")
    (.binary Location.none .add (.identifier Location.none "B") (.literal Location.none 1))

/-- `B EQU 300`. -/
def equateB : Token :=
  .assign Location.none .equate (.identifier Location.none "B") (.literal Location.none 300)

/-- `DW A`. -/
def wordA : Token := .data Location.none .words [.identifier Location.none "A"]

/-- `DW B`. -/
def wordB : Token := .data Location.none .words [.identifier Location.none "B"]

end Entry

open Entry in
/-- Data in front of the definitions it waits for is written like data behind them. -/
theorem Assembler.assemble_reordered_twoNames :
    let early := assemble (.bare 0) Scope.initial [wordA, equateA, wordB, equateB]
    let late := assemble (.bare 0) Scope.initial [equateB, equateA, wordA, wordB]
    (Token.products early.tokens).map Token.erase = (Token.products late.tokens).map Token.erase ∧
      (Token.products late.tokens).map Token.erase =
        [.bytes Location.none [45, 1], .bytes Location.none [44, 1]] := by
  refine ⟨?_, rfl⟩
  refine assemble_reordered _ Scope.initial (by decide +kernel) (by decide +kernel) ?_ rfl (by decide +kernel)
    (by decide +kernel)
  have hfront : ([equateA, wordA, wordB] ++ [equateB]).Perm ([equateB] ++ [equateA, wordA, wordB]) :=
    List.perm_append_comm
  exact (List.Perm.swap equateA wordA _).trans hfront

end MacroAsm
