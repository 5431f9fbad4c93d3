import MacroAsm.Proofs.Assembly.Encoding
import MacroAsm.Proofs.Assembly.Freezing

/-!
# What a program removes

UNDEF and PMACRO remove the names that their expressions spell, at the latest when they are carried out
(`Expr.Spells`). A program in which these are names of `gone` (`Token.Spares`) removes no others while it is
assembled: no step of a block makes a new UNDEF or PMACRO (`Grammar.closed_spares`). So wherever such a program
is, the moments that follow are later ones in the sense of `Scope.Later`, and frozen values of other names last
(`Reachable.frozen_lasts`).
-/

namespace MacroAsm

/-- A name that an expression may spell, now or after it was evaluated without being resolved. -/
inductive Expr.Spells : Expr → Text → Prop where
  /-- The expression spells the name. -/
  | now {u : Surroundings} {e : Expr} {s s' : State} {name : Text}
    (h : (Eval.nameOf u e).exec s = (.ok name, s')) : Spells e name
  /-- What it is evaluated to may spell the name. -/
  | later {u : Surroundings} {e e' : Expr} {s s' : State} {name : Text}
    (h : (Eval.nameOnly u e).exec s = (.ok e', s')) (hspells : Spells e' name) : Spells e name

namespace Token

/-- The tokens in the bodies of a token. -/
def parts : Token → List Token
  | .dup _ _ _ body => body
  | .macroDef _ _ _ body => body
  | .cond _ clauses otherwise _ => clauses.flatMap Clause.body ++ otherwise.getD []
  | _ => []

/-- An expression that spells a name which the token removes, or a token in its bodies. -/
inductive Retracts : Token → Expr → Prop where
  /-- The token is an UNDEF or a PMACRO. -/
  | here {loc : Location} {what : Retraction} {names : List Expr} {e : Expr} (he : e ∈ names) :
    Retracts (.retract loc what names) e
  /-- A token in a body removes it. -/
  | part {t t' : Token} {e : Expr} (ht : t' ∈ t.parts) (h : Retracts t' e) : Retracts t e

/-- All names that the token may remove satisfy `gone`. -/
def Spares (gone : Text → Prop) (t : Token) : Prop := ∀ e, t.Retracts e → ∀ name, e.Spells name → gone name

variable {gone : Text → Prop} {t : Token}

theorem Spares.parts (h : t.Spares gone) : ∀ t' ∈ t.parts, t'.Spares gone :=
  fun _ ht' e he => h e (.part ht' he)

/-- What is neither UNDEF nor PMACRO removes what the tokens in its bodies remove. -/
theorem spares_of_parts (hnot : ∀ loc what names, t ≠ .retract loc what names)
    (hparts : ∀ t' ∈ t.parts, t'.Spares gone) : t.Spares gone := by
  intro e he
  cases he with
  | here => exact absurd rfl (hnot _ _ _)
  | part ht' h => exact hparts _ ht' e h

/-- UNDEF and PMACRO remove what their expressions spell. -/
theorem spares_retract {loc : Location} {what : Retraction} {names : List Expr} :
    Spares gone (.retract loc what names) ↔ ∀ e ∈ names, ∀ name, e.Spells name → gone name := by
  constructor
  · exact fun h e he => h e (.here he)
  · intro h e he
    cases he with
    | here he => exact h e he
    | part ht' => exact absurd ht' List.not_mem_nil

/-- An IF removes what the tokens of its arms remove. -/
theorem spares_cond {loc : Location} {clauses : List Clause} {otherwise : Option (List Token)}
    {assembled : Bool} :
    Spares gone (.cond loc clauses otherwise assembled) ↔
      (∀ c ∈ clauses, ∀ t ∈ c.body, t.Spares gone) ∧ ∀ body ∈ otherwise, ∀ t ∈ body, t.Spares gone := by
  have hmem : ∀ t', t' ∈ (Token.cond loc clauses otherwise assembled).parts ↔
      (∃ c ∈ clauses, t' ∈ c.body) ∨ ∃ body ∈ otherwise, t' ∈ body := by
    intro t'
    cases otherwise <;> simp [Token.parts]
  constructor
  · exact fun h => ⟨fun c hc t ht => h.parts t ((hmem t).2 (Or.inl ⟨c, hc, ht⟩)),
      fun body hbody t ht => h.parts t ((hmem t).2 (Or.inr ⟨body, hbody, ht⟩))⟩
  · rintro ⟨hclauses, hotherwise⟩
    refine spares_of_parts (by simp) fun t' ht' => ?_
    rcases (hmem t').1 ht' with ⟨c, hc, ht⟩ | ⟨body, hbody, ht⟩
    · exact hclauses c hc t' ht
    · exact hotherwise body hbody t' ht

/-- The statements of a body that is still to be assembled remove no more than its statement does. -/
theorem Spares.bodies (h : t.Spares gone) {body : List Token} (hbody : body ∈ t.bodies) :
    ∀ t' ∈ body, t'.Spares gone := by
  cases t with
  | dup | macroDef =>
    rw [List.mem_singleton.1 hbody]
    exact h.parts
  | cond loc clauses otherwise assembled =>
    obtain ⟨hclauses, hotherwise⟩ := spares_cond.1 h
    cases assembled with
    | true => exact absurd hbody List.not_mem_nil
    | false =>
      rcases List.mem_append.1 hbody with hbody | hbody
      · obtain ⟨c, hc, rfl⟩ := List.mem_map.1 hbody
        exact hclauses c hc
      · exact hotherwise body (Option.mem_toList.1 hbody)
  | _ => exact absurd hbody List.not_mem_nil

/-- Output removes nothing. -/
theorem spares_of_isOutput (h : t.isOutput = true) : t.Spares gone := by
  -- along the way to the UNDEF or PMACRO every token is output, and that one cannot be
  intro e he
  induction he with
  | here => rcases role_of_isOutput h with hrole | hrole <;> cases hrole
  | @part t t' e ht' _ ih =>
    refine ih ?_
    cases t with
    | cond loc clauses otherwise assembled =>
      obtain ⟨-, hclauses, hotherwise⟩ := everywhere_cond.1 h
      rcases List.mem_append.1 ht' with ht' | ht'
      · obtain ⟨c, hc, ht'⟩ := List.mem_flatMap.1 ht'
        exact hclauses c hc t' ht'
      · cases otherwise with
        | none => exact absurd ht' List.not_mem_nil
        | some body => exact hotherwise body rfl t' ht'
    | dup => rcases role_of_isOutput h with hrole | hrole <;> cases hrole
    | macroDef => rcases role_of_isOutput h with hrole | hrole <;> cases hrole
    | _ => exact absurd ht' List.not_mem_nil

/-- What takes the place of a decided IF removes no more than the IF does. -/
theorem Spares.decision (h : t.Spares gone) {ts : List Token} (hts : t.decision? = some ts) :
    ∀ t' ∈ ts, t'.Spares gone := by
  obtain ⟨loc, clauses, otherwise, rfl, hfrom⟩ := decision?_cases hts
  obtain ⟨hclauses, hotherwise⟩ := spares_cond.1 h
  rcases hfrom with ⟨c, hc, rfl⟩ | rfl
  · exact hclauses c hc
  · cases otherwise with
    | none => exact fun t ht => absurd ht List.not_mem_nil
    | some body => exact hotherwise body rfl

section Reduce

variable {u : Surroundings}

/-- The names of a list are built one by one. -/
theorem gives_nameOnlyAll (es : List Expr) :
    Act.Gives (fun es' => ∀ e' ∈ es', ∃ e ∈ es, ∀ name, e'.Spells name → e.Spells name)
      (Eval.nameOnlyAll u es) := by
  induction es with
  | nil => exact .pure fun e' he' => absurd he' List.not_mem_nil
  | cons e rest ih =>
    rw [Eval.nameOnlyAll]
    have hfirst : Act.Gives (fun e' => ∀ name, e'.Spells name → e.Spells name) (Eval.nameOnly u e) :=
      fun s e' he' name hname => .later (Prod.ext he' rfl) hname
    refine hfirst.bind fun e' he' => ih.bind fun es' hes' => .pure fun v hv => ?_
    rcases List.mem_cons.1 hv with rfl | hv
    · exact ⟨e, List.mem_cons_self, he'⟩
    · obtain ⟨e, he, hspells⟩ := hes' v hv
      exact ⟨e, List.mem_cons_of_mem _ he, hspells⟩

mutual

/-- Evaluating a token makes it remove no more. -/
theorem gives_spares : ∀ t : Token, Act.Gives (fun t' => t.Spares gone → t'.Spares gone) (reduce u t) := by
  intro t
  -- a token of another kind over the same bodies
  have hsame : ∀ {t' : Token}, (∀ loc what names, t' ≠ .retract loc what names) → t'.parts = t.parts →
      Act.Gives (fun t' => t.Spares gone → t'.Spares gone) (pure t') :=
    fun hnot hparts => .pure fun h => spares_of_parts hnot (hparts ▸ h.parts)
  cases t with
  | retract loc what names =>
    rw [reduce]
    -- names that are built in two steps count as spelled from the beginning
    refine (gives_nameOnlyAll names).bind fun names' hnames => .pure fun h => ?_
    rw [spares_retract] at h ⊢
    intro e' he' name hname
    obtain ⟨e, he, hspells⟩ := hnames e' he'
    exact h e he name (hspells name hname)
  | inclusion loc path loader =>
    rw [reduce]
    exact .andThen fun _ => .andThen fun _ => hsame (by simp) rfl
  | declare loc how names =>
    cases how with
    | locally =>
      rw [reduce]
      exact .andThen fun _ => hsame (by simp) rfl
    | globally weak =>
      rw [reduce]
      · exact hsame (by simp) rfl
      all_goals simp
    | externally attributes =>
      rw [reduce]
      · exact hsame (by simp) rfl
      all_goals simp
  | radix | align | allocate | label | display | data | immediate | branch =>
    rw [reduce]
    exact .andThen fun _ => hsame (by simp) rfl
  | assign | dup | macroDef | dispatch =>
    rw [reduce]
    exact .andThen fun _ => .andThen fun _ => hsame (by simp) rfl
  | cond loc clauses otherwise assembled =>
    rw [reduce]
    refine (gives_sparesClauses assembled clauses).bind fun cs hcs => ?_
    refine (gives_sparesBody assembled otherwise).bind fun body hbody => .pure fun h => ?_
    rw [spares_cond] at h ⊢
    exact ⟨hcs h.1, hbody h.2⟩
  | _ =>
    rw [reduce]
    · exact hsame (by simp) rfl
    all_goals simp

/-- Evaluating arms makes their tokens remove no more. -/
theorem gives_sparesClauses (assembled : Bool) : ∀ cs : List Clause,
    Act.Gives (fun cs' => (∀ c ∈ cs, ∀ t ∈ c.body, t.Spares gone) →
      ∀ c ∈ cs', ∀ t ∈ c.body, t.Spares gone) (reduceClauses u assembled cs) := by
  intro cs
  cases cs with
  | nil =>
    rw [reduceClauses]
    exact .pure fun h => h
  | cons c rest =>
    cases c with
    | mk test body =>
      rw [reduceClauses]
      refine .andThen fun test' => ?_
      have hrest : ∀ {body' : List Token}, ((∀ t ∈ body, t.Spares gone) → ∀ t ∈ body', t.Spares gone) →
          Act.Gives (fun cs' => (∀ c ∈ .mk test body :: rest, ∀ t ∈ c.body, t.Spares gone) →
              ∀ c ∈ cs', ∀ t ∈ c.body, t.Spares gone)
            (do return .mk test' body' :: (← reduceClauses u assembled rest)) := by
        intro body' hbody
        refine (gives_sparesClauses assembled rest).bind fun cs hcs => .pure fun h => ?_
        rw [List.forall_mem_cons] at h ⊢
        exact ⟨hbody h.1, hcs h.2⟩
      -- the body is evaluated only where it is assembled
      cases assembled with
      | false => exact hrest fun h => h
      | true => exact (gives_sparesAll body).bind fun body' hbody => hrest hbody

/-- Evaluating an optional body makes its tokens remove no more. -/
theorem gives_sparesBody (assembled : Bool) : ∀ o : Option (List Token),
    Act.Gives (fun o' => (∀ body ∈ o, ∀ t ∈ body, t.Spares gone) →
      ∀ body ∈ o', ∀ t ∈ body, t.Spares gone) (reduceBody u assembled o) := by
  intro o
  cases o with
  | none =>
    rw [reduceBody]
    exact .pure fun h => h
  | some body =>
    rw [reduceBody]
    cases assembled with
    | false => exact .pure fun h => h
    | true =>
      rw [if_pos rfl, map_eq_pure_bind]
      refine (gives_sparesAll body).bind fun body' hbody => .pure fun h b hb => ?_
      cases hb
      exact hbody (h body rfl)

/-- Evaluating the tokens of a list makes them remove no more. -/
theorem gives_sparesAll : ∀ ts : List Token,
    Act.Gives (fun ts' => (∀ t ∈ ts, t.Spares gone) → ∀ t ∈ ts', t.Spares gone) (reduceAll u ts) := by
  intro ts
  cases ts with
  | nil =>
    rw [reduceAll]
    exact .pure fun h => h
  | cons t rest =>
    rw [reduceAll]
    refine (gives_spares t).bind fun t' ht' => ?_
    refine (gives_sparesAll rest).bind fun rest' hrest => .pure fun h => ?_
    rw [List.forall_mem_cons] at h ⊢
    exact ⟨ht' h.1, hrest h.2⟩

end

/-- The names that the expressions of a list spell. -/
theorem gives_namesOf {names : List Expr} (h : ∀ e ∈ names, ∀ name, e.Spells name → gone name) :
    Act.Gives (fun ns => ∀ n ∈ ns, gone n) (Eval.namesOf u names) := by
  induction names with
  | nil => exact .pure fun n hn => absurd hn List.not_mem_nil
  | cons e rest ih =>
    rw [List.forall_mem_cons] at h
    rw [Eval.namesOf]
    have hfirst : Act.Gives gone (Eval.nameOf u e) := fun s n hn => h.1 n (.now (Prod.ext hn rfl))
    refine hfirst.bind fun n hn => (ih h.2).bind fun ns hns => .pure ?_
    exact List.forall_mem_cons.2 ⟨hn, hns⟩

end Reduce

end Token

namespace Grammar

variable {gone : Text → Prop}

/-- No step of a block makes a token that removes more. -/
theorem closed_spares (gone : Text → Prop) : Closed (Token.Spares gone) gone where
  message t ht := Token.spares_of_isOutput (Encode.isEncoded_of_isMessage ht).1
  fragment loc id label := Token.spares_of_isOutput rfl
  cond _ _ _ _ _ _ hclauses hotherwise := Token.spares_cond.2
    ⟨fun c hc t ht => (hclauses c hc t ht).1, fun body hbody t ht => (hotherwise body hbody t ht).1⟩
  reduces u t t' ht := by
    rintro ⟨s, s', hexec⟩
    exact Token.gives_spares t s t' (by rw [hexec]) ht
  bodies t ht body hbody := ht.bodies hbody
  decision t ts ht hts := ht.decision hts
  removed u loc what names h := Token.gives_namesOf (Token.spares_retract.1 h)
  relaxed bankSwitched d h := by
    rcases Finish.relaxDispatch_cases bankSwitched d with heq | ⟨b, heq, -⟩
    · rwa [heq]
    · rw [heq]
      exact Token.spares_of_isOutput rfl
  instruction table mnemonic d ts _ hts t ht :=
    Token.spares_of_isOutput (Encode.isEncoded_of_instruction hts t ht).1
  data kind values ts hts t ht := Token.spares_of_isOutput (Encode.isEncoded_of_data hts t ht).1

end Grammar

/-- All names that included files may remove satisfy `gone`. -/
def Assembler.Spares (gone : Text → Prop) (a : Assembler) : Prop :=
  ∀ find, a.includer = some find → ∀ loc path loader body,
    find loc path loader = .ok body → ∀ t ∈ body, t.Spares gone

/-- All names that the macros of a scope may remove satisfy `gone`. -/
def Scope.Spares (gone : Text → Prop) (s : Scope) : Prop :=
  s.Everywhere fun _ sym => ∀ m, sym.template = some m → ∀ t ∈ m.body, t.Spares gone

namespace Reachable

variable {gone : Text → Prop} {a : Assembler} {w : Workbench} {s : State}

/-- The workbench of a reachable state assembles nested blocks that remove no other names. -/
theorem equips_spares (h : Reachable a w s) (ha : a.Spares gone) :
    (Grammar.uniform (Token.Spares gone) gone).Equips w := by
  obtain ⟨b, depth, rfl⟩ := h.exists_depth
  exact (Grammar.closed_spares gone).equips ha b depth

/-- Statements that remove no other names lead to later moments, and define no macros that do. -/
theorem later_of_leads {s s' : State} (hs : (Grammar.uniform (Token.Spares gone) gone).Sound s.scope)
    (h : (Grammar.uniform (Token.Spares gone) gone).Leads s s') (height : Nat) :
    Scope.Later gone height s.scope s'.scope ∧ s'.scope.Spares gone :=
  ⟨.handled (h.mono (fun _ h => h) fun _ _ => trivial), (hs.evolves h).everywhere⟩

/-- Frozen values last. Wherever a program is, handling an item and assembling a block lead to later moments,
and the names that are removed in between are among those that their statements may remove. At a later moment
a symbol that was frozen and held a value is still frozen and holds the same value, unless its name was removed
or is that of the radix. -/
theorem frozen_lasts (h : Reachable a w s) (gone : Text → Prop) (height : Nat) :
    (a.Spares gone → s.scope.Spares gone →
      (∀ pass ∈ w.passes, ∀ item : Item, item.token.Spares gone →
        Scope.Later gone height s.scope ((pass.handle w.block.inMacro item).run s).2.scope ∧
          ((pass.handle w.block.inMacro item).run s).2.scope.Spares gone) ∧
      ∀ source, (∀ t ∈ source, t.Spares gone) →
        Scope.Later gone height s.scope ((w.run source).run s).2.scope ∧
          ((w.run source).run s).2.scope.Spares gone) ∧
    ∀ s', Scope.Later gone height s.scope s' → ∀ k ≤ height, ∀ name sym v,
      s.scope.symbolAt k name = some sym → sym.frozen = true → sym.value = some v →
      ¬ gone name → name ≠ Scope.radixName →
      ∃ sym' v', s'.symbolAt k name = some sym' ∧ sym'.frozen = true ∧ sym'.value = some v' ∧
        v'.similar v = true := by
  refine ⟨fun ha hs => ?_, fun s' hlater k hk name sym v hsym hfrozen hvalue hname hradix => ?_⟩
  · have hequips := h.equips_spares ha
    have hsound : (Grammar.uniform (Token.Spares gone) gone).Sound s.scope := ⟨h.wellFormed, hs⟩
    have hclosed := Grammar.closed_spares gone
    refine ⟨fun pass hpass item hitem => ?_, fun source hsource => ?_⟩
    · exact later_of_leads hsound (hclosed.maps hequips hpass item s ⟨hsound, hitem⟩).1 height
    · rw [Workbench.run_eq]
      exact later_of_leads hsound
        (Grammar.leads_runWith (hclosed.assembles hequips) hsource hsound).1 height
  · obtain ⟨sym', hsym', hfrozen', hvalue'⟩ :=
      hlater.symbolAt hk hsym hfrozen hvalue hname hradix
    exact ⟨sym', v, hsym', hfrozen', hvalue', Expr.similar_refl v⟩

section Fixed

open Assembler

/-- The workbench of a program without instructions and files. -/
def plainBench : Workbench := ⟨plainAssembler, plainAssembler.outermost, plainAssembler.runner plainAssembler.maxDepth⟩

/-- The state after statements that bind names, from the beginning of a program on. -/
def bindingAll (source : List Token) : State :=
  source.foldl (fun s t => (((Pass.localize plainBench).handle false (.settled t)).run s).2)
    (Assembler.start Scope.initial)

/-- `X EQU 5`. -/
def fixX : Token := .assign Location.none .equate (nameOf "X") (.literal Location.none 5)

/-- `X SET 6`. -/
def setX : Token := .assign Location.none .set (nameOf "X") (.literal Location.none 6)

/-- Binding one more name is the next step. -/
theorem bindingAll_append (source : List Token) (t : Token) :
    bindingAll (source ++ [t]) =
      (((Pass.localize plainBench).handle false (.settled t)).run (bindingAll source)).2 := by
  rw [bindingAll, List.foldl_append]
  rfl

/-- The program may be in this state. -/
theorem reachable_bindingAll (source : List Token) :
    Reachable plainAssembler plainBench (bindingAll source) := by
  induction source using List.reverseRecOn with
  | nil => exact .start Scope.initial (by decide +kernel) fun f hf => absurd hf List.not_mem_nil
  | append_singleton source t ih =>
    rw [bindingAll_append]
    exact ih.handle (by simp [Workbench.passes]) _

/-- The macros that the statements define remove no other names than the statements do. -/
theorem spares_bindingAll {source : List Token} (h : ∀ t ∈ source, t.Spares gone) :
    (bindingAll source).scope.Spares gone := by
  induction source using List.reverseRecOn with
  | nil => exact ⟨Frame.all_empty.insert _ nofun, List.forall_mem_singleton.2 Frame.all_empty⟩
  | append_singleton source t ih =>
    rw [List.forall_mem_append] at h
    have hreachable := reachable_bindingAll source
    have hsound : (Grammar.uniform (Token.Spares gone) gone).Sound (bindingAll source).scope :=
      ⟨hreachable.wellFormed, ih h.1⟩
    rw [bindingAll_append]
    exact (later_of_leads hsound ((Grammar.closed_spares gone).maps (hreachable.equips_spares nofun)
      (by simp [Workbench.passes]) (.settled t) _
      ⟨hsound, h.2 t (List.mem_singleton_self t)⟩).1 0).2

/-- After `X EQU 5` a SET of X fails, and X is still 5. -/
theorem frozen_lasts_set : ∃ sym v, (bindingAll [fixX, setX]).scope.symbolAt 0 "X" = some sym ∧
    sym.frozen = true ∧ sym.value = some v ∧ v.similar (.literal Location.none 5) = true := by
  have hfix : fixX.Spares fun _ => False := Token.spares_of_parts (by simp [fixX]) nofun
  have hset : setX.Spares fun _ => False := Token.spares_of_parts (by simp [setX]) nofun
  have hreachable := reachable_bindingAll [fixX]
  obtain ⟨hlater, -⟩ := ((frozen_lasts hreachable (fun _ => False) 0).1 nofun
    (spares_bindingAll (List.forall_mem_singleton.2 hfix))).1
    (.localize plainBench) (by simp [Workbench.passes]) (.settled setX) hset
  have hX : ((bindingAll [fixX]).scope.symbolAt 0 "X").any (fun sym =>
      sym.frozen && sym.value.any (Expr.similar · (.literal Location.none 5))) = true := by
    decide +kernel
  obtain ⟨sym, hsym, hX⟩ := (Option.any_eq_true _ _).1 hX
  obtain ⟨hfrozen, hX⟩ := Bool.and_eq_true_iff.1 hX
  obtain ⟨v, hvalue, hfive⟩ := (Option.any_eq_true _ _).1 hX
  obtain ⟨sym', v', hsym', hfrozen', hvalue', hsimilar⟩ :=
    (frozen_lasts hreachable (fun _ => False) 0).2 _ hlater 0 le_rfl "X" sym v hsym hfrozen
      hvalue not_false (by decide +kernel)
  refine ⟨sym', v', hsym', hfrozen', hvalue', ?_⟩
  rw [Expr.similar_iff_erase_eq] at hsimilar hfive ⊢
  exact hsimilar.trans hfive

/-- `LOCAL .radix` and `.radix EQU 5`. -/
def fixRadix : List Token :=
  [.declare Location.none .locally [nameOf Scope.radixName],
    .assign Location.none .equate (nameOf Scope.radixName) (.literal Location.none 5)]

/-- `RADIX 10`. -/
def setTen : Token := .radix Location.none (.literal Location.none 10)

/-- `DB .radix`. -/
def showRadix : Token := .data Location.none .bytes [nameOf Scope.radixName]

/-- The bytes of a token. -/
def bytes? : Token → Option (List UInt8)
  | .bytes _ data => some data
  | _ => none

/-- Without the condition on the name frozen values do not last. LOCAL and EQU make the name of the radix a
frozen name of the unit, which is not internal state, and RADIX gives it another value. So the program reads it
as 5 first, and as 10 later. -/
theorem exists_frozen_rewritten :
    (Reachable plainAssembler plainBench (bindingAll fixRadix) ∧
      Scope.Later (fun _ => False) 1 (bindingAll fixRadix).scope (bindingAll (fixRadix ++ [setTen])).scope ∧
      ∃ sym sym', (bindingAll fixRadix).scope.symbolAt 1 Scope.radixName = some sym ∧
        sym.reserved = false ∧ sym.frozen = true ∧
        sym.value.any (Expr.similar · (.literal Location.none 5)) = true ∧
        (bindingAll (fixRadix ++ [setTen])).scope.symbolAt 1 Scope.radixName = some sym' ∧
        Expr.similar? sym'.value sym.value = false) ∧
    (plainAssembler.assemble Scope.initial (fixRadix ++ [showRadix, setTen, showRadix])).tokens.map bytes? =
      [some [5], some [10]] := by
  have hreachable := reachable_bindingAll fixRadix
  have hlater : Scope.Later (fun _ => False) 1 (bindingAll fixRadix).scope
      (bindingAll (fixRadix ++ [setTen])).scope := by
    have hfix : ∀ t ∈ fixRadix, t.Spares fun _ => False := by
      simp only [fixRadix, List.forall_mem_cons]
      exact ⟨Token.spares_of_parts (by simp) nofun, Token.spares_of_parts (by simp) nofun, nofun⟩
    have hten : setTen.Spares fun _ => False := Token.spares_of_parts (by simp [setTen]) nofun
    have hsound : (Grammar.uniform (Token.Spares fun _ => False) fun _ => False).Sound
        (bindingAll fixRadix).scope := ⟨hreachable.wellFormed, spares_bindingAll hfix⟩
    rw [bindingAll_append]
    exact (later_of_leads hsound ((Grammar.closed_spares _).maps (hreachable.equips_spares nofun)
      (by simp [Workbench.passes]) (.settled setTen) _ ⟨hsound, hten⟩).1 1).1
  have hchanged : ((bindingAll fixRadix).scope.symbolAt 1 Scope.radixName).any (fun sym =>
      !sym.reserved && (sym.frozen && (sym.value.any (Expr.similar · (.literal Location.none 5)) &&
        ((bindingAll (fixRadix ++ [setTen])).scope.symbolAt 1 Scope.radixName).any fun sym' =>
          !Expr.similar? sym'.value sym.value))) = true := by
    decide +kernel
  refine ⟨⟨hreachable, hlater, ?_⟩, by decide +kernel⟩
  obtain ⟨sym, hsym, hchanged⟩ := (Option.any_eq_true _ _).1 hchanged
  simp only [Bool.and_eq_true, Bool.not_eq_true'] at hchanged
  obtain ⟨hreserved, hfrozen, hfive, hchanged⟩ := hchanged
  obtain ⟨sym', hsym', hchanged⟩ := (Option.any_eq_true _ _).1 hchanged
  exact ⟨sym, sym', hsym, hreserved, hfrozen, hfive, hsym', by simpa using hchanged⟩

end Fixed

end Reachable

end MacroAsm
