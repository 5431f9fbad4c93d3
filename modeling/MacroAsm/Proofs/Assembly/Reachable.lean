import MacroAsm.Proofs.Assembly.Runs

/-!
# Reachable states

`Reachable a w s` says that the statements of a block may be handled in the state `s` by the workbench `w`
while a program is assembled. It begins with the block of the program over any root scope, follows what the
handling of statements does to the scope, and enters nested blocks. Handling an item in a reachable state
leads to one (`Reachable.handle`), and so does assembling a whole block (`Reachable.run`).
-/

namespace MacroAsm

/-- The steps of the stages of a block. -/
def Workbench.passes (w : Workbench) : List Pass :=
  [.ofToken (Declare.declareGlobals w), .reduceFirst w, .localize w, .reduceAgain w, .expandRest w,
    .ofToken Finish.relax, .ofToken (Finish.encode w), .ofToken (Finish.complete w)]

namespace Grammar

/-- The grammar in which programs and output have the same property, and in which the names that are removed
satisfy `gone`. -/
def uniform (S : Token → Prop) (gone : Text → Prop) : Grammar := ⟨S, S, gone⟩

/-- A property of tokens that no step of a block loses, and the names that the tokens with it remove. -/
structure Closed (S : Token → Prop) (gone : Text → Prop) : Prop where
  /-- Diagnostics have it. -/
  message : ∀ t : Token, t.isMessage = true → S t
  /-- The places of labels have it. -/
  fragment : ∀ loc id label, S (.fragment loc id label)
  /-- An IF over assembled arms, in which no diagnostics are left, has it if the IF has it that they were assembled
  for, and the arms have. -/
  cond : ∀ loc clauses otherwise, S (.cond loc clauses otherwise false) → ∀ clauses' otherwise',
    (∀ c ∈ clauses', ∀ t ∈ c.body, S t ∧ t.isMessage = false) →
    (∀ body ∈ otherwise', ∀ t ∈ body, S t ∧ t.isMessage = false) → S (.cond loc clauses' otherwise' true)
  /-- Evaluating a token keeps it. -/
  reduces : ∀ u (t t' : Token), S t → t.Reduces u t' → S t'
  /-- The tokens of the bodies of a statement have it. -/
  bodies : ∀ t : Token, S t → ∀ body ∈ t.bodies, ∀ t' ∈ body, S t'
  /-- What takes the place of a decided IF has it. -/
  decision : ∀ (t : Token) ts, S t → t.decision? = some ts → ∀ t' ∈ ts, S t'
  /-- A statement with it removes names of `gone` only. -/
  removed : ∀ u loc what names, S (.retract loc what names) →
    Act.Gives (fun ns => ∀ n ∈ ns, gone n) (Eval.namesOf u names)
  /-- Jumps that become branches have it. -/
  relaxed : ∀ bankSwitched d, S (.dispatch d) → S (Finish.relaxDispatch bankSwitched d).1
  /-- What instructions with it are encoded to has it. -/
  instruction : ∀ table mnemonic d ts, S (.dispatch d) → Encode.instruction table mnemonic d = .ok ts → ∀ t ∈ ts, S t
  /-- What data are encoded to has it. -/
  data : ∀ kind values ts, Encode.data kind values = .ok ts → ∀ t ∈ ts, S t

section Closed

variable {S : Token → Prop} {gone : Text → Prop}

/-- Items whose tokens have the property. -/
abbrev Carries (S : Token → Prop) (item : Item) : Prop := S item.token

/-- Items with the property are admitted. -/
theorem Closed.admits (hS : Closed S gone) : (uniform S gone).Admits (Carries S) where
  message item hmessage := hS.message item.token hmessage
  fragment := hS.fragment
  spliced _ ht := ht

/-- Every step of a block maps items with the property to items with it. -/
theorem Closed.maps (hS : Closed S gone) {w : Workbench} (hw : (uniform S gone).Equips w) {pass : Pass}
    (hpass : pass ∈ w.passes) :
    pass.Maps (uniform S gone).Leads w.block.inMacro ((uniform S gone).Knows (Carries S))
      ((uniform S gone).Knows (Carries S)) := by
  have hQ : Reports (Carries S) := hS.admits.message
  simp only [Workbench.passes, List.mem_cons, List.not_mem_nil, or_false] at hpass
  rcases hpass with rfl | rfl | rfl | rfl | rfl | rfl | rfl | rfl
  · exact maps_declareGlobals hQ fun _ hitem _ => hitem
  · exact maps_reduceFirst hQ fun item t' _ hitem hreduces _ => hS.reduces _ _ t' hitem hreduces
  · exact maps_localize hS.admits hw (fun loc clauses otherwise _ hitem => hS.cond loc clauses otherwise hitem)
      (fun item hitem => hS.bodies item.token hitem)
      (fun loc what names _ hitem => hS.removed _ loc what names hitem)
      (fun item hitem ts => hS.decision item.token ts hitem) fun _ hitem _ _ => hitem
  · rw [Pass.reduceAgain_eq]
    exact maps_reduceChecked hQ (fun item t' hitem hreduces _ => hS.reduces _ _ t' hitem hreduces)
      fun _ hitem _ => hitem
  · exact maps_expandRest hS.admits hw (fun item hitem => hS.bodies item.token hitem)
      fun _ hitem _ => hitem
  · exact maps_relax hQ (fun d _ hitem bankSwitched => hS.relaxed bankSwitched d hitem)
      fun _ hitem _ => hitem
  · exact maps_encode hQ (fun d _ hitem mnemonic ts => hS.instruction _ mnemonic d ts hitem)
      fun _ hitem _ => hitem
  · exact maps_complete hQ (fun _ kind values _ _ ts => hS.data kind values ts)
      (fun _ _ _ _ hitem _ => hitem) fun _ hitem _ _ => hitem

/-- Blocks of tokens with the property are assembled. -/
theorem Closed.assembles (hS : Closed S gone) {w : Workbench} (hw : (uniform S gone).Equips w) :
    (uniform S gone).Assembles Pass.reduceAgain w := by
  have hmaps : ∀ {pass : Pass}, pass ∈ w.passes → pass.Maps (uniform S gone).Leads w.block.inMacro
      ((uniform S gone).Knows (Carries S)) ((uniform S gone).Knows (Carries S)) := fun h => hS.maps hw h
  have hstable := (uniform S gone).stable_knows (Carries S)
  refine ⟨Carries S, ⟨Carries S, .last (hmaps ?_), .step (hmaps ?_) hstable (.last (hmaps ?_))⟩,
    .step (hmaps ?_) hstable (.step (hmaps ?_) hstable (.step (hmaps ?_) hstable
      (.step (hmaps ?_) hstable (.step (hmaps ?_) hstable (.last (hmaps ?_))))))⟩ <;>
    simp [Workbench.passes]

/-- What the first stage of a block gives has the property. -/
theorem Closed.knows_declareStage (hS : Closed S gone) {w : Workbench} (hw : (uniform S gone).Equips w)
    {source : List Token} (hsource : ∀ t ∈ source, S t) {s : State} (hs : (uniform S gone).Sound s.scope) :
    ∀ i ∈ ((w.declareStage source).run s).1.items,
      (uniform S gone).Knows (Carries S) ((w.declareStage source).run s).2 i :=
  (leads_declareStage (.last (hS.maps hw (by simp [Workbench.passes]))) hsource hs).2

/-- What the second stage of a block gives has the property. -/
theorem Closed.knows_bindStage (hS : Closed S gone) {w : Workbench} (hw : (uniform S gone).Equips w)
    {items : List Item} {s : State} (hitems : ∀ i ∈ items, (uniform S gone).Knows (Carries S) s i) :
    ∀ i ∈ ((w.bindStage items).run s).1.items,
      (uniform S gone).Knows (Carries S) ((w.bindStage items).run s).2 i := by
  have hstable := (uniform S gone).stable_knows (Carries S)
  refine (leads_bindStage (.step (hS.maps hw ?_) hstable (.last (hS.maps hw ?_))) hitems).2
  all_goals simp [Workbench.passes]

/-- A workbench assembles nested blocks of tokens with the property, to any depth, if included files are made
of such tokens. -/
theorem Closed.equips (hS : Closed S gone) {a : Assembler}
    (hincluder : ∀ find, a.includer = some find → ∀ loc path loader body,
      find loc path loader = .ok body → ∀ t ∈ body, S t) (b : Block) (depth : Nat) :
    (uniform S gone).Equips ⟨a, b, a.runner depth⟩ := by
  refine ⟨fun run hrun => ?_, hincluder⟩
  rw [Assembler.runner_eq] at hrun
  refine obeys_runnerWith hincluder (fun w ha hw => ?_) depth run hrun
  subst ha
  exact hS.assembles hw

end Closed

/-- The grammar of any tokens, in which any name may be removed. -/
def any : Grammar := uniform (fun _ => True) fun _ => True

/-- Nothing has to be shown of any tokens. -/
theorem closed_any : Closed (fun _ => True) fun _ => True where
  message _ _ := trivial
  fragment _ _ _ := trivial
  cond _ _ _ _ _ _ _ _ := trivial
  reduces _ _ _ _ _ := trivial
  bodies _ _ _ _ _ _ := trivial
  decision _ _ _ _ _ _ := trivial
  removed _ _ _ _ _ _ _ _ _ _ := trivial
  relaxed _ _ _ := trivial
  instruction _ _ _ _ _ _ _ _ := trivial
  data _ _ _ _ _ _ := trivial

theorem sound_any {s : Scope} (hs : s.WellFormed) : any.Sound s :=
  ⟨hs, fun _ _ _ _ _ _ => trivial, fun _ _ _ _ _ _ _ _ => trivial⟩

theorem maps_any {w : Workbench} (hw : any.Equips w) {pass : Pass} (hpass : pass ∈ w.passes) :
    pass.Maps any.Leads w.block.inMacro (any.Knows fun _ => True) (any.Knows fun _ => True) :=
  closed_any.maps hw hpass

theorem assembles_any {w : Workbench} (hw : any.Equips w) : any.Assembles Pass.reduceAgain w :=
  closed_any.assembles hw

theorem equips_any (a : Assembler) (b : Block) (depth : Nat) : any.Equips ⟨a, b, a.runner depth⟩ :=
  closed_any.equips (fun _ _ _ _ _ _ _ _ _ => trivial) b depth

/-- What evolves within the grammar of any tokens proceeds, whatever macros are defined. -/
theorem proceeds_any {s s' : State} (h : any.Leads s s') :
    Scope.Proceeds (fun _ _ _ => True) (fun _ => True) s.scope s'.scope := by
  have hany : any.IsMacro = fun _ => True := by
    funext m
    exact eq_true fun _ _ => trivial
  rw [Leads, Evolves, hany] at h
  exact h.proceeds

end Grammar

/-- A state in which the statements of a block may be handled while a program is assembled. -/
inductive Reachable (a : Assembler) : Workbench → State → Prop where
  /-- The block of the program begins, over a root scope in which every frame binds each name once, and
  definitions and internal state are in the root frame. -/
  | start (scope : Scope) (hroot : scope.root.names.Nodup) (hinner : ∀ f ∈ scope.inner, f.IsInner) :
    Reachable a ⟨a, a.outermost, a.runner a.maxDepth⟩ (Assembler.start scope)
  /-- Statements are handled. -/
  | evolve {w : Workbench} {s s' : State} (h : Reachable a w s)
    (hs : Scope.Evolves (fun _ => True) s.scope s'.scope) : Reachable a w s'
  /-- A nested block begins, over a frame of its own or over the same scope. -/
  | nest {b b' : Block} {depth : Nat} {s s' : State}
    (h : Reachable a ⟨a, b, a.runner (depth + 1)⟩ s)
    (hs : s'.scope = s.scope ∨ s.scope.Opens s'.scope) : Reachable a ⟨a, b', a.runner depth⟩ s'

namespace Reachable

variable {a : Assembler} {w : Workbench} {s : State}

/-- The workbench of a reachable state assembles nested blocks as the program does. -/
theorem exists_depth (h : Reachable a w s) : ∃ b depth, w = ⟨a, b, a.runner depth⟩ := by
  induction h with
  | start => exact ⟨_, _, rfl⟩
  | evolve _ _ ih => exact ih
  | nest => exact ⟨_, _, rfl⟩

/-- The scope of a reachable state is well formed. -/
theorem wellFormed (h : Reachable a w s) : s.scope.WellFormed := by
  induction h with
  | start scope hroot hinner =>
    exact ⟨List.cons_ne_nil _ _, hroot, List.forall_mem_cons.2 ⟨Frame.isInner_empty, hinner⟩⟩
  | evolve _ hs ih => exact (hs.preserved ih).wellFormed
  | nest _ hs ih =>
    rcases hs with hs | hs
    · rwa [hs]
    · exact ih.of_opens hs

theorem equips (h : Reachable a w s) : Grammar.any.Equips w := by
  obtain ⟨b, depth, rfl⟩ := h.exists_depth
  exact Grammar.equips_any a b depth

theorem leads (h : Reachable a w s) {s' : State} (hs : Grammar.any.Leads s s') : Reachable a w s' :=
  h.evolve (Grammar.proceeds_any hs).evolves

theorem handle (h : Reachable a w s) {pass : Pass} (hpass : pass ∈ w.passes) (item : Item) :
    Reachable a w ((pass.handle w.block.inMacro item).run s).2 :=
  h.leads (Grammar.maps_any h.equips hpass item s ⟨Grammar.sound_any h.wellFormed, trivial⟩).1

/-- Assembling a block from a reachable state leads to a reachable state. -/
theorem run (h : Reachable a w s) (source : List Token) :
    Reachable a w ((w.run source).run s).2 := by
  rw [Workbench.run_eq]
  exact h.leads (Grammar.leads_runWith (Grammar.assembles_any h.equips) (fun _ _ => trivial)
    (Grammar.sound_any h.wellFormed)).1

end Reachable

end MacroAsm
