import MacroAsm.Proofs.Assembly.Arms
import MacroAsm.Proofs.Assembly.Stages

/-!
# Assembling blocks within a grammar

Each step of a stage maps items of one kind to items of another one, given what the step does to tokens
(`Grammar.maps_localize` and its neighbours). Where the kinds fit together through the three stages of a
block, blocks that are nested to any depth are assembled within the grammar (`Grammar.obeys_runnerWith`).

How items are evaluated again is a parameter `again` here. The runs of a program are the case
`Pass.reduceAgain` (`Workbench.run_eq`, `Assembler.runner_eq`).
-/

namespace MacroAsm

/-- A token may become another one by evaluating its expressions. -/
def Token.Reduces (u : Surroundings) (t t' : Token) : Prop :=
  ∃ s s', (Token.reduce u t).exec s = (.ok t', s')

/-- A token may become another one by evaluating its expressions, none of which waits for a name. -/
def Token.Rests (u : Surroundings) (t t' : Token) : Prop :=
  ∃ s s', (Token.reduce u t).exec s = (.ok t', s') ∧ s'.deferred ≤ s.deferred

/-- The tokens that take the place of an assembled IF that is decided. -/
def Token.decision? : Token → Option (List Token)
  | .cond _ clauses otherwise true => (Conditional.decide? otherwise clauses).toOption.join
  | _ => none

/-- Evaluates a token again if it is marked, and ends the program if the result does not pass a check. -/
def Pass.reduceChecked (check : Token → Bool) (w : Workbench) : Pass := fun item => do
  if item.pending then
    let t ← Token.reduce w.around item.token
    if check t then Emission.emit t
    else Emission.report (.fatal t.loc "A value became known after its block was finished")
  else Emission.emitItem item

theorem Pass.reduceAgain_eq : Pass.reduceAgain = Pass.reduceChecked fun _ => true := by
  funext w item
  simp only [Pass.reduceAgain, Pass.reduceChecked, if_true]

namespace Grammar

variable {g : Grammar} {P Q : Item → Prop} {w : Workbench}

/-- What is known of an item: the scope is sound, and the item has a property. -/
def Knows (g : Grammar) (P : Item → Prop) (s : State) (item : Item) : Prop :=
  g.Sound s.scope ∧ P item

theorem stable_knows (g : Grammar) (P : Item → Prop) : Stable g.Leads (g.Knows P) :=
  fun _ _ _ h hknows => ⟨hknows.1.evolves h, hknows.2⟩

/-- A step that handles items with a property maps them to what it emits. Diagnostics are passed on. -/
theorem maps_of_handles {pass : Pass} {inMacro : Bool} (hQ : Reports Q)
    (h : ∀ item p, P item → g.Keeps Q p → g.Handles Q (pass item) p) :
    pass.Maps g.Leads inMacro (g.Knows P) (g.Knows Q) := by
  refine Pass.maps_of_yields (g.invariant Q) ?_ ?_ ?_ fun item p hitem hp => h item p hitem.2 hp
  · exact fun item s hitem => ⟨hitem.1, fun i hi => absurd hi List.not_mem_nil⟩
  · exact fun p item hp hmessage => hp.push (hQ item hmessage)
  · exact fun p hp item hitem => ⟨hp.sound, hp.items item hitem⟩

/-- GLOBAL and EXTERN are carried out, and everything else is passed on. -/
theorem maps_declareGlobals {inMacro : Bool} (hQ : Reports Q)
    (hpass : ∀ item, P item → item.token.role ≠ .sharing → Q (.settled item.token)) :
    (Pass.ofToken (Declare.declareGlobals w)).Maps g.Leads inMacro (g.Knows P) (g.Knows Q) :=
  maps_of_handles hQ fun item _ hitem hp => handles_declareGlobals hQ hp (hpass item hitem)

/-- A handling that begins by reading the state. -/
theorem handles_getThe {α : Type} {k : State → Emission α} {p : Output × State}
    (hk : g.Handles Q (k p.2) p) : g.Handles Q (do k (← getThe State)) p := by
  have heq := Emission.exec_bind_of_ok (k := k) (Emission.exec_getThe p)
  exact ⟨by rw [heq]; exact hk.rel, by rw [heq]; exact hk.inv, fun _ _ => trivial⟩

/-- Evaluating a token. -/
theorem reduce_handles {u : Surroundings} {p : Output × State} (hp : g.Keeps Q p) (t : Token) :
    Emission.Yields g.Leads (g.Keeps Q) (fun t' s' => (Token.reduce u t).exec p.2 = (.ok t', s'))
      (liftM (Token.reduce u t) : Emission Token) p := by
  refine .act (g.invariant Q) hp ⟨(Token.reduce_yields (g.evaluates u) t p.2).1, ?_⟩
  exact fun t' ht' => Prod.ext ht' rfl

/-- Items are evaluated. -/
theorem maps_reduceFirst {inMacro : Bool} (hQ : Reports Q)
    (h : ∀ item t' pending, P item → item.token.Reduces w.around t' →
      (pending = false → item.token.Rests w.around t') → Q ⟨t', pending⟩) :
    (Pass.reduceFirst w).Maps g.Leads inMacro (g.Knows P) (g.Knows Q) := by
  refine maps_of_handles hQ fun item p hitem hp => ?_
  refine handles_getThe ?_
  refine (reduce_handles hp item.token).bind (g.invariant Q) fun t' q _ hq ht' => ?_
  refine handles_getThe (handles_emitItem hq (h item t' _ hitem ⟨p.2, q.2, ht'⟩ fun hrests => ?_))
  exact ⟨p.2, q.2, ht', by simpa using hrests⟩

/-- Items that are marked are evaluated again, unless the result does not pass a check. -/
theorem maps_reduceChecked {check : Token → Bool} {inMacro : Bool} (hQ : Reports Q)
    (hpending : ∀ item t', P item → item.token.Reduces w.around t' → check t' = true → Q (.settled t'))
    (hsettled : ∀ item, P item → item.pending = false → Q item) :
    (Pass.reduceChecked check w).Maps g.Leads inMacro (g.Knows P) (g.Knows Q) := by
  refine maps_of_handles hQ fun item p hitem hp => ?_
  rw [Pass.reduceChecked]
  split
  · refine (reduce_handles hp item.token).bind (g.invariant Q) fun t' q _ hq ht' => ?_
    split
    · rename_i hcheck
      exact handles_emitItem hq (hpending item t' hitem ⟨p.2, q.2, ht'⟩ hcheck)
    · exact .report (g.invariant Q) hq _
  · rename_i hmark
    exact handles_emitItem hp (hsettled item hitem (by simpa using hmark))

/-- Names are bound, and what can be expanded by now is. -/
theorem maps_localize {inMacro : Bool} (hQ : g.Admits Q) (hw : g.Equips w)
    (hcond : ∀ loc clauses otherwise pending, P ⟨.cond loc clauses otherwise false, pending⟩ → g.AdmitsCond Q loc)
    (hbodies : ∀ item, P item → ∀ body ∈ item.token.bodies, ∀ t ∈ body, g.source t)
    (hgone : ∀ loc what names pending, P ⟨.retract loc what names, pending⟩ →
      Act.Gives (fun ns => ∀ n ∈ ns, g.gone n) (Eval.namesOf w.around names))
    (hdecided : ∀ item, P item → ∀ ts, item.token.decision? = some ts → ∀ t ∈ ts, Q (.settled t))
    (hpass : ∀ item, P item → item.token.role ≠ .binding → item.token.decision? = none → Q item) :
    (Pass.localize w).Maps g.Leads inMacro (g.Knows P) (g.Knows Q) := by
  refine maps_of_handles hQ.message fun item p hitem hp => ?_
  have hR := g.invariant Q
  have hbody := hbodies item hitem
  have htaken := hdecided item hitem
  have hown := hpass item hitem
  obtain ⟨token, pending⟩ := item
  cases token with
  | inclusion loc path loader => exact handles_inclusion hQ hw hp loc path loader
  | radix loc value => exact .act hR hp (setRadix_yields loc value p.2)
  | declare loc how names =>
    cases how with
    | locally => exact handles_declareLocals hQ.message hp loc names
    | _ => exact handles_emitItem hp (hown nofun rfl)
  | assign loc how name value =>
    cases how with
    | set => exact .act hR hp (assign_yields loc name value p.2)
    | equate => exact .act hR hp (equate_yields loc name value p.2)
    | define => exact .act hR hp (define_yields loc name value p.2)
  | label loc name => exact handles_label hQ hp loc name
  | retract loc what names =>
    exact handles_retract hQ.message hp loc what (hgone loc what names pending hitem)
  | macroDef loc name parameters body =>
    exact handles_defineMacro hQ.message hp loc name parameters (hbody body List.mem_cons_self)
  | cond loc clauses otherwise assembled =>
    cases assembled with
    | true =>
      refine handles_decide hp (fun ts hts => htaken ts ?_) fun hnone => hown nofun ?_
      · rw [Token.decision?, hts]
        rfl
      · rw [Token.decision?, hnone]
        rfl
    | false =>
      refine handles_assemble hQ (hcond loc clauses otherwise pending hitem) hw hp (fun c hc => ?_) fun body h => ?_
      · exact hbody c.body (List.mem_append_left _ (List.mem_map_of_mem hc))
      · exact hbody body (List.mem_append_right _ (Option.mem_toList.2 h))
  | dispatch d => exact handles_call hQ hw hp false (hown nofun rfl) d
  | dup loc counter iteration body =>
    exact handles_dup hQ hw hp (fun _ => hown nofun rfl) loc counter iteration
      (hbody body List.mem_cons_self)
  | _ => exact handles_emitItem hp (hown nofun rfl)

/-- What is left is expanded. -/
theorem maps_expandRest {inMacro : Bool} (hQ : g.Admits Q) (hw : g.Equips w)
    (hbodies : ∀ item, P item → ∀ body ∈ item.token.bodies, ∀ t ∈ body, g.source t)
    (hpass : ∀ item, P item → item.token.role ≠ .replaying → Q item) :
    (Pass.expandRest w).Maps g.Leads inMacro (g.Knows P) (g.Knows Q) := by
  refine maps_of_handles hQ.message fun item p hitem hp => ?_
  have hbody := hbodies item hitem
  have hown := hpass item hitem
  obtain ⟨token, pending⟩ := item
  cases token with
  | dispatch d => exact handles_call hQ hw hp true (hown nofun) d
  | dup loc counter iteration body =>
    exact handles_dup hQ hw hp Bool.noConfusion loc counter iteration (hbody body List.mem_cons_self)
  | declare _ how _ => exact handles_emitItem hp (hown (by cases how <;> nofun))
  | cond _ _ _ assembled => exact handles_emitItem hp (hown (by cases assembled <;> nofun))
  | _ => exact handles_emitItem hp (hown nofun)

/-- A handling that begins by changing the state beside the scope. -/
theorem handles_modifyThe {k : Emission PUnit} {p : Output × State} {change : State → State}
    (hchange : (change p.2).scope = p.2.scope) (hp : g.Keeps Q p)
    (hk : ∀ q, g.Keeps Q q → g.Handles Q k q) :
    g.Handles Q (do modifyThe State change; k) p := by
  have hmodify : g.Handles Q (modifyThe State change) p :=
    ⟨.of_scope_eq hchange, ⟨(congrArg g.Sound hchange).mpr hp.sound, hp.items⟩, fun _ _ => trivial⟩
  exact hmodify.bind (g.invariant Q) fun _ q _ hq _ => hk q hq

/-- Relative jumps and calls to labels become branches. -/
theorem maps_relax {inMacro : Bool} (hQ : Reports Q)
    (hdispatch : ∀ d pending, P ⟨.dispatch d, pending⟩ → ∀ bankSwitched,
      Q (.settled (Finish.relaxDispatch bankSwitched d).1))
    (hpass : ∀ item, P item → (∀ d, item.token ≠ .dispatch d) → Q (.settled item.token)) :
    (Pass.ofToken Finish.relax).Maps g.Leads inMacro (g.Knows P) (g.Knows Q) := by
  refine maps_of_handles hQ fun item p hitem hp => ?_
  obtain ⟨token, pending⟩ := item
  have hother := hpass _ hitem
  cases token with
  | dispatch d =>
    refine handles_getThe ?_
    refine handles_modifyThe rfl hp fun q hq => handles_emitItem hq ?_
    exact hdispatch d pending hitem _
  | _ => exact handles_modifyThe rfl hp fun q hq => handles_emitItem hq (hother (by simp))

/-- The tokens of an encoding. -/
theorem handles_encoded {p : Output × State} (hp : g.Keeps Q p) {r : Except Diagnostic (List Token)}
    (hr : ∀ ts, r = .ok ts → ∀ t ∈ ts, Q (.settled t)) : g.Handles Q (Finish.encoded r) p := by
  cases r with
  | ok ts => exact handles_emitAll hp (hr ts rfl)
  | error d => exact .report (g.invariant Q) hp d

/-- Instructions are encoded. -/
theorem maps_encode {inMacro : Bool} (hQ : Reports Q)
    (hdispatch : ∀ d pending, P ⟨.dispatch d, pending⟩ → ∀ mnemonic ts,
      Encode.instruction w.assembler.table mnemonic d = .ok ts → ∀ t ∈ ts, Q (.settled t))
    (hpass : ∀ item, P item → (∀ d, item.token ≠ .dispatch d) → Q (.settled item.token)) :
    (Pass.ofToken (Finish.encode w)).Maps g.Leads inMacro (g.Knows P) (g.Knows Q) := by
  refine maps_of_handles hQ fun item p hitem hp => ?_
  obtain ⟨token, pending⟩ := item
  have hother := hpass _ hitem
  cases token with
  | dispatch d =>
    refine (handles_nameOf hp d.callee).bind (g.invariant Q) fun mnemonic q _ hq _ => ?_
    exact handles_encoded hq (hdispatch d pending hitem mnemonic)
  | _ => exact handles_emitItem hp (hother (by simp))

/-- Data are encoded, and texts that are known are shown. -/
theorem maps_complete {inMacro : Bool} (hQ : Reports Q)
    (hdata : ∀ loc kind values pending, P ⟨.data loc kind values, pending⟩ → ∀ ts,
      Encode.data kind values = .ok ts → ∀ t ∈ ts, Q (.settled t))
    (hdisplay : ∀ loc kind text pending, P ⟨.display loc kind text, pending⟩ →
      text.all Expr.isConcrete = false → Q (.settled (.display loc kind text)))
    (hpass : ∀ item, P item → (∀ loc kind values, item.token ≠ .data loc kind values) →
      (∀ loc kind text, item.token ≠ .display loc kind text) → Q (.settled item.token)) :
    (Pass.ofToken (Finish.complete w)).Maps g.Leads inMacro (g.Knows P) (g.Knows Q) := by
  refine maps_of_handles hQ fun item p hitem hp => ?_
  have hR := g.invariant Q
  obtain ⟨token, pending⟩ := item
  have hother := hpass _ hitem
  cases token with
  | data loc kind values => exact handles_encoded hp (hdata loc kind values pending hitem)
  | display loc kind text =>
    rw [Pass.ofToken, Finish.complete]
    split
    · exact (handles_require hp _).bind hR fun shown q _ hq _ => handles_warn hQ hq _
    · rename_i hsome
      exact handles_emitItem hp (hdisplay loc kind text pending hitem (by simpa using hsome))
  | exitMacro loc =>
    rw [Pass.ofToken, Finish.complete]
    split
    · exact handles_emitItem hp (hother (by simp) (by simp))
    · exact .report hR hp _
  | _ => exact handles_emitItem hp (hother (by simp) (by simp))

end Grammar

namespace Workbench

/-- The first two stages of a block: the items that are left to the third one, diagnostics first. -/
def bound (w : Workbench) (source : List Token) : StateM State (List Item) := do
  let declared ← w.declareStage source
  let bound ← w.bindStage declared.items
  return Stage.messagesFirst bound.items

/-- The third stage of a block, given how items are evaluated again. -/
def finishWith (again : Workbench → Pass) (w : Workbench) (items : List Item) : StateM State Trail :=
  Stage.run w.block.inMacro
    [again w, .localize w, .expandRest w, .ofToken Finish.relax, .ofToken (Finish.encode w)]
    (.ofToken (Finish.complete w)) items

/-- Assembles the statements of a block, given how items are evaluated again. -/
def runWith (again : Workbench → Pass) (w : Workbench) (source : List Token) : StateM State Trail := do
  w.finishWith again (← w.bound source)

/-- The third stage of a block runs over the state that the first two leave. -/
theorem run_runWith (again : Workbench → Pass) (w : Workbench) (source : List Token) (s : State) :
    (w.runWith again source).run s =
      (w.finishWith again ((w.bound source).run s).1).run ((w.bound source).run s).2 := by
  rw [runWith, StateM.run_bind]

/-- The two first stages of a block, each over the state that the one before it leaves. -/
theorem run_bound (w : Workbench) (source : List Token) (s : State) :
    (w.bound source).run s =
      (Stage.messagesFirst ((w.bindStage ((w.declareStage source).run s).1.items).run
        ((w.declareStage source).run s).2).1.items,
        ((w.bindStage ((w.declareStage source).run s).1.items).run
          ((w.declareStage source).run s).2).2) := by
  rw [bound, StateM.run_bind, StateM.run_bind]
  rfl

theorem run_eq (w : Workbench) (source : List Token) :
    w.run source = w.runWith Pass.reduceAgain source := by
  simp only [run, runWith, bound, bind_assoc, pure_bind, finishStage, finishWith]

end Workbench

namespace Assembler

/-- Assembles nested blocks, given how items are evaluated again. -/
def runnerWith (again : Workbench → Pass) (a : Assembler) : Nat → Option Runner
  | 0 => none
  | depth + 1 => some fun b source => do
    let outer := (← get).bankSwitched
    modify fun s => { s with bankSwitched := false }
    let trail ← Workbench.runWith again ⟨a, b, a.runnerWith again depth⟩ source
    modify fun s => { s with bankSwitched := outer }
    return trail.tokens

/-- What runs without the bank switch of the block around, which is there again afterwards. -/
theorem run_shielded (x : StateM State Trail) (s : State) :
    (do
      let outer := (← get).bankSwitched
      modify fun s => { s with bankSwitched := false }
      let trail ← x
      modify fun s => { s with bankSwitched := outer }
      return trail.tokens : StateM State (List Token)).run s =
    ((x.run { s with bankSwitched := false }).1.tokens,
      { (x.run { s with bankSwitched := false }).2 with bankSwitched := s.bankSwitched }) := rfl

/-- A nested block begins without a bank switch, and leaves that of the block around as it was. -/
theorem run_runnerWith {again : Workbench → Pass} {a : Assembler} {depth : Nat} {run : Runner}
    (h : a.runnerWith again (depth + 1) = some run) (b : Block) (source : List Token) (s : State)
    {r : Trail × State}
    (hr : (Workbench.runWith again ⟨a, b, a.runnerWith again depth⟩ source).run
      { s with bankSwitched := false } = r) :
    (run b source).run s = (r.1.tokens, { r.2 with bankSwitched := s.bankSwitched }) := by
  rw [runnerWith, Option.some.injEq] at h
  rw [← h, run_shielded, hr]

/-- Nested blocks are assembled by evaluating again what is marked. -/
theorem runner_eq (a : Assembler) (depth : Nat) :
    a.runner depth = a.runnerWith Pass.reduceAgain depth := by
  induction depth with
  | zero => rfl
  | succ depth ih =>
    rw [runner, runnerWith, ih]
    simp only [Workbench.run_eq]

end Assembler

namespace Grammar

variable {g : Grammar} {again : Workbench → Pass}

/-- What each step asks for and what it gives fit together through the first two stages of a block, from
source tokens on. -/
def Binds (g : Grammar) (w : Workbench) (bound : Item → Prop) : Prop :=
  ∃ declared : Item → Prop,
    Stage.Chain g.Leads w.block.inMacro (g.Knows fun item => g.source item.token) []
      (.ofToken (Declare.declareGlobals w)) (g.Knows declared) ∧
    Stage.Chain g.Leads w.block.inMacro (g.Knows declared) [.reduceFirst w] (.localize w)
      (g.Knows bound)

/-- What each step asks for and what it gives fit together through the stages of a block, from source
tokens to output. -/
def Assembles (g : Grammar) (again : Workbench → Pass) (w : Workbench) : Prop :=
  ∃ bound : Item → Prop, g.Binds w bound ∧
    Stage.Chain g.Leads w.block.inMacro (g.Knows bound)
      [again w, .localize w, .expandRest w, .ofToken Finish.relax, .ofToken (Finish.encode w)]
      (.ofToken (Finish.complete w)) (g.Knows fun item => g.output item.token)

/-- The first stage of a block makes the scope evolve, and leaves items of which something is known. -/
theorem leads_declareStage {w : Workbench} {written : Token → Prop} {declared : Item → Prop}
    (hdeclare : Stage.Chain g.Leads w.block.inMacro (g.Knows fun item => written item.token) []
      (.ofToken (Declare.declareGlobals w)) (g.Knows declared)) {source : List Token}
    (hsource : ∀ t ∈ source, written t) {s : State} (hs : g.Sound s.scope) :
    g.Leads s ((w.declareStage source).run s).2 ∧
      ∀ item ∈ ((w.declareStage source).run s).1.items, g.Knows declared ((w.declareStage source).run s).2 item := by
  have hR : Progress g.Leads := (g.invariant fun _ => True).toProgress
  refine Stage.run_maps hR (g.stable_knows _) (g.stable_knows _) hdeclare fun item hitem => ?_
  obtain ⟨t, ht, rfl⟩ := List.mem_map.1 hitem
  exact ⟨hs, hsource t ht⟩

/-- The second stage of a block makes the scope evolve, and leaves items of which something is known. -/
theorem leads_bindStage {w : Workbench} {declared bound : Item → Prop}
    (hbind : Stage.Chain g.Leads w.block.inMacro (g.Knows declared) [.reduceFirst w] (.localize w) (g.Knows bound))
    {items : List Item} {s : State} (hitems : ∀ i ∈ items, g.Knows declared s i) :
    g.Leads s ((w.bindStage items).run s).2 ∧
      ∀ i ∈ ((w.bindStage items).run s).1.items, g.Knows bound ((w.bindStage items).run s).2 i := by
  have hR : Progress g.Leads := (g.invariant fun _ => True).toProgress
  exact Stage.run_maps hR (g.stable_knows _) (g.stable_knows _) hbind
    fun i hi => hitems i (Stage.mem_messagesFirst.1 hi)

/-- The first two stages of a block make the scope evolve, and leave items of which something is known. -/
theorem leads_bound {w : Workbench} {bound : Item → Prop} (hw : g.Binds w bound) {source : List Token}
    (hsource : ∀ t ∈ source, g.source t) {s : State} (hs : g.Sound s.scope) :
    g.Leads s ((w.bound source).run s).2 ∧
      ∀ item ∈ ((w.bound source).run s).1, g.Knows bound ((w.bound source).run s).2 item := by
  obtain ⟨declared, hdeclare, hbind⟩ := hw
  have hR : Progress g.Leads := (g.invariant fun _ => True).toProgress
  -- the second stage runs over the state that the first one leaves
  obtain ⟨hrel1, hitems1⟩ := leads_declareStage hdeclare hsource hs
  rw [Workbench.run_bound]
  generalize (w.declareStage source).run s = d at hrel1 hitems1
  obtain ⟨hrel2, hitems2⟩ := leads_bindStage hbind hitems1
  refine ⟨hR.trans _ _ _ hrel1 hrel2, fun item hitem => hitems2 item ?_⟩
  exact Stage.mem_messagesFirst.1 hitem

/-- Assembling a block makes the scope evolve, and what it gives is output. -/
theorem leads_runWith {w : Workbench} (hw : g.Assembles again w) {source : List Token}
    (hsource : ∀ t ∈ source, g.source t) {s : State} (hs : g.Sound s.scope) :
    g.Leads s ((w.runWith again source).run s).2 ∧
      ∀ t ∈ ((w.runWith again source).run s).1.tokens, g.output t := by
  obtain ⟨bound, hbinds, hfinish⟩ := hw
  have hR : Progress g.Leads := (g.invariant fun _ => True).toProgress
  obtain ⟨hrel, hitems⟩ := leads_bound hbinds hsource hs
  rw [Workbench.run_runWith]
  generalize (w.bound source).run s = b at hrel hitems
  obtain ⟨hrel', hitems'⟩ := Stage.run_maps hR (g.stable_knows _) (g.stable_knows _) hfinish hitems
  rw [Workbench.finishWith]
  refine ⟨hR.trans _ _ _ hrel hrel', fun t ht => ?_⟩
  obtain ⟨item, hitem, rfl⟩ := List.mem_map.1 ht
  exact (hitems' item hitem).2

/-- Blocks that are nested to any depth are assembled within the grammar, if every block is in which nested
blocks are. -/
theorem obeys_runnerWith {a : Assembler}
    (hincluder : ∀ find, a.includer = some find → ∀ loc path loader body,
      find loc path loader = .ok body → ∀ t ∈ body, g.source t)
    (hblock : ∀ w : Workbench, w.assembler = a → g.Equips w → g.Assembles again w) :
    ∀ depth run, a.runnerWith again depth = some run → g.Obeys run := by
  intro depth
  induction depth with
  | zero => exact fun run h => by cases h
  | succ depth ih =>
    intro run h b body s hbody hs
    have hw := hblock ⟨a, b, a.runnerWith again depth⟩ rfl ⟨ih, hincluder⟩
    have hrun := leads_runWith hw hbody (s := { s with bankSwitched := false }) hs
    generalize hr : (Workbench.runWith again ⟨a, b, a.runnerWith again depth⟩ body).run
      { s with bankSwitched := false } = r at hrun
    rw [Assembler.run_runnerWith h b body s hr]
    exact hrun

end Grammar

end MacroAsm
