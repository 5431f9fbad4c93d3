import MacroAsm.Proofs.Assembly.Depth

/-!
# Runners that stand in for each other

The blocks that are nested in a block of source tokens are made of source tokens as well, and they are assembled over
sound scopes. So a runner may stand in for that of a workbench if it assembles such blocks in the same way
(`Grammar.StandsIn`): every statement is handled as before, and so is the whole block
(`Workbench.run_withRunner`). The same goes for tokens with any property that no step of a block loses, and for runners
of nested blocks that only differ on other tokens (`Grammar.agree_runner`).
-/

namespace MacroAsm

/-- A handling goes on in the same way if it does from wherever what comes first can end. -/
theorem Emission.Yields.exec_bind_congr {α β : Type} {R : State → State → Prop} {I : Output × State → Prop}
    {Q : α → State → Prop} {e e' : Emission α} {k k' : α → Emission β} {p : Output × State} (he : Yields R I Q e p)
    (hsame : e'.exec p = e.exec p) (hk : ∀ a q, I q → Q a q.2 → (k' a).exec q = (k a).exec q) :
    (e' >>= k').exec p = (e >>= k).exec p := by
  obtain ⟨-, hinv, hresult⟩ := he
  rcases hexec : e.exec p with ⟨r, q⟩
  rw [hexec] at hinv hresult hsame
  cases r with
  | ok a =>
    rw [exec_bind_of_ok hexec, exec_bind_of_ok hsame]
    exact hk a q hinv (hresult a rfl)
  | error f => rw [exec_bind_of_error hexec, exec_bind_of_error hsame]

namespace Grammar

/-- Two runners assemble blocks of source tokens over sound scopes in the same way. -/
def Agree (g : Grammar) (run run' : Runner) : Prop :=
  ∀ b body s, (∀ t ∈ body, g.source t) → g.Sound s.scope → (run' b body).run s = (run b body).run s

/-- A runner may stand in for that of a workbench: it assembles the blocks that can be nested in the same way. -/
structure StandsIn (g : Grammar) (w : Workbench) (run' : Runner) : Prop where
  /-- The workbench keeps to the grammar. -/
  equips : g.Equips w
  /-- Its own runner does the same. -/
  runner : ∃ run, w.runner = some run ∧ g.Agree run run'

variable {α : Type} {g : Grammar} {P : Item → Prop} {w : Workbench} {run' : Runner} {p : Output × State}

/-- What goes on with the runner of nested blocks. -/
theorem StandsIn.exec_requireRunner (h : g.StandsIn w run') {k k' : Runner → Emission α}
    (hk : ∀ run, g.Agree run run' → (k' run').exec p = (k run).exec p) :
    ((w.withRunner run').requireRunner >>= k').exec p = (w.requireRunner >>= k).exec p := by
  obtain ⟨run, hrun, hagree⟩ := h.runner
  have hown : w.requireRunner = pure run := by rw [Workbench.requireRunner, hrun]
  rw [hown]
  exact hk run hagree

/-- What goes on with the scope. -/
theorem exec_scope_congr {k k' : Scope → Emission α} (hk : (k' p.2.scope).exec p = (k p.2.scope).exec p) :
    (do k' (← (liftM Act.scope : Emission Scope)) : Emission α).exec p =
      (do k (← (liftM Act.scope : Emission Scope)) : Emission α).exec p := by
  rw [Emission.exec_bind_of_ok (Emission.exec_scope p), Emission.exec_bind_of_ok (Emission.exec_scope p)]
  exact hk

/-- A statement that is expanded into a block. -/
theorem exec_expand_withRunner {run : Runner} (hagree : g.Agree run run') (b : Block) {scope : Scope}
    (hscope : g.Sound scope) {body : List Token} (hbody : ∀ t ∈ body, g.source t) (macroCall : Bool) :
    (Expand.expand run' b scope body macroCall).exec p = (Expand.expand run b scope body macroCall).exec p := by
  rw [Expand.exec_expand run' b scope body macroCall p (hagree b body _ hbody hscope) rfl,
    Expand.exec_expand run b scope body macroCall p rfl rfl]

/-- INCLUDE. -/
theorem exec_inclusion_withRunner (h : g.StandsIn w run') (hp : g.Keeps P p) (loc : Location) (path : Expr)
    (loader : Option Expr) :
    (Expand.inclusion (w.withRunner run') loc path loader).exec p = (Expand.inclusion w loc path loader).exec p := by
  have hfound : ∀ {body : List Token} {q : Output × State}, (∀ t ∈ body, g.source t) → g.Keeps P q →
      (do
        let run ← (w.withRunner run').requireRunner
        let b ← Block.fresh w.assembler.naming w.around.args w.block.inMacro
        Expand.splice false (← Emission.perform (run b body)) : Emission PUnit).exec q =
      (do
        let run ← w.requireRunner
        let b ← Block.fresh w.assembler.naming w.around.args w.block.inMacro
        Expand.splice false (← Emission.perform (run b body)) : Emission PUnit).exec q := by
    intro body q hbody hq
    refine h.exec_requireRunner fun run hagree => ?_
    refine (handles_fresh hq _ _ _).exec_bind_congr rfl fun b q hq _ => ?_
    rw [Emission.exec_bind_of_ok (Emission.exec_perform _ _), Emission.exec_bind_of_ok (Emission.exec_perform _ _),
      hagree b body q.2 hbody hq.sound]
  rw [Expand.inclusion, Expand.inclusion]
  -- files are found by the assembler, whatever the runner
  dsimp only [Workbench.withRunner]
  cases hfind : w.assembler.includer with
  | none => rfl
  | some find =>
    dsimp only
    split
    · rfl
    · refine (handles_require hp _).exec_bind_congr rfl fun path q hq _ => ?_
      have hbody : ∀ {loader : Text} {body : List Token}, find loc path loader = .ok body →
          ∀ t ∈ body, g.source t := fun h' => h.equips.includer find hfind loc path _ _ h'
      cases loader with
      | none =>
        rw [pure_bind, pure_bind]
        cases hloaded : find loc path Text.empty with
        | error d => rfl
        | ok body => exact hfound (hbody hloaded) hq
      | some e =>
        refine (handles_require hq _).exec_bind_congr rfl fun loader q hq _ => ?_
        cases hloaded : find loc path loader with
        | error d => rfl
        | ok body => exact hfound (hbody hloaded) hq

/-- A macro call. -/
theorem exec_call_withRunner (h : g.StandsIn w run') (hp : g.Keeps P p) (strict : Bool) (item : Item) (d : Dispatch) :
    (Expand.call (w.withRunner run') strict item d).exec p = (Expand.call w strict item d).exec p := by
  have hR := g.invariant P
  rw [Expand.call, Expand.call]
  refine exec_scope_congr ?_
  cases hmacroOf : Expand.macroOf? p.2.scope d with
  | none => rfl
  | some found =>
    obtain ⟨name, m⟩ := found
    -- the body comes from the scope, which is sound
    have hm : g.IsMacro m := isMacro_of_macroOf? hp.sound hmacroOf
    dsimp only
    split
    · rfl
    · have hused : g.Handles P (liftM (Act.modifyScope fun s => s.modify name fun sym =>
          { sym with used := true }) : Emission PUnit) p :=
        .act hR hp (modify_yields fun _ _ => Symbol.Updates.revises
          ⟨⟨rfl, rfl, rfl, rfl, fun _ => rfl, fun h => h, Or.inl rfl⟩, fun h => h⟩ rfl)
      refine hused.exec_bind_congr rfl fun _ q hq _ => ?_
      split
      · rfl
      · refine h.exec_requireRunner fun run hagree => ?_
        refine (handles_fresh hq _ _ _).exec_bind_congr rfl fun b q hq _ => ?_
        refine exec_scope_congr ?_
        refine (Emission.Yields.require (Q := fun scope s => s.scope.Opens scope) hR hq
          fun scope h => Scope.opens_bindAll .nest h).exec_bind_congr rfl fun scope q hq hopens => ?_
        exact exec_expand_withRunner hagree b (hq.sound.opens hopens) hm true

section Replay

/-- One iteration. -/
theorem exec_turn_withRunner (h : g.StandsIn w run') (hp : g.Keeps P p) (l : Replay.Loop)
    (hbody : ∀ t ∈ l.body, g.source t) (k : Nat) (value : Option Expr) :
    (l.turn (w.withRunner run') k value).exec p = (l.turn w k value).exec p := by
  have hR := g.invariant P
  refine h.exec_requireRunner fun run hagree => ?_
  refine (handles_fresh hp _ _ _).exec_bind_congr rfl fun b q hq _ => ?_
  refine exec_scope_congr ?_
  refine (Emission.Yields.require (Q := fun scope s => s.scope.Opens scope) hR hq
    fun scope h => Scope.opens_loop h).exec_bind_congr rfl fun scope q hq hopens => ?_
  exact exec_expand_withRunner hagree b (hq.sound.opens hopens) hbody false

/-- Turns that are repeated. -/
theorem exec_times_congr {turn turn' : Nat → Emission PUnit}
    (hturn : ∀ k q, g.Keeps P q → g.Handles P (turn k) q ∧ (turn' k).exec q = (turn k).exec q) (n k : Nat)
    (hp : g.Keeps P p) : (Replay.times turn' n k).exec p = (Replay.times turn n k).exec p := by
  induction n generalizing k p with
  | zero => rfl
  | succ n ih =>
    refine (isClosed_yields hp).exec_bind_congr rfl fun closed q hq _ => ?_
    split
    · rfl
    · exact (hturn k q hq).1.exec_bind_congr (hturn k q hq).2 fun _ q hq _ => ih (k + 1) hq

/-- A turn for each element. -/
theorem exec_each_congr {turn turn' : Nat → Expr → Emission PUnit}
    (hturn : ∀ k e q, g.Keeps P q → g.Handles P (turn k e) q ∧ (turn' k e).exec q = (turn k e).exec q)
    (es : List Expr) (k : Nat) (hp : g.Keeps P p) :
    (Replay.each turn' es k).exec p = (Replay.each turn es k).exec p := by
  induction es generalizing k p with
  | nil => rfl
  | cons e rest ih =>
    refine (isClosed_yields hp).exec_bind_congr rfl fun closed q hq _ => ?_
    split
    · rfl
    · exact (hturn k e q hq).1.exec_bind_congr (hturn k e q hq).2 fun _ q hq _ => ih (k + 1) hq

/-- DUP, DUPA, DUPC and DUPF. -/
theorem exec_dup_withRunner (hP : g.Admits P) (h : g.StandsIn w run') (hp : g.Keeps P p) (strict : Bool) (item : Item)
    (loc : Location) (counter : Option Expr) (iteration : Iteration) {body : List Token}
    (hbody : ∀ t ∈ body, g.source t) :
    (Replay.dup (w.withRunner run') strict item loc counter iteration body).exec p =
      (Replay.dup w strict item loc counter iteration body).exec p := by
  -- the turns of a loop over the body
  have hturn : ∀ counter element k value (q : Output × State), g.Keeps P q →
      g.Handles P (Replay.Loop.turn w ⟨loc, counter, element, body⟩ k value) q ∧
        (Replay.Loop.turn (w.withRunner run') ⟨loc, counter, element, body⟩ k value).exec q =
          (Replay.Loop.turn w ⟨loc, counter, element, body⟩ k value).exec q :=
    fun counter element k value q hq =>
      ⟨handles_turn hP h.equips hq _ hbody k value, exec_turn_withRunner h hq _ hbody k value⟩
  cases iteration with
  | count n =>
    rw [Replay.dup, Replay.dup]
    split
    · refine (handles_require hp _).exec_bind_congr rfl fun n q hq _ => ?_
      refine (handles_nameOr hq counter).exec_bind_congr rfl fun counter q hq _ => ?_
      exact exec_times_congr (fun k q hq => hturn counter Text.empty k none q hq) _ _ hq
    · rfl
  | list element items =>
    rw [Replay.dup, Replay.dup]
    split
    · rfl
    · refine (handles_nameOr hp counter).exec_bind_congr rfl fun counter q hq _ => ?_
      refine (handles_nameOf hq element).exec_bind_congr rfl fun element q hq _ => ?_
      exact exec_each_congr (fun k e q hq => hturn counter element k (some e) q hq) _ _ hq
  | characters element strings =>
    rw [Replay.dup, Replay.dup]
    split
    · rfl
    · refine (handles_nameOr hp counter).exec_bind_congr rfl fun counter q hq _ => ?_
      refine (handles_nameOf hq element).exec_bind_congr rfl fun element q hq _ => ?_
      refine (handles_require hq _).exec_bind_congr rfl fun items q hq _ => ?_
      exact exec_each_congr (fun k e q hq => hturn counter element k (some e) q hq) _ _ hq
  | sequence element first last step =>
    rw [Replay.dup, Replay.dup, Replay.sequence.eq_def, Replay.sequence.eq_def]
    split
    · rfl
    · refine (handles_require hp _).exec_bind_congr rfl fun start q hq _ => ?_
      refine (handles_require hq _).exec_bind_congr rfl fun stride q hq _ => ?_
      split
      · rfl
      · refine (handles_require hq _).exec_bind_congr rfl fun stop q hq _ => ?_
        split
        · rfl
        · refine (handles_nameOr hq counter).exec_bind_congr rfl fun counter q hq _ => ?_
          refine (handles_nameOf hq element).exec_bind_congr rfl fun element q hq _ => ?_
          rw [Replay.walk_eq_times, Replay.walk_eq_times]
          exact exec_times_congr (fun k q hq => hturn counter element k _ q hq) _ _ hq

end Replay

section Conditional

open Conditional

theorem handles_prospect (hp : g.Keeps P p) (body : List Token) : g.Handles P (prospect w body) p := by
  obtain ⟨hout, hscope, -⟩ := exec_prospect w body p
  exact ⟨.of_scope_eq hscope, ⟨hscope ▸ hp.sound, hout ▸ hp.items⟩, fun _ _ => trivial⟩

/-- An arm of an IF. -/
theorem exec_prospect_withRunner (h : g.StandsIn w run') (hp : g.Keeps P p) {body : List Token}
    (hbody : ∀ t ∈ body, g.source t) :
    (prospect (w.withRunner run') body).exec p = (prospect w body).exec p := by
  rw [prospect, prospect]
  refine exec_scope_congr ?_
  refine h.exec_requireRunner fun run hagree => ?_
  refine (handles_fresh hp _ _ _).exec_bind_congr rfl fun b q hq _ => ?_
  -- the arm begins over its own frame, and the scope is restored whatever it gives
  have hnested : g.Keeps P (q.1, { q.2 with scope := p.2.scope.nest }) := ⟨hp.sound.opens .nest, hq.items⟩
  have hset : (liftM (Act.setScope p.2.scope.nest) : Emission PUnit).exec q =
      (.ok ⟨⟩, (q.1, { q.2 with scope := p.2.scope.nest })) := rfl
  have hcollect : (collect run' b body).run { q.2 with scope := p.2.scope.nest } =
      (collect run b body).run { q.2 with scope := p.2.scope.nest } := by
    rw [run_collect, run_collect, hagree b body _ hbody hnested.sound]
  rw [Emission.exec_bind_of_ok hset, Emission.exec_bind_of_ok hset,
    Emission.exec_bind_of_ok (Emission.exec_perform _ _), Emission.exec_bind_of_ok (Emission.exec_perform _ _),
    hcollect]

/-- The arms of an IF up to the first that is known to be taken. -/
theorem exec_sift_withRunner (h : g.StandsIn w run') (hp : g.Keeps P p) (otherwise : Option (List Token))
    {clauses : List Clause} (hclauses : ∀ c ∈ clauses, ∀ t ∈ c.body, g.source t) :
    (sift (w.withRunner run') otherwise clauses).exec p = (sift w otherwise clauses).exec p := by
  induction clauses generalizing p with
  | nil => rfl
  | cons c rest ih =>
    obtain ⟨test, body⟩ := c
    rw [List.forall_mem_cons] at hclauses
    rw [sift, sift]
    split
    · refine (handles_require hp _).exec_bind_congr rfl fun truth q hq _ => ?_
      split
      · rfl
      · exact ih hq hclauses.2
    · refine (handles_prospect hp body).exec_bind_congr (exec_prospect_withRunner h hp hclauses.1) fun fork q hq _ => ?_
      rw [Emission.exec_bind, Emission.exec_bind, ih hq hclauses.2]

/-- IF. -/
theorem exec_assemble_withRunner (h : g.StandsIn w run') (hp : g.Keeps P p) (loc : Location) {clauses : List Clause}
    {otherwise : Option (List Token)} (hclauses : ∀ c ∈ clauses, ∀ t ∈ c.body, g.source t)
    (hotherwise : ∀ body ∈ otherwise, ∀ t ∈ body, g.source t) :
    (assemble (w.withRunner run') loc clauses otherwise).exec p = (assemble w loc clauses otherwise).exec p := by
  refine (sift_yields hp otherwise clauses).exec_bind_congr (exec_sift_withRunner h hp otherwise hclauses)
    fun arms q hq harms => ?_
  -- the arm that is left comes from the statement
  have hlast := (sifted_forall harms hclauses hotherwise).2
  split
  · rw [undecided_eq, undecided_eq, Emission.exec_bind_of_ok (exec_forM_messages arms.forks q),
      Emission.exec_bind_of_ok (exec_forM_messages arms.forks q)]
    cases hbody : arms.otherwise with
    | none => rfl
    | some body =>
      have hsame : (alternative (w.withRunner run') (some body)).exec
          (q.1.pushAll ((messagesOf (arms.forks.map Prod.snd)).map .settled), q.2) =
          (alternative w (some body)).exec
            (q.1.pushAll ((messagesOf (arms.forks.map Prod.snd)).map .settled), q.2) := by
        have hsound : g.Keeps (fun _ => True)
            (q.1.pushAll ((messagesOf (arms.forks.map Prod.snd)).map .settled), q.2) :=
          ⟨hq.sound, fun _ _ => trivial⟩
        rw [alternative, alternative, map_eq_pure_bind, map_eq_pure_bind, Emission.exec_bind, Emission.exec_bind,
          exec_prospect_withRunner h hsound (hlast body hbody)]
      rw [Emission.exec_bind, Emission.exec_bind, hsame]
  · cases hbody : arms.otherwise with
    | none => rfl
    | some body =>
      refine h.exec_requireRunner fun run hagree => ?_
      refine (handles_fresh hq _ _ _).exec_bind_congr rfl fun b q hq _ => ?_
      refine exec_scope_congr ?_
      exact exec_expand_withRunner hagree b (hq.sound.opens .nest) (hlast body hbody) false

end Conditional

/-- Names are bound, and what can be expanded by now is. -/
theorem exec_localize_withRunner (hP : g.Admits P) (h : g.StandsIn w run') (hp : g.Keeps P p) {item : Item}
    (hbodies : ∀ body ∈ item.token.bodies, ∀ t ∈ body, g.source t) :
    (Pass.localize (w.withRunner run') item).exec p = (Pass.localize w item).exec p := by
  obtain ⟨token, pending⟩ := item
  cases token with
  | inclusion loc path loader => exact exec_inclusion_withRunner h hp loc path loader
  | cond loc clauses otherwise assembled =>
    cases assembled with
    | true =>
      -- it is decided without a runner
      have hdecide : ∀ w : Workbench, Pass.localize w ⟨.cond loc clauses otherwise true, pending⟩ =
          Conditional.decide ⟨.cond loc clauses otherwise true, pending⟩ clauses otherwise := fun _ => rfl
      rw [hdecide, hdecide]
    | false =>
      refine exec_assemble_withRunner h hp loc (fun c hc => ?_) fun body hbody => ?_
      · exact hbodies c.body (List.mem_append_left _ (List.mem_map_of_mem hc))
      · exact hbodies body (List.mem_append_right _ (Option.mem_toList.2 hbody))
  | dispatch d => exact exec_call_withRunner h hp false _ d
  | dup loc counter iteration body =>
    exact exec_dup_withRunner hP h hp false _ loc counter iteration (hbodies body List.mem_cons_self)
  | declare _ how _ => cases how <;> rfl
  | assign _ how _ _ => cases how <;> rfl
  | _ => rfl

/-- What is left is expanded. -/
theorem exec_expandRest_withRunner (hP : g.Admits P) (h : g.StandsIn w run') (hp : g.Keeps P p) {item : Item}
    (hbodies : ∀ body ∈ item.token.bodies, ∀ t ∈ body, g.source t) :
    (Pass.expandRest (w.withRunner run') item).exec p = (Pass.expandRest w item).exec p := by
  obtain ⟨token, pending⟩ := item
  cases token with
  | dispatch d => exact exec_call_withRunner h hp true _ d
  | dup loc counter iteration body =>
    exact exec_dup_withRunner hP h hp true _ loc counter iteration (hbodies body List.mem_cons_self)
  | _ => rfl

end Grammar

/-- Two steps emit the same for items of which something is known. -/
def Pass.SameOn (inMacro : Bool) (P : State → Item → Prop) (pass pass' : Pass) : Prop :=
  ∀ item s, P s item → (pass'.handle inMacro item).run s = (pass.handle inMacro item).run s

/-- Steps that handle such items in the same way do. -/
theorem Pass.sameOn_of_exec {inMacro : Bool} {P : State → Item → Prop} {pass pass' : Pass}
    (h : ∀ item s, P s item →
      (pass' item).exec (Output.empty inMacro, s) = (pass item).exec (Output.empty inMacro, s)) :
    pass.SameOn inMacro P pass' := by
  intro item s hitem
  rw [handle, handle]
  split
  · rfl
  · rw [Emission.run_output, Emission.run_output, h item s hitem]

namespace Stage

variable {R : State → State → Prop} {inMacro : Bool}

/-- The steps of a stage fit together as in `Stage.Chain`, and other steps emit the same for what these are given. -/
inductive Twins (R : State → State → Prop) (inMacro : Bool) :
    (State → Item → Prop) → List Pass → Pass → List Pass → Pass → Prop where
  /-- The last steps. -/
  | last {P Q : State → Item → Prop} {pass pass' : Pass} (hmaps : pass.Maps R inMacro P Q)
    (hsame : pass.SameOn inMacro P pass') : Twins R inMacro P [] pass [] pass'
  /-- Steps before others. -/
  | step {P M : State → Item → Prop} {pass pass' last last' : Pass} {passes passes' : List Pass}
    (hmaps : pass.Maps R inMacro P M) (hsame : pass.SameOn inMacro P pass') (hstable : Stable R M)
    (hrest : Twins R inMacro M passes last passes' last') :
    Twins R inMacro P (pass :: passes) last (pass' :: passes') last'

/-- Items that are handled in the same way, one after the other. -/
theorem feed_congr (hR : Progress R) {P : State → Item → Prop} (hP : Stable R P)
    {f f' : Item → Trail → StateM State Trail}
    (h : ∀ item t s, P s item → R s ((f item t).run s).2 ∧ (f' item t).run s = (f item t).run s)
    (items : List Item) (t : Trail) (s : State) (hitems : ∀ item ∈ items, P s item) :
    R s ((feed f items t).run s).2 ∧ (feed f' items t).run s = (feed f items t).run s := by
  induction items generalizing t s with
  | nil => exact ⟨hR.refl s, rfl⟩
  | cons item rest ih =>
    rw [List.forall_mem_cons] at hitems
    rw [feed, feed]
    split
    · exact ⟨hR.refl s, rfl⟩
    · obtain ⟨hrel, heq⟩ := h item t s hitems.1
      rw [StateM.run_bind, StateM.run_bind, heq]
      obtain ⟨hrel', heq'⟩ := ih ((f item t).run s).1 ((f item t).run s).2
        fun i hi => hP s _ i hrel (hitems.2 i hi)
      exact ⟨hR.trans _ _ _ hrel hrel', heq'⟩

/-- An item is taken through the steps in the same way. -/
theorem Twins.through (hR : Progress R) {P : State → Item → Prop} {passes passes' : List Pass} {last last' : Pass}
    (h : Twins R inMacro P passes last passes' last') (item : Item) (t : Trail) (s : State) (hitem : P s item) :
    R s ((through inMacro last passes item t).run s).2 ∧
      (Stage.through inMacro last' passes' item t).run s = (Stage.through inMacro last passes item t).run s := by
  induction h generalizing item t s with
  | @last P Q pass pass' hmaps hsame =>
    refine ⟨(hmaps item s hitem).1, ?_⟩
    rcases hout : (pass.handle inMacro item).run s with ⟨out, s'⟩
    rw [run_through_last hout, run_through_last ((hsame item s hitem).trans hout)]
  | @step P M pass pass' last last' passes passes' hmaps hsame hstable _ ih =>
    obtain ⟨hrel, hitems⟩ := hmaps item s hitem
    obtain ⟨hrel', heq⟩ := feed_congr hR hstable ih ((pass.handle inMacro item).run s).1.items t
      ((pass.handle inMacro item).run s).2 hitems
    refine ⟨hR.trans _ _ _ hrel hrel', ?_⟩
    rw [Stage.through, Stage.through, StateM.run_bind, StateM.run_bind, hsame item s hitem, StateM.run_bind,
      StateM.run_bind, heq]

/-- The items of a list are taken through the steps of a stage in the same way. -/
theorem Twins.run (hR : Progress R) {P : State → Item → Prop} (hP : Stable R P) {passes passes' : List Pass}
    {last last' : Pass} (h : Twins R inMacro P passes last passes' last') {items : List Item} {s : State}
    (hitems : ∀ item ∈ items, P s item) :
    (run inMacro passes' last' items).run s = (Stage.run inMacro passes last items).run s :=
  (feed_congr hR hP (h.through hR) items Trail.empty s hitems).2

end Stage

namespace Grammar

variable {w : Workbench} {run' : Runner}

theorem Knows.keeps {g : Grammar} {P : Item → Prop} {s : State} {item : Item} (h : g.Knows P s item)
    (inMacro : Bool) : g.Keeps (Travels false) (Output.empty inMacro, s) :=
  ⟨h.1, fun _ hmem => absurd hmem List.not_mem_nil⟩

/-- What waits is evaluated again, and not checked. -/
theorem maps_reduceAgain {inMacro : Bool} : (Pass.reduceAgain w).Maps (encoding false).Leads inMacro
    ((encoding false).Knows (Travels false)) ((encoding false).Knows (Returns false)) := by
  have hmaps : (Pass.reduceChecked (fun t => !false || t.isReady) w).Maps (encoding false).Leads inMacro
      ((encoding false).Knows (Travels false)) ((encoding false).Knows (Returns false)) := maps_again
  simp only [Bool.not_false, Bool.true_or] at hmaps
  rwa [Pass.reduceAgain_eq]

/-- The second stage of a block handles statements in the same way. -/
theorem twins_bind (h : (encoding false).StandsIn w run') :
    Stage.Twins (encoding false).Leads w.block.inMacro ((encoding false).Knows Declared)
      [.reduceFirst w] (.localize w) [.reduceFirst (w.withRunner run')] (.localize (w.withRunner run')) := by
  refine .step maps_evaluate (fun _ _ _ => rfl) ((encoding false).stable_knows _) (.last (maps_bind h.equips) ?_)
  refine Pass.sameOn_of_exec fun item s hitem => ?_
  exact exec_localize_withRunner (admits_travels fun t pending ht => travels_of_output ht pending) h (hitem.keeps _)
    fun body hbody => Token.everywhere_of_mem_bodies hitem.2.1 hbody

/-- So does the third one. -/
theorem twins_finish (h : (encoding false).StandsIn w run') :
    Stage.Twins (encoding false).Leads w.block.inMacro ((encoding false).Knows (Travels false))
      [.reduceAgain w, .localize w, .expandRest w, .ofToken Finish.relax, .ofToken (Finish.encode w)]
      (.ofToken (Finish.complete w))
      [.reduceAgain (w.withRunner run'), .localize (w.withRunner run'), .expandRest (w.withRunner run'),
        .ofToken Finish.relax, .ofToken (Finish.encode (w.withRunner run'))]
      (.ofToken (Finish.complete (w.withRunner run'))) := by
  have hstable := (encoding false).stable_knows
  have hadmits : (encoding false).Admits (Travels false) :=
    admits_travels fun t pending ht => travels_of_output ht pending
  refine .step maps_reduceAgain (fun _ _ _ => rfl) (hstable _) (.step (maps_decide h.equips) ?_ (hstable _) ?_)
  · exact Pass.sameOn_of_exec fun item s hitem => exec_localize_withRunner hadmits h (hitem.keeps _) hitem.2.1.bodies
  · refine .step (maps_expand h.equips) ?_ (hstable _) (.step maps_jump (fun _ _ _ => rfl) (hstable _) ?_)
    · exact Pass.sameOn_of_exec fun item s hitem =>
        exec_expandRest_withRunner hadmits h (hitem.keeps _) hitem.2.1.bodies
    · exact .step maps_instruct (fun _ _ _ => rfl) (hstable _) (.last maps_finish fun _ _ _ => rfl)

end Grammar

open Grammar in
/-- A block of statements over a sound scope is assembled in the same way by a runner that stands in. -/
theorem Workbench.run_withRunner {w : Workbench} {run' : Runner} (h : (encoding false).StandsIn w run')
    {source : List Token} (hsource : ∀ t ∈ source, t.isStatement = true) {s : State}
    (hs : (encoding false).Sound s.scope) : ((w.withRunner run').run source).run s = (w.run source).run s := by
  have hR : Progress (encoding false).Leads := ((encoding false).invariant fun _ => True).toProgress
  have hstable := (encoding false).stable_knows
  have hbinds : (encoding false).Binds w (Travels false) :=
    ⟨Declared, .last maps_declare, .step maps_evaluate (hstable _) (.last (maps_bind h.equips))⟩
  have hbound : ((w.withRunner run').bound source).run s = (w.bound source).run s := by
    -- no block begins in the first stage
    have hfirst : (w.withRunner run').declareStage source = w.declareStage source := rfl
    obtain ⟨-, hitems⟩ := leads_declareStage (.last maps_declare) hsource hs
    rw [run_bound, run_bound, hfirst]
    generalize (w.declareStage source).run s = d at hitems
    have hbind : ((w.withRunner run').bindStage d.1.items).run d.2 = (w.bindStage d.1.items).run d.2 :=
      (twins_bind h).run hR (hstable _) fun item hitem => hitems item (Stage.mem_messagesFirst.1 hitem)
    rw [hbind]
  obtain ⟨-, hitems⟩ := leads_bound hbinds hsource hs
  rw [run_eq, run_eq, run_runWith, run_runWith, hbound]
  exact (twins_finish h).run hR (hstable _) hitems

namespace Grammar

section SameOn

variable {g : Grammar} {P : Item → Prop} {w : Workbench} {run' : Runner} (inMacro : Bool)
  (hbodies : ∀ item, P item → ∀ body ∈ item.token.bodies, ∀ t ∈ body, g.source t)

include hbodies

/-- Statements of a block are bound and expanded in the same way by a runner that stands in. -/
theorem sameOn_withRunner (h : g.StandsIn w run') :
    (Pass.localize w).SameOn inMacro (g.Knows P) (.localize (w.withRunner run')) ∧
      (Pass.expandRest w).SameOn inMacro (g.Knows P) (.expandRest (w.withRunner run')) := by
  have hkeeps : ∀ {s : State} {item : Item}, g.Knows P s item →
      g.Keeps (fun _ => True) (Output.empty inMacro, s) :=
    fun hitem => ⟨hitem.1, fun _ _ => trivial⟩
  refine ⟨Pass.sameOn_of_exec fun item s hitem => ?_, Pass.sameOn_of_exec fun item s hitem => ?_⟩
  · exact exec_localize_withRunner (admits_true _) h (hkeeps hitem) (hbodies item hitem.2)
  · exact exec_expandRest_withRunner (admits_true _) h (hkeeps hitem) (hbodies item hitem.2)

/-- They are where blocks are nested as deep. -/
theorem sameOn_runner (hw : g.Equips w) {other : Option Runner} (h : Option.Rel g.Agree w.runner other) :
    (Pass.localize w).SameOn inMacro (g.Knows P) (.localize { w with runner := other }) ∧
      (Pass.expandRest w).SameOn inMacro (g.Knows P) (.expandRest { w with runner := other }) := by
  obtain ⟨a, b, runner⟩ := w
  cases h with
  | none => exact ⟨fun _ _ _ => rfl, fun _ _ _ => rfl⟩
  | @some run run' hagree => exact sameOn_withRunner inMacro hbodies ⟨hw, run, rfl, hagree⟩

omit hbodies in
/-- Items are evaluated again in the same way if what comes of them passes the check. -/
theorem sameOn_reduceChecked {check : Token → Bool}
    (hcheck : ∀ item t', P item → item.token.Reduces w.around t' → check t' = true) :
    (Pass.reduceAgain w).SameOn inMacro (g.Knows P) (.reduceChecked check w) := by
  refine Pass.sameOn_of_exec fun item s hitem => ?_
  rw [Pass.reduceAgain_eq, Pass.reduceChecked, Pass.reduceChecked]
  split
  · have hkeeps : g.Keeps (fun _ => True) (Output.empty inMacro, s) := ⟨hitem.1, fun _ _ => trivial⟩
    refine (reduce_handles hkeeps item.token).exec_bind_congr rfl fun t' q _ ht' => ?_
    rw [if_pos (hcheck item t' hitem.2 ⟨s, q.2, ht'⟩), if_pos rfl]
  · rfl

end SameOn

/-- Nested blocks are assembled as they are in another way, if that is so for each block over nested blocks that
are. -/
theorem agree_runner {g : Grammar} {a : Assembler} {other : Nat → Option Runner}
    {run : Workbench → List Token → StateM State Trail} (hzero : other 0 = none)
    (hsucc : ∀ depth, other (depth + 1) = some fun b source => Assembler.shield (run ⟨a, b, other depth⟩ source))
    (hrun : ∀ b depth, Option.Rel g.Agree (a.runner depth) (other depth) →
      ∀ source, (∀ t ∈ source, g.source t) → ∀ s : State, g.Sound s.scope →
        (run ⟨a, b, other depth⟩ source).run s = (Workbench.run ⟨a, b, a.runner depth⟩ source).run s) (depth : Nat) :
    Option.Rel g.Agree (a.runner depth) (other depth) := by
  induction depth with
  | zero =>
    rw [hzero]
    exact .none
  | succ depth ih =>
    rw [hsucc]
    refine .some fun b body s hbody hs => ?_
    have hsame := hrun b depth ih body hbody { s with bankSwitched := false } hs
    rcases hran : (Workbench.run ⟨a, b, a.runner depth⟩ body).run { s with bankSwitched := false } with ⟨t, s'⟩
    exact (Assembler.run_shield (hsame.trans hran)).trans (Assembler.run_shield hran).symm

end Grammar

namespace Grammar.Closed

section Congruence

variable {S : Token → Prop} {gone : Text → Prop} {w : Workbench} {again bind expand : Pass}
  (hS : Closed S gone) (hw : (uniform S gone).Equips w)
  (hagain : (Pass.reduceAgain w).SameOn w.block.inMacro ((uniform S gone).Knows (Carries S)) again)
  (hbind : (Pass.localize w).SameOn w.block.inMacro ((uniform S gone).Knows (Carries S)) bind)
  (hexpand : (Pass.expandRest w).SameOn w.block.inMacro ((uniform S gone).Knows (Carries S)) expand)

include hS hw

/-- Steps that handle items with a property in the same way take each other's place, if no step loses the property. -/
theorem twins {passes passes' : List Pass} {last last' : Pass}
    (hlast : last ∈ w.passes ∧ last.SameOn w.block.inMacro ((uniform S gone).Knows (Carries S)) last')
    (h : List.Forall₂ (fun p p' => p ∈ w.passes ∧
      p.SameOn w.block.inMacro ((uniform S gone).Knows (Carries S)) p') passes passes') :
    Stage.Twins (uniform S gone).Leads w.block.inMacro ((uniform S gone).Knows (Carries S))
      passes last passes' last' := by
  induction h with
  | nil => exact .last (hS.maps hw hlast.1) hlast.2
  | cons hp _ ih => exact .step (hS.maps hw hp.1) hp.2 ((uniform S gone).stable_knows _) ih

include hbind in
/-- The second stage of a block, by a step that binds names in the same way. -/
theorem run_bindStage {items : List Item} {s : State}
    (hitems : ∀ i ∈ items, (uniform S gone).Knows (Carries S) s i) :
    (Stage.run w.block.inMacro [.reduceFirst w] bind (Stage.messagesFirst items)).run s =
      (w.bindStage items).run s := by
  have hR : Progress (uniform S gone).Leads := ((uniform S gone).invariant fun _ => True).toProgress
  have htwins : Stage.Twins (uniform S gone).Leads w.block.inMacro ((uniform S gone).Knows (Carries S))
      [.reduceFirst w] (.localize w) [.reduceFirst w] bind := by
    refine hS.twins hw ⟨?_, hbind⟩ (.cons ⟨?_, fun _ _ _ => rfl⟩ .nil)
    all_goals simp [Workbench.passes]
  exact htwins.run hR ((uniform S gone).stable_knows _) fun i hi => hitems i (Stage.mem_messagesFirst.1 hi)

include hagain hbind hexpand in
/-- The third stage of a block, by steps that evaluate, bind names and expand in the same way. -/
theorem run_finishStage {items : List Item} {s : State}
    (hitems : ∀ i ∈ items, (uniform S gone).Knows (Carries S) s i) :
    (Stage.run w.block.inMacro [again, bind, expand, .ofToken Finish.relax, .ofToken (Finish.encode w)]
      (.ofToken (Finish.complete w)) (Stage.messagesFirst items)).run s = (w.finishStage items).run s := by
  have hR : Progress (uniform S gone).Leads := ((uniform S gone).invariant fun _ => True).toProgress
  have htwins : Stage.Twins (uniform S gone).Leads w.block.inMacro ((uniform S gone).Knows (Carries S))
      [.reduceAgain w, .localize w, .expandRest w, .ofToken Finish.relax, .ofToken (Finish.encode w)]
      (.ofToken (Finish.complete w))
      [again, bind, expand, .ofToken Finish.relax, .ofToken (Finish.encode w)]
      (.ofToken (Finish.complete w)) := by
    refine hS.twins hw ⟨?_, fun _ _ _ => rfl⟩ (.cons ⟨?_, hagain⟩ (.cons ⟨?_, hbind⟩ (.cons ⟨?_, hexpand⟩
      (.cons ⟨?_, fun _ _ _ => rfl⟩ (.cons ⟨?_, fun _ _ _ => rfl⟩ .nil)))))
    all_goals simp [Workbench.passes]
  exact htwins.run hR ((uniform S gone).stable_knows _) fun i hi => hitems i (Stage.mem_messagesFirst.1 hi)

end Congruence

end Grammar.Closed

end MacroAsm
