import MacroAsm.Proofs.Assembly.Conduct
import MacroAsm.Proofs.Assembly.Ordering
import MacroAsm.Proofs.Assembly.Reachable

/-!
# The conduct of blocks

A statement that stands for a block, and every step of the stages of a block, does to the scope what
`Scope.Conducts` tells, and leaves the mark of a bank switch alone (`Pass.conducts_handle`). The one step that
touches the mark is the one that turns jumps into branches, and a nested block puts the mark back where it ends, so
that whole blocks conduct themselves in the same way (`Assembler.conducts_runnerWithin`).

Which symbols SET and RADIX may bind is a parameter `may` here: any other one ends the program. The runs of a program
are the case in which they may bind all (`Assembler.assemble_eq_assembleWithin`).
-/

namespace MacroAsm

open State.Conducts (invariant progress)

variable {may : Text → Symbol → Bool}

/-- Whatever a runner assembles conducts itself as told. -/
def Runner.Conducts (may : Text → Symbol → Bool) (run : Runner) : Prop :=
  ∀ b body s, State.Conducts may s ((run b body).run s).2

/-- Nested blocks conduct themselves as told. -/
def Workbench.Conducts (may : Text → Symbol → Bool) (w : Workbench) : Prop :=
  ∀ run, w.runner = some run → run.Conducts may

namespace Emission

variable {α : Type}

theorem Conducts.perform {x : StateM State α} (hx : ∀ s, State.Conducts may s (x.run s).2) :
    Conducts may (Emission.perform x) :=
  fun p => ⟨hx p.2, trivial, fun _ _ => trivial⟩

theorem Conducts.fresh (naming : Naming) (args : List Expr) (inMacro : Bool) :
    Conducts may (liftM (Block.fresh naming args inMacro) : Emission Block) :=
  .act fun _ => ⟨.of_scope_eq rfl rfl, fun _ _ => trivial⟩

/-- A handling that asks for the runner of nested blocks. -/
theorem Conducts.runner {w : Workbench} (hw : w.Conducts may) {k : Runner → Emission α}
    (hk : ∀ run : Runner, run.Conducts may → (k run).Conducts may) : (w.requireRunner >>= k).Conducts may := by
  intro p
  have hrun : Yields (State.Conducts may) (fun _ => True) (fun run _ => run.Conducts may) w.requireRunner p := by
    rw [Workbench.requireRunner]
    split
    · rename_i run hrunner
      exact .pure invariant trivial (hw run hrunner)
    · exact .report invariant trivial _
  exact hrun.bind invariant fun run q _ _ hrun => hk run hrun q

end Emission

variable {w : Workbench}

/-- The account of the names of a block moves those that wait, and leaves the mark of a bank switch. -/
theorem hoists_account {s : State} (hs : s.scope.WellFormed) (nested : Bool) :
    s.scope.Hoists ((account nested).run s).2.scope ∧
      ((account nested).run s).2.bankSwitched = s.bankSwitched :=
  ⟨(Scope.hoists_account nested hs).1, rfl⟩

namespace Expand

/-- A nested block is assembled over a frame of its own. -/
theorem yields_expand {run : Runner} (hrun : run.Conducts may) (b : Block) {scope : Scope} {p : Output × State}
    (hopens : p.2.scope.Opens scope) (body : List Token) (macroCall : Bool) :
    Emission.Yields (State.Conducts may) (fun _ => True) (fun _ _ => True) (expand run b scope body macroCall) p := by
  have hconducts := hrun b body { p.2 with scope }
  generalize hr : (run b body).run { p.2 with scope } = r at hconducts
  have hran : p.2.scope.WellFormed → Scope.Conducts may scope r.2.scope ∧ r.2.scope.WellFormed :=
    fun hs => ⟨hconducts.scope (hs.of_opens hopens),
      (hconducts.scope (hs.of_opens hopens)).wellFormed (hs.of_opens hopens)⟩
  refine ⟨?_, trivial, fun _ _ => trivial⟩
  rw [exec_expand run b scope body macroCall p hr rfl]
  split
  · exact ⟨fun hs => .block hopens (hran hs).1 (.refl _), hconducts.bankSwitched⟩
  · exact ⟨fun hs => .block hopens (hran hs).1 (hoists_account (hran hs).2 b.nested).1, hconducts.bankSwitched⟩

/-- INCLUDE. -/
theorem conducts_inclusion (hw : w.Conducts may) (loc : Location) (path : Expr) (loader : Option Expr) :
    (inclusion w loc path loader).Conducts may := by
  have hfound : ∀ body : List Token, Emission.Conducts may (do
      let run ← w.requireRunner
      let b ← Block.fresh w.assembler.naming w.around.args w.block.inMacro
      splice false (← Emission.perform (run b body))) := fun body =>
    .runner hw fun run hrun => (Emission.Conducts.fresh _ _ _).bind fun b =>
      (Emission.Conducts.perform (hrun b body)).bind fun _ => .emitItems _
  rw [inclusion]
  split
  · exact .report _
  · split
    · exact .raise _
    · refine (Emission.Conducts.require _).bind fun path => ?_
      cases loader with
      | none =>
        refine (Emission.Conducts.pure _).bind fun loader => ?_
        dsimp only
        split
        · exact .report _
        · exact hfound _
      | some e =>
        refine (Emission.Conducts.require _).bind fun loader => ?_
        dsimp only
        split
        · exact .report _
        · exact hfound _

/-- A macro call. -/
theorem conducts_call (hw : w.Conducts may) (strict : Bool) (item : Item) (d : Dispatch) :
    (call w strict item d).Conducts may := by
  rw [call]
  refine .scope fun p => ?_
  split
  · exact Emission.Conducts.emitItem item p
  · rename_i name m _
    split
    · split
      · exact Emission.Conducts.report _ p
      · exact Emission.Conducts.emitItem item p
    · have hused : Emission.Conducts may (liftM (Act.modifyScope fun s =>
          s.modify name fun sym => { sym with used := true }) : Emission PUnit) :=
        .act fun s => ⟨.act (.mark name _ (fun _ => ⟨⟨rfl, rfl, rfl, rfl, fun _ => rfl, id, Or.inl rfl⟩, id⟩)
          fun _ => rfl), fun _ _ => trivial⟩
      refine hused.bind (fun _ => ?_) p
      split
      · exact .report _
      · refine .runner hw fun run hrun => (Emission.Conducts.fresh _ _ _).bind fun b => .scope fun q => ?_
        refine (Emission.Yields.require (Q := fun scope s => s.scope.Opens scope) invariant trivial
          fun scope h => Scope.opens_bindAll .nest h).bind invariant fun scope q _ _ hopens => ?_
        exact yields_expand hrun b hopens m.body true

end Expand

namespace Replay

/-- One iteration. -/
theorem conducts_turn (hw : w.Conducts may) (l : Loop) (k : Nat) (value : Option Expr) :
    (l.turn w k value).Conducts may := by
  refine .runner hw fun run hrun => (Emission.Conducts.fresh _ _ _).bind fun b => .scope fun p => ?_
  refine (Emission.Yields.require (Q := fun scope s => s.scope.Opens scope) invariant trivial
    fun scope h => Scope.opens_loop h).bind invariant fun scope q _ _ hopens => ?_
  exact Expand.yields_expand hrun b hopens l.body false

/-- Turns that are counted. -/
theorem conducts_times {turn : Nat → Emission PUnit} (hturn : ∀ k, (turn k).Conducts may) (n k : Nat) :
    (times turn n k).Conducts may := by
  induction n generalizing k with
  | zero => exact .pure _
  | succ n ih =>
    refine Emission.Conducts.isClosed.bind fun closed => ?_
    split
    · exact .pure _
    · exact (hturn k).bind fun _ => ih (k + 1)

/-- Turns for the elements of a list. -/
theorem conducts_each {turn : Nat → Expr → Emission PUnit} (hturn : ∀ k e, (turn k e).Conducts may) (es : List Expr)
    (k : Nat) : (each turn es k).Conducts may := by
  induction es generalizing k with
  | nil => exact .pure _
  | cons e rest ih =>
    refine Emission.Conducts.isClosed.bind fun closed => ?_
    split
    · exact .pure _
    · exact (hturn k e).bind fun _ => ih (k + 1)

/-- A statement that waits for its bounds. -/
theorem conducts_defer (strict : Bool) (item : Item) (e : Expr) : (defer strict item e).Conducts may := by
  rw [defer]
  split
  · exact .raise _
  · exact .emitItem item

/-- The name of the number of an iteration. -/
theorem conducts_nameOr (u : Surroundings) (e : Option Expr) :
    Emission.Conducts may (liftM (nameOr u e) : Emission Text) := by
  cases e with
  | none => exact .act fun s => .pure (progress.refl s) trivial
  | some e => exact .nameOf u e

/-- DUPF. -/
theorem conducts_sequence (hw : w.Conducts may) (item : Item) (strict : Bool) (loc : Location)
    (counter : Option Expr) (element : Expr) (first last step : Option Expr) (body : List Token) :
    (sequence w item strict loc counter element first last step body).Conducts may := by
  rw [sequence.eq_def]
  split
  · exact conducts_defer strict item _
  · refine (Emission.Conducts.require _).bind fun start => (Emission.Conducts.require _).bind fun stride => ?_
    split
    · exact .report _
    · refine (Emission.Conducts.require _).bind fun stop => ?_
      split
      · exact .report _
      · refine (conducts_nameOr w.around counter).bind fun counter => ?_
        refine (Emission.Conducts.nameOf w.around element).bind fun element => ?_
        rw [walk_eq_times]
        exact conducts_times (fun k => conducts_turn hw _ k _) _ _

/-- DUP, DUPA, DUPC and DUPF. -/
theorem conducts_dup (hw : w.Conducts may) (strict : Bool) (item : Item) (loc : Location) (counter : Option Expr)
    (iteration : Iteration) (body : List Token) : (dup w strict item loc counter iteration body).Conducts may := by
  cases iteration with
  | count n =>
    rw [dup]
    split
    · refine (Emission.Conducts.require _).bind fun n => (conducts_nameOr w.around counter).bind fun counter => ?_
      exact conducts_times (fun k => conducts_turn hw _ k none) _ _
    · exact conducts_defer strict item n
  | list element items =>
    rw [dup]
    split
    · exact conducts_defer strict item _
    · refine (conducts_nameOr w.around counter).bind fun counter => ?_
      refine (Emission.Conducts.nameOf w.around element).bind fun element => ?_
      exact conducts_each (fun k e => conducts_turn hw _ k (some e)) _ _
  | characters element strings =>
    rw [dup]
    split
    · exact conducts_defer strict item _
    · refine (conducts_nameOr w.around counter).bind fun counter => ?_
      refine (Emission.Conducts.nameOf w.around element).bind fun element => ?_
      refine (Emission.Conducts.require _).bind fun items => ?_
      exact conducts_each (fun k e => conducts_turn hw _ k (some e)) _ _
  | sequence element first last step => exact conducts_sequence hw item strict loc counter element first last step body

end Replay

namespace Conditional

/-- A handling leaves the mark of a bank switch, whatever it does to the scope on the way. -/
abbrev Spares {α : Type} (e : Emission α) : Prop :=
  ∀ p, Emission.Yields (fun s s' => s'.bankSwitched = s.bankSwitched) (fun _ => True) (fun _ _ => True) e p

/-- Leaving the mark is a preorder. -/
theorem invariant_spares : Emission.Invariant (fun s s' => s'.bankSwitched = s.bankSwitched) fun _ => True where
  refl _ := rfl
  trans _ _ _ hxy hyz := hyz.trans hxy
  stable _ _ _ _ _ := trivial

theorem Spares.bind {α β : Type} {e : Emission α} {k : α → Emission β} (he : Spares e) (hk : ∀ a, Spares (k a)) :
    Spares (e >>= k) :=
  fun p => (he p).bind invariant_spares fun a q _ _ _ => hk a q

theorem Spares.of_conducts {α : Type} {e : Emission α} (he : e.Conducts fun _ _ => true) : Spares e :=
  fun p => ⟨(he p).rel.bankSwitched, trivial, fun _ _ => trivial⟩

theorem Spares.act {α : Type} {x : Act α} (hx : ∀ s, (x.exec s).2.bankSwitched = s.bankSwitched) :
    Spares (liftM x : Emission α) :=
  fun p => ⟨hx p.2, trivial, fun _ _ => trivial⟩

/-- Assembling an arm leaves the mark. -/
theorem spares_prospect (hw : w.Conducts may) (body : List Token) : Spares (prospect w body) := by
  have hcollect : ∀ run : Runner, run.Conducts may → ∀ b, Spares (Emission.perform (collect run b body)) := by
    intro run hrun b p
    refine ⟨?_, trivial, fun _ _ => trivial⟩
    have hran := (hrun b body p.2).bankSwitched
    change ((collect run b body).run p.2).2.bankSwitched = _
    rw [run_collect]
    split <;> exact hran
  have hset : ∀ scope, Spares (liftM (Act.setScope scope) : Emission PUnit) := fun _ => .act fun _ => rfl
  have hscope : Spares (liftM Act.scope : Emission Scope) := .act fun _ => rfl
  refine hscope.bind fun scope p => ?_
  have hrunner : Emission.Yields (fun s s' => s'.bankSwitched = s.bankSwitched) (fun _ => True)
      (fun run _ => run.Conducts may) w.requireRunner p := by
    rw [Workbench.requireRunner]
    split
    · rename_i run hrun
      exact .pure invariant_spares trivial (hw run hrun)
    · exact .report invariant_spares trivial _
  refine hrunner.bind invariant_spares fun run q _ _ hrun => ?_
  refine (Spares.of_conducts (.fresh _ _ _)).bind (fun b => (hset _).bind fun _ => (hcollect run hrun b).bind
    fun out => hscope.bind fun copy => (hset _).bind fun _ => ?_) q
  split
  · exact .of_conducts (.report _)
  · exact .of_conducts (.pure _)

/-- Going through the arms of an IF leaves the mark. -/
theorem spares_sift (hw : w.Conducts may) (otherwise : Option (List Token)) (clauses : List Clause) :
    Spares (sift w otherwise clauses) := by
  induction clauses with
  | nil => exact .of_conducts (.pure _)
  | cons c rest ih =>
    obtain ⟨test, body⟩ := c
    rw [sift]
    split
    · refine (Spares.of_conducts (.require _)).bind fun taken => ?_
      split
      · exact .of_conducts (.pure _)
      · exact ih
    · exact (spares_prospect hw body).bind fun fork => ih.bind fun arms => .of_conducts (.pure _)

/-- An IF that only the linker can decide leaves the mark. -/
theorem spares_undecided (hw : w.Conducts may) (loc : Location) (arms : Arms) : Spares (undecided w loc arms) := by
  have hfinal : Spares (alternative w arms.otherwise) := by
    rw [alternative.eq_def]
    split
    · exact .of_conducts (.pure _)
    · rw [map_eq_pure_bind]
      exact (spares_prospect hw _).bind fun fork => .of_conducts (.pure _)
  rw [undecided_eq]
  refine (Spares.of_conducts (.forM fun arm => .emitItems _)).bind fun _ => hfinal.bind fun final => ?_
  have hannounce : Spares (announce final) := by
    cases final with
    | none => exact .of_conducts (.pure _)
    | some fork => exact .of_conducts (.emitItems _)
  have hscope : Spares (liftM Act.scope : Emission Scope) := .act fun _ => rfl
  refine hannounce.bind fun _ => hscope.bind fun scope => ?_
  refine (Spares.act (x := Act.setScope _) fun _ => rfl).bind fun _ => ?_
  split
  · exact .of_conducts (.raise _)
  · exact .of_conducts (.emitItem _)

/-- An arm conducts itself as told over its copy of the scope, up to the account of its names. -/
theorem exists_of_isArm (hw : w.Conducts may) {scope : Scope} (hs : scope.WellFormed) {body : List Token} {fork : Fork}
    (h : IsArm w scope body fork) :
    ∃ t t', Scope.Conducts may scope.nest t ∧ t.Hoists t' ∧ fork.scope = t'.unnest := by
  obtain ⟨run, b, s, hrunner, -, -, -, hscope, -, rfl⟩ := h
  have hopened : s.scope.WellFormed := by
    rw [hscope]
    exact hs.of_opens .nest
  have hran := (hw run hrunner b body s).scope hopened
  rw [hscope] at hran
  rw [run_collect]
  split
  · exact ⟨_, _, hran, .refl _, rfl⟩
  · exact ⟨_, _, hran, (hoists_account (hran.wellFormed (hs.of_opens .nest)) b.nested).1, rfl⟩

/-- Arms that were assembled against copies of the scope are merged. -/
theorem conducts_mergeForks (hw : w.Conducts may) {scope : Scope} (hs : scope.WellFormed) {forks : List (Expr × Fork)}
    (hforks : ∀ arm ∈ forks, ∃ body, IsArm w scope body arm.2) {final : Option Fork}
    (hfinal : ∀ fork ∈ final, ∃ body, IsArm w scope body fork) :
    Scope.Conducts may scope (mergeForks ((final.map Fork.scope).getD scope) forks scope).1 := by
  -- the scope that each arm leaves, with the frame of its block, before and after the account of its names
  have hafter : ∀ fork, ∃ t : Scope × Scope, (∃ body, IsArm w scope body fork) →
      Scope.Conducts may scope.nest t.1 ∧ t.1.Hoists t.2 ∧ fork.scope = t.2.unnest := by
    intro fork
    by_cases h : ∃ body, IsArm w scope body fork
    · obtain ⟨body, harm⟩ := h
      obtain ⟨t, t', ht⟩ := exists_of_isArm hw hs harm
      exact ⟨(t, t'), fun _ => ht⟩
    · exact ⟨(scope, scope), fun h' => absurd h' h⟩
  choose after hafter using hafter
  have hlast : (final.map Fork.scope).getD scope =
      (((final.map after).map Prod.snd).map Scope.unnest).getD scope := by
    cases final with
    | none => rfl
    | some fork => exact (hafter fork (hfinal fork rfl)).2.2
  rw [hlast]
  refine .fork scope forks (fun fork => (after fork).1) (fun fork => (after fork).2)
    (fun arm harm => (hafter arm.2 (hforks arm harm)).1)
    (fun arm harm => (hafter arm.2 (hforks arm harm)).2.1)
    (fun arm harm => (hafter arm.2 (hforks arm harm)).2.2) (final.map after) (fun t ht => ?_)
    fun t ht => ?_
  · obtain ⟨fork, hfork, rfl⟩ := Option.mem_map.1 ht
    exact (hafter fork (hfinal fork hfork)).1
  · obtain ⟨fork, hfork, rfl⟩ := Option.mem_map.1 ht
    exact (hafter fork (hfinal fork hfork)).2.1

/-- An IF that only the linker can decide. -/
theorem yields_undecided (hw : w.Conducts may) (loc : Location) {arms : Arms} {p : Output × State}
    (hforks : ∀ arm ∈ arms.forks, ∃ body, IsArm w p.2.scope body arm.2) :
    Emission.Yields (State.Conducts may) (fun _ => True) (fun _ _ => True) (undecided w loc arms) p := by
  refine ⟨⟨fun hs => ?_, (spares_undecided hw loc arms p).rel⟩, trivial, fun _ _ => trivial⟩
  rcases exec_undecided w loc arms p with ⟨f, s, hexec, hscope, -⟩ | ⟨final, s, hfinal, hscope, hexec⟩
  · rw [hexec]
    dsimp only
    rw [hscope]
    exact .refl _
  · have hmerges := conducts_mergeForks hw hs hforks fun fork hfork =>
      (hfinal.isArm fork hfork).imp fun _ h => h.2
    rw [hexec, exec_conclude loc arms.forks final _ s rfl, hscope]
    split <;> exact hmerges

/-- IF. -/
theorem conducts_assemble (hw : w.Conducts may) (loc : Location) (clauses : List Clause)
    (otherwise : Option (List Token)) : (assemble w loc clauses otherwise).Conducts may := by
  intro p
  obtain ⟨-, hscope, hsifted⟩ := exec_sift w otherwise clauses p
  have hsift : Emission.Yields (State.Conducts may) (fun _ => True)
      (fun arms s => Sifted w s.scope otherwise clauses arms) (sift w otherwise clauses) p := by
    refine ⟨.of_scope_eq hscope (spares_sift hw otherwise clauses p).rel, trivial, fun arms harms => ?_⟩
    rw [hscope]
    exact hsifted arms harms
  refine hsift.bind invariant fun arms q _ _ harms => ?_
  have hforks := (Grammar.sifted_forall (g := Grammar.any) harms (fun _ _ _ _ => trivial) fun _ _ _ _ => trivial).1
  split
  · exact yields_undecided hw loc fun arm harm => (hforks arm harm).imp fun _ h => h.2
  · split
    · exact Emission.Conducts.pure _ q
    · rename_i body _
      refine Emission.Conducts.runner hw (fun run hrun => ?_) q
      exact (Emission.Conducts.fresh _ _ _).bind fun b => .scope fun q => Expand.yields_expand hrun b .nest body false

/-- An IF that was assembled before. -/
theorem conducts_decide (item : Item) (clauses : List Clause) (otherwise : Option (List Token)) :
    (decide item clauses otherwise).Conducts may := by
  refine (Emission.Conducts.require _).bind fun r => ?_
  split
  · exact .emitItem item
  · exact .emitItems _

end Conditional

namespace Pass

/-- The step that binds names, where SET and RADIX must bind only symbols that `may` allows. -/
def localizeWithin (may : Text → Symbol → Bool) (w : Workbench) : Pass := fun item =>
  match item.token with
  | .radix loc value => Bind.setRadixWithin may loc value
  | .assign loc .set name value => Bind.assignWithin may w loc name value
  | _ => localize w item

/-- The step that binds names binds all that is allowed if everything is. -/
theorem localize_eq (w : Workbench) : localize w = localizeWithin (fun _ _ => true) w := by
  funext item
  rw [localizeWithin]
  split
  · rename_i htoken
    rw [localize, htoken]
    exact congrArg liftM (Bind.setRadix_eq _ _)
  · rename_i htoken
    rw [localize, htoken]
    exact congrArg liftM (Bind.assign_eq w _ _ _)
  · rfl

/-- The step that binds names and expands what can be expanded by now, where SET and RADIX must bind only symbols
that `may` allows. -/
theorem conducts_localizeWithin (hw : w.Conducts may) (item : Item) : (localizeWithin may w item).Conducts may := by
  obtain ⟨token, pending⟩ := item
  cases token with
  | inclusion loc path loader => exact Expand.conducts_inclusion hw loc path loader
  | radix loc value => exact .act (Bind.setRadixWithin_conducts loc value)
  | declare loc how names =>
    cases how with
    | locally => exact Bind.conducts_declareLocals loc names
    | _ => exact .emitItem _
  | assign loc how name value =>
    cases how with
    | set => exact .act (Bind.assignWithin_conducts loc name value)
    | equate => exact .act (Bind.equate_conducts loc name value)
    | define => exact .act (Bind.define_conducts loc name value)
  | label loc name => exact Bind.conducts_label loc name
  | retract loc what names => exact Bind.conducts_retract loc what names
  | macroDef loc name parameters body => exact Bind.conducts_defineMacro loc name parameters body
  | cond loc clauses otherwise assembled =>
    cases assembled with
    | true => exact Conditional.conducts_decide _ clauses otherwise
    | false => exact Conditional.conducts_assemble hw loc clauses otherwise
  | dispatch d => exact Expand.conducts_call hw false _ d
  | dup loc counter iteration body => exact Replay.conducts_dup hw false _ loc counter iteration body
  | _ => exact .emitItem _

/-- The step that binds names, whatever SET and RADIX bind. -/
theorem conducts_localize (hw : w.Conducts fun _ _ => true) (item : Item) :
    (localize w item).Conducts fun _ _ => true := by
  rw [localize_eq]
  exact conducts_localizeWithin hw item

/-- The step that expands the rest. -/
theorem conducts_expandRest (hw : w.Conducts may) (item : Item) : (expandRest w item).Conducts may := by
  obtain ⟨token, pending⟩ := item
  cases token with
  | dispatch d => exact Expand.conducts_call hw true _ d
  | dup loc counter iteration body => exact Replay.conducts_dup hw true _ loc counter iteration body
  | _ => exact .emitItem _

theorem conducts_reduce (w : Workbench) (t : Token) :
    Emission.Conducts may (liftM (Token.reduce w.around t) : Emission Token) :=
  .act fun s => ⟨(Token.reduce_yields (State.Conducts.evaluates w.around) t s).1, fun _ _ => trivial⟩

theorem conducts_getThe : Emission.Conducts may (getThe State : Emission State) :=
  fun p => ⟨progress.refl p.2, trivial, fun _ _ => trivial⟩

theorem conducts_reduceFirst (w : Workbench) (item : Item) : (reduceFirst w item).Conducts may :=
  conducts_getThe.bind fun _ => (conducts_reduce w item.token).bind fun _ =>
    conducts_getThe.bind fun _ => .emitItem _

/-- The step that evaluates again. -/
theorem conducts_reduceAgain (w : Workbench) (item : Item) : (reduceAgain w item).Conducts may := by
  rw [reduceAgain]
  split
  · exact (conducts_reduce w item.token).bind fun _ => .emitItem _
  · exact .emitItem _

/-- What an encoding gives. -/
theorem conducts_encoded (r : Except Diagnostic (List Token)) : (Finish.encoded r).Conducts may := by
  cases r with
  | ok ts => exact .emitItems _
  | error d => exact .report d

/-- The step that encodes instructions. -/
theorem conducts_encode (w : Workbench) (item : Item) : (ofToken (Finish.encode w) item).Conducts may := by
  obtain ⟨token, pending⟩ := item
  cases token with
  | dispatch d => exact (Emission.Conducts.nameOf w.around d.callee).bind fun _ => conducts_encoded _
  | _ => exact .emitItem _

/-- The step that encodes data and shows texts. -/
theorem conducts_complete (w : Workbench) (item : Item) : (ofToken (Finish.complete w) item).Conducts may := by
  obtain ⟨token, pending⟩ := item
  cases token with
  | exitMacro loc =>
    rw [ofToken, Finish.complete]
    split
    · exact .emitItem _
    · exact .report _
  | data loc kind values => exact conducts_encoded _
  | display loc kind text =>
    rw [ofToken, Finish.complete]
    split
    · exact (Emission.Conducts.require _).bind fun _ => .emitItem _
    · exact .emitItem _
  | _ => exact .emitItem _

/-- A step that turns jumps into branches keeps the scope. -/
theorem scope_relax (item : Item) (p : Output × State) :
    ((ofToken Finish.relax item).exec p).2.2.scope = p.2.scope := by
  obtain ⟨token, pending⟩ := item
  cases token <;> rfl

/-- What the handling of an item does to the state is what the step does. -/
theorem rel_handle {R : State → State → Prop} (hR : Progress R) {pass : Pass} {item : Item}
    (h : ∀ p : Output × State, R p.2 ((pass item).exec p).2.2) (inMacro : Bool) (s : State) :
    R s ((pass.handle inMacro item).run s).2 := by
  rw [handle]
  split
  · exact hR.refl s
  · have hafter := h (Output.empty inMacro, s)
    rw [Emission.run_output]
    rcases hexec : (pass item).exec (Output.empty inMacro, s) with ⟨r, q⟩
    rw [hexec] at hafter
    cases r <;> exact hafter

theorem conducts_handle {pass : Pass} {item : Item} (h : (pass item).Conducts may) (inMacro : Bool) (s : State) :
    State.Conducts may s ((pass.handle inMacro item).run s).2 :=
  rel_handle progress (fun p => (h p).rel) inMacro s

end Pass

/-- What the handling of statements does to a well formed scope. -/
def State.Alters (may : Text → Symbol → Bool) (s s' : State) : Prop :=
  s.scope.WellFormed → Scope.Conducts may s.scope s'.scope

theorem State.progress_alters : Progress (State.Alters may) where
  refl s _ := .refl s.scope
  trans _ _ _ hxy hyz hx := (hxy hx).trans (hyz ((hxy hx).wellFormed hx))

namespace Stage

variable {R : State → State → Prop}

/-- Handling an item leads on, and so do the states after the batches that it adds to a trail. -/
def Relates (R : State → State → Prop) (f : Item → Trail → StateM State Trail) : Prop :=
  ∀ item t s, R s ((f item t).run s).2 ∧
    ∀ b ∈ ((f item t).run s).1.reversed, b ∈ t.reversed ∨ R s b.after

/-- Handling the items of a list one after the other. -/
theorem Relates.feed (hR : Progress R) {f : Item → Trail → StateM State Trail} (hf : Relates R f) (items : List Item)
    (t : Trail) (s : State) : R s ((Stage.feed f items t).run s).2 ∧
      ∀ b ∈ ((Stage.feed f items t).run s).1.reversed, b ∈ t.reversed ∨ R s b.after := by
  induction items generalizing t s with
  | nil => exact ⟨hR.refl s, fun b hb => Or.inl hb⟩
  | cons item rest ih =>
    rw [Stage.feed]
    split
    · exact ⟨hR.refl s, fun b hb => Or.inl hb⟩
    · obtain ⟨hfirst, hbatches⟩ := hf item t s
      obtain ⟨hrest, hmore⟩ := ih ((f item t).run s).1 ((f item t).run s).2
      refine ⟨hR.trans _ _ _ hfirst hrest, fun b hb => ?_⟩
      rcases hmore b hb with hb | hb
      · exact hbatches b hb
      · exact Or.inr (hR.trans _ _ _ hfirst hb)

/-- Taking an item through steps that lead on. -/
theorem relates_through (hR : Progress R) {inMacro : Bool} {passes : List Pass} {last : Pass}
    (h : ∀ pass ∈ last :: passes, ∀ item s, R s ((pass.handle inMacro item).run s).2) :
    Relates R (through inMacro last passes) := by
  rw [List.forall_mem_cons] at h
  obtain ⟨hlast, hpasses⟩ := h
  induction passes with
  | nil =>
    refine fun item t s => ⟨hlast item s, fun b hb => ?_⟩
    rcases List.mem_cons.1 hb with rfl | hb
    · exact Or.inr (hlast item s)
    · exact Or.inl hb
  | cons pass rest ih =>
    rw [List.forall_mem_cons] at hpasses
    intro item t s
    have hfirst := hpasses.1 item s
    obtain ⟨hrest, hbatches⟩ := (ih hpasses.2).feed hR ((pass.handle inMacro item).run s).1.items t
      ((pass.handle inMacro item).run s).2
    exact ⟨hR.trans _ _ _ hfirst hrest, fun b hb => (hbatches b hb).imp_right (hR.trans _ _ _ hfirst)⟩

/-- What the steps of a stage do, the stage does, up to the end of each batch as well. -/
theorem rel_run (hR : Progress R) {inMacro : Bool} {passes : List Pass} {last : Pass}
    (h : ∀ pass ∈ last :: passes, ∀ item s, R s ((pass.handle inMacro item).run s).2)
    (items : List Item) (s : State) : R s ((Stage.run inMacro passes last items).run s).2 ∧
      ∀ b ∈ ((Stage.run inMacro passes last items).run s).1.batches, R s b.after := by
  obtain ⟨hrun, hbatches⟩ := (relates_through hR h).feed hR items Trail.empty s
  exact ⟨hrun, fun b hb => (hbatches b (List.mem_reverse.1 hb)).resolve_left List.not_mem_nil⟩

end Stage

namespace Workbench

/-- The steps of the stages of a block, where SET and RADIX must bind only symbols that `may` allows. -/
def passesWithin (may : Text → Symbol → Bool) (w : Workbench) : List Pass :=
  [.ofToken (Declare.declareGlobals w), .reduceFirst w, .localizeWithin may w, .reduceAgain w, .expandRest w,
    .ofToken Finish.relax, .ofToken (Finish.encode w), .ofToken (Finish.complete w)]

/-- Assembles the statements of the block, where SET and RADIX must bind only symbols that `may` allows. -/
def runWithin (may : Text → Symbol → Bool) (w : Workbench) (source : List Token) : StateM State Trail := do
  let declared ← w.declareStage source
  let bound ← Stage.run w.block.inMacro [.reduceFirst w] (.localizeWithin may w) (Stage.messagesFirst declared.items)
  Stage.run w.block.inMacro
    [.reduceAgain w, .localizeWithin may w, .expandRest w, .ofToken Finish.relax, .ofToken (Finish.encode w)]
    (.ofToken (Finish.complete w)) (Stage.messagesFirst bound.items)

/-- A block is assembled by binding whatever SET and RADIX tell. -/
theorem run_eq_runWithin (w : Workbench) (source : List Token) :
    w.run source = w.runWithin (fun _ _ => true) source := by
  rw [runWithin, ← Pass.localize_eq]
  rfl

/-- Every step of a block alters the scope as told. -/
theorem Conducts.alters_handle (hw : w.Conducts may) {pass : Pass} (hpass : pass ∈ w.passesWithin may)
    (inMacro : Bool) (item : Item) (s : State) : State.Alters may s ((pass.handle inMacro item).run s).2 := by
  simp only [passesWithin, List.mem_cons, List.not_mem_nil, or_false] at hpass
  rcases hpass with rfl | rfl | rfl | rfl | rfl | rfl | rfl | rfl
  · have hpass : (Pass.ofToken (Declare.declareGlobals w) item).Conducts may :=
      Declare.conducts_declareGlobals item.token
    exact (Pass.conducts_handle hpass inMacro s).scope
  · exact (Pass.conducts_handle (Pass.conducts_reduceFirst w item) inMacro s).scope
  · exact (Pass.conducts_handle (Pass.conducts_localizeWithin hw item) inMacro s).scope
  · exact (Pass.conducts_handle (Pass.conducts_reduceAgain w item) inMacro s).scope
  · exact (Pass.conducts_handle (Pass.conducts_expandRest hw item) inMacro s).scope
  · refine Pass.rel_handle State.progress_alters (fun p _ => ?_) inMacro s
    rw [Pass.scope_relax]
    exact .refl _
  · exact (Pass.conducts_handle (Pass.conducts_encode w item) inMacro s).scope
  · exact (Pass.conducts_handle (Pass.conducts_complete w item) inMacro s).scope

/-- A block alters the scope as told, up to the end of each batch of its output as well. -/
theorem Conducts.alters_run (hw : w.Conducts may) (source : List Token) (s : State) :
    State.Alters may s ((w.runWithin may source).run s).2 ∧
      ∀ b ∈ ((w.runWithin may source).run s).1.batches, State.Alters may s b.after := by
  have hR : Progress (State.Alters may) := State.progress_alters
  have hstage : ∀ (ps : List Pass) (last : Pass), (∀ pass ∈ last :: ps, pass ∈ w.passesWithin may) →
      ∀ items s, State.Alters may s ((Stage.run w.block.inMacro ps last items).run s).2 ∧
        ∀ b ∈ ((Stage.run w.block.inMacro ps last items).run s).1.batches, State.Alters may s b.after :=
    fun ps last hps items s => Stage.rel_run hR
      (fun pass hpass item s => hw.alters_handle (hps pass hpass) _ item s) items s
  have hdeclare : ∀ s, State.Alters may s ((w.declareStage source).run s).2 :=
    fun s => (hstage [] _ (by simp [passesWithin]) _ s).1
  have hbind : ∀ items s, State.Alters may s ((Stage.run w.block.inMacro [.reduceFirst w] (.localizeWithin may w)
      items).run s).2 := fun items s => (hstage [.reduceFirst w] _ (by simp [passesWithin]) _ s).1
  have hahead := fun items => hR.trans _ _ _ (hdeclare s) (hbind items _)
  rw [runWithin, StateM.run_bind, StateM.run_bind]
  obtain ⟨hfinish, hbatches⟩ := hstage [.reduceAgain w, .localizeWithin may w, .expandRest w, .ofToken Finish.relax,
    .ofToken (Finish.encode w)] (.ofToken (Finish.complete w)) (by simp [passesWithin]) _ _
  exact ⟨hR.trans _ _ _ (hahead _) hfinish, fun b hb => hR.trans _ _ _ (hahead _) (hbatches b hb)⟩

end Workbench

namespace Assembler

/-- Assembles nested blocks, where SET and RADIX must bind only symbols that `may` allows. -/
def runnerWithin (may : Text → Symbol → Bool) (a : Assembler) : Nat → Option Runner
  | 0 => none
  | depth + 1 => some fun b source => shield (Workbench.runWithin may ⟨a, b, a.runnerWithin may depth⟩ source)

/-- Nested blocks are assembled by binding whatever SET and RADIX tell. -/
theorem runner_eq_runnerWithin (a : Assembler) (depth : Nat) :
    a.runner depth = a.runnerWithin (fun _ _ => true) depth := by
  induction depth with
  | zero => rfl
  | succ depth ih =>
    rw [runner_succ, runnerWithin, ih]
    simp only [Workbench.run_eq_runWithin]

/-- Nested blocks conduct themselves as told, to any depth. The mark of a bank switch is put back where they
end. -/
theorem conducts_runnerWithin (may : Text → Symbol → Bool) (a : Assembler) (b : Block) (depth : Nat) :
    Workbench.Conducts may ⟨a, b, a.runnerWithin may depth⟩ := by
  induction depth generalizing b with
  | zero => exact fun run h => by cases h
  | succ depth ih =>
    intro run h b' body s
    have halters := ((ih b').alters_run body { s with bankSwitched := false }).1
    rcases hrun : (Workbench.runWithin may ⟨a, b', a.runnerWithin may depth⟩ body).run
      { s with bankSwitched := false } with ⟨t, s'⟩
    rw [hrun] at halters
    rw [runnerWithin, Option.some.injEq] at h
    rw [← h, run_shield hrun]
    exact ⟨halters, rfl⟩

/-- Nested blocks conduct themselves as told, whatever SET and RADIX bind. -/
theorem conducts_runner (a : Assembler) (b : Block) (depth : Nat) :
    Workbench.Conducts (fun _ _ => true) ⟨a, b, a.runner depth⟩ := by
  rw [runner_eq_runnerWithin]
  exact a.conducts_runnerWithin _ b depth

/-- Assembles a program over a root scope, where SET and RADIX must bind only symbols that `may` allows. -/
def assembleWithin (may : Text → Symbol → Bool) (a : Assembler) (scope : Scope) (source : List Token) : Assembly :=
  let start := Assembler.start scope
  let (trail, s) := (Workbench.runWithin may ⟨a, a.outermost, a.runnerWithin may a.maxDepth⟩ source).run start
  let (closing, final) :=
    if trail.tokens.any Token.isFatal then ([], s) else (account false).run s
  ⟨start, trail.batches, closing, final⟩

/-- A program is assembled by binding whatever SET and RADIX tell. -/
theorem assemble_eq_assembleWithin (a : Assembler) (scope : Scope) (source : List Token) :
    a.assemble scope source = a.assembleWithin (fun _ _ => true) scope source := by
  rewrite [assemble, assembleWithin, Workbench.run_eq_runWithin, ← runner_eq_runnerWithin]
  generalize (Workbench.runWithin (fun _ _ => true) ⟨a, a.outermost, a.runner a.maxDepth⟩ source).run
    (Assembler.start scope) = r
  rfl

end Assembler

end MacroAsm
