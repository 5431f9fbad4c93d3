import MacroAsm.Proofs.Assembly.StandIn
import MacroAsm.Proofs.Assembly.Values

/-!
# The blocks of a run

A run of a program assembles the block of the program, and the blocks that are begun while a block of the run is
assembled (`Assembler.Reaches`). A block begins another one if it matters to it what is given for that one
(`Workbench.Begins`), as a DUP of one turn does with the block of its body (`Workbench.begins_single`), or
attempts to do where blocks are nested too deep (`Workbench.attempts_single`).

All blocks of a run consist of statements, and are assembled over sound scopes (`Assembler.Reaches.sound`): a runner
that gives something else only where this is not so may stand in for that of the block around.

Main statement: `Assembler.Reaches.retries`. When the first two stages of a block of a run are over, every item with a
name left in one of its values is marked, and the third stage evaluates it again.
-/

namespace MacroAsm

namespace Workbench

section Single

/-- A DUP of one turn. -/
def single (loc l : Location) (body : List Token) : Token := .dup loc none (.count (.literal l 1)) body

variable {w : Workbench} {loc l : Location} {body : List Token} {s : State} {run : Runner}

/-- There is nothing to evaluate in the DUP. -/
theorem exec_reduceFirst_single :
    (Pass.reduceFirst w (.settled (single loc l body))).exec (Output.empty w.block.inMacro, s) =
      (.ok ⟨⟩, ((Output.empty w.block.inMacro).push (.settled (single loc l body)), s)) := by
  have hcount : (⟨single loc l body, decide (s.deferred < s.deferred)⟩ : Item) = .settled (single loc l body) := by
    rw [decide_eq_false (lt_irrefl _)]
    rfl
  rw [← hcount]
  rfl

/-- The DUP is expanded into the block of its body, once. -/
theorem exec_localize_single (hrun : w.runner = some run) (loc l : Location) :
    (Pass.localize w (.settled (single loc l body))).exec (Output.empty w.block.inMacro, s) =
      (Expand.expand run ⟨⟨w.assembler.naming.name s.supply, w.around.args⟩, w.block.inMacro, true⟩ s.scope.nest body
        false).exec (Output.empty w.block.inMacro, { s with supply := s.supply + 1 }) := by
  have hturn : (Pass.localize w (.settled (single loc l body))).exec (Output.empty w.block.inMacro, s) =
      (do
        Replay.Loop.turn w ⟨loc, Text.empty, Text.empty, body⟩ 0 none
        return ⟨⟩ : Emission PUnit).exec (Output.empty w.block.inMacro, s) := rfl
  rw [hturn, bind_pure, Replay.Loop.turn, requireRunner, hrun]
  rfl

/-- A DUP of one turn over a body that a runner ends with a fatal diagnostic gives that diagnostic. -/
theorem tokens_run_single (hrun : w.runner = some run) (loc l : Location) {d : Diagnostic} (hd : d.isFatal = true)
    (hbody : (run ⟨⟨w.assembler.naming.name s.supply, w.around.args⟩, w.block.inMacro, true⟩ body).run
      { s with supply := s.supply + 1, scope := s.scope.nest } =
        ([.message d], { s with supply := s.supply + 1, scope := s.scope.nest })) :
    ((w.run [single loc l body]).run s).1.tokens = [.message d] := by
  have hpassed : ∀ t ∈ [single loc l body], w.IsPassed t := List.forall_mem_singleton.2 ⟨rfl, rfl, fun _ => rfl⟩
  obtain ⟨hitems, hstate⟩ := run_declareStage w hpassed s
  have hsplice : (Output.empty w.block.inMacro).pushAll
      (([.message d].filter fun t => !Expand.isDropped false t).map .spliced) =
      (Output.empty w.block.inMacro).push (.message d) := rfl
  have hexpand := (exec_localize_single hrun loc l).trans
    ((Expand.exec_expand _ _ _ _ _ _ hbody hsplice).trans (if_pos hd))
  -- the second stage gives the diagnostic for the DUP, and the third one passes it on
  have hbind : ∃ s', (w.bindStage [.settled (single loc l body)]).run s =
      (Trail.empty.add ⟨[.message d], d.isFatal, s'⟩, s') :=
    ⟨_, Stage.run_feed_cons (t := Trail.empty) rfl ((Stage.run_through_step rfl
      (Pass.run_handle_of_ok rfl exec_reduceFirst_single) rfl).trans
      (Stage.run_through_last (Pass.run_handle_of_ok rfl hexpand))) []⟩
  obtain ⟨s', hbind⟩ := hbind
  have hfinish : (w.finishWith Pass.reduceAgain [.message d]).run s' =
      (Trail.empty.add ⟨[.message d], d.isFatal, s'⟩, s') := by
    rw [finishWith, Stage.run, Stage.run_feed_cons rfl (Stage.run_through_message rfl rfl)]
    rfl
  rw [run_eq, run_runWith, run_bound, hitems, hstate, List.map_singleton, hbind]
  exact congrArg (fun r => r.1.tokens) hfinish

/-- A block does not give every diagnostic. -/
theorem not_forall_gives (tokens : List Token) : ¬∀ d : Diagnostic, d.isFatal = true → tokens = [.message d] := by
  intro hgives
  have hclash := (hgives (.fatal Location.none "in the body") rfl).symm.trans
    (hgives (.fatal Location.none "in a turn") rfl)
  rw [List.singleton_inj, Token.message.injEq] at hclash
  have htexts : ("in the body" : Text) ≠ "in a turn" := by decide
  exact htexts (congrArg Diagnostic.text hclash)

/-- A runner may do the same as another one, and only end one block in a state with a diagnostic. -/
theorem exists_ends (run : Runner) (b : Block) (body : List Token) (t : State) (d : Diagnostic) :
    ∃ run' : Runner,
      (∀ b' body' t', (b', body', t') ≠ (b, body, t) → (run' b' body').run t' = (run b' body').run t') ∧
      (run' b body).run t = ([.message d], t) := by
  classical
  exact ⟨fun b' body' t' => if (b', body', t') = (b, body, t) then ([.message d], t') else (run b' body').run t',
    fun b' body' t' hne => if_neg hne, if_pos rfl⟩

/-- A DUP of one turn begins the block of its body. -/
theorem begins_single (hrun : w.runner = some run) :
    w.Begins [single loc l body] s ⟨⟨w.assembler.naming.name s.supply, w.around.args⟩, w.block.inMacro, true⟩ body
      { s with supply := s.supply + 1, scope := s.scope.nest } := by
  by_contra hsame
  -- otherwise the block gives every diagnostic that its body is ended with
  refine not_forall_gives ((w.run [single loc l body]).run s).1.tokens fun d hd => ?_
  obtain ⟨run', hothers, hends⟩ := exists_ends run
    ⟨⟨w.assembler.naming.name s.supply, w.around.args⟩, w.block.inMacro, true⟩
    body { s with supply := s.supply + 1, scope := s.scope.nest } d
  have hgiven := tokens_run_single (w := w.withRunner run') rfl loc l hd hends
  by_contra hne
  refine hsame ⟨run, run', hrun, hothers, fun heq => hne ?_⟩
  rw [heq] at hgiven
  exact hgiven

/-- A DUP of one turn attempts to expand its body. -/
theorem attempts_single : w.Attempts [single loc l body] s := by
  by_contra hsame
  refine not_forall_gives ((w.run [single loc l body]).run s).1.tokens fun d hd => ?_
  have hgiven :
      (((w.withRunner fun _ _ t => ([.message d], t)).run [single loc l body]).run s).1.tokens = [.message d] :=
    tokens_run_single rfl loc l hd rfl
  by_contra hne
  refine hsame ⟨fun _ _ t => ([.message d], t), fun heq => hne ?_⟩
  rw [heq] at hgiven
  exact hgiven

end Single

end Workbench

namespace Assembler

variable {a : Assembler} {scope : Scope} {source : List Token} {depth : Nat} {b : Block} {body : List Token}
  {s : State}

/-- The state in which a program that is a DUP of one turn begins the block of its body. -/
def turnState (scope : Scope) : State := { start scope with supply := 2, scope := (start scope).scope.nest }

/-- A run of such a program assembles the block of the body. -/
theorem reaches_single (hdepth : a.maxDepth = depth + 1) (loc l : Location) :
    a.Reaches scope [Workbench.single loc l body] depth ⟨⟨a.naming.name 1, []⟩, false, true⟩ body
      (turnState scope) := by
  have hprogram : a.Reaches scope [Workbench.single loc l body] (depth + 1) a.outermost
      [Workbench.single loc l body] (start scope) := hdepth ▸ .program
  have hbegins : Workbench.Begins ⟨a, a.outermost, a.runner (depth + 1)⟩ [Workbench.single loc l body] (start scope)
      ⟨⟨a.naming.name 1, []⟩, false, true⟩ body (turnState scope) := Workbench.begins_single rfl
  exact .nested hprogram hbegins

/-- A DUP of one turn that a run reaches at the limit ends the output of the program. -/
theorem Reaches.tokens_of_single {loc l : Location}
    (hreaches : a.Reaches scope source 0 b [Workbench.single loc l body] s) :
    ∃ before loc, (a.assemble scope source).tokens = before ++ [.message (.fatal loc
      ("Maximum nesting depth of " ++ Text.ofNat a.maxDepth ++ " exceeded"))] :=
  hreaches.tokens_of_attempts Workbench.attempts_single

/-- The blocks of a run consist of statements, and are assembled over sound scopes. -/
theorem Reaches.sound (h : a.Accepts scope source) (hreaches : a.Reaches scope source depth b body s) :
    (∀ t ∈ body, t.isStatement = true) ∧ (Grammar.encoding false).Sound s.scope := by
  -- the induction is on how deep the block is nested; the block around it is assembled within the grammar
  induction hreaches with
  | program => exact ⟨h.source, Grammar.sound_start (fun _ ht => ht) h⟩
  | @nested depth b b' body body' s s' _ begins ih =>
    obtain ⟨hbody, hs⟩ := ih
    obtain ⟨run, run', hrun, hsame, hdiffers⟩ := begins
    -- otherwise the other runner does the same for every block of statements over a sound scope
    by_contra hbad
    refine hdiffers
      (Workbench.run_withRunner ⟨h.equips b (depth + 1), run, hrun, fun b₁ body₁ s₁ hbody₁ hs₁ => ?_⟩ hbody hs)
    refine hsame b₁ body₁ s₁ fun heq => hbad ?_
    cases heq
    exact ⟨hbody₁, hs₁⟩

/-- Nothing that is unresolved escapes being evaluated again: what the first two stages of a block of a run leave is
marked if there is a name left in one of its values, and the third stage then evaluates it. -/
theorem Reaches.retries (h : a.Accepts scope source) (hreaches : a.Reaches scope source depth b body s) :
    ∀ item ∈ ((Workbench.bound ⟨a, b, a.runner depth⟩ body).run s).1,
      (∃ e ∈ item.token.values, e.identifiers ≠ []) →
      item.pending = true ∧ Pass.reduceAgain ⟨a, b, a.runner depth⟩ item =
        (do Emission.emit (← Token.reduce (Workbench.around ⟨a, b, a.runner depth⟩) item.token) : Emission PUnit) := by
  intro item hitem hname
  obtain ⟨hbody, hs⟩ := hreaches.sound h
  obtain ⟨-, hbound⟩ := Grammar.leads_bound (Grammar.binds_retried (h.equips b depth)) hbody hs
  have hretried : Grammar.Retried item := (hbound item hitem).2
  have hpending : item.pending = true := by
    by_contra hsettled
    obtain ⟨e, he, hname⟩ := hname
    exact hname ((Expr.identifiers_eq_nil_iff e).2 (hretried.2 (by simpa using hsettled) e he))
  exact ⟨hpending, if_pos hpending⟩

/-- `DW X`, a DUP of Y turns, and `X EQU 5` and `Y EQU 2` after them. -/
def lateCount : List Token :=
  [.data Location.none .words [nameOf "X"],
    .dup Location.none none (.count (nameOf "Y")) [.data Location.none .bytes [.literal Location.none 1]],
    .assign Location.none .equate (nameOf "X") (.literal Location.none 5),
    .assign Location.none .equate (nameOf "Y") (.literal Location.none 2)]

/-- X and Y are left in the turn when its first two stages are over, and both statements are evaluated again. -/
theorem Reaches.retries_lateCount :
    (((Workbench.bound
        ⟨plainAssembler, ⟨⟨Naming.counted.name 1, []⟩, false, true⟩, plainAssembler.runner 1⟩ lateCount).run
        (turnState Scope.initial)).1.flatMap fun item => item.token.values.flatMap Expr.identifiers) = ["X", "Y"] ∧
      ∀ item ∈ ((Workbench.bound ⟨plainAssembler, ⟨⟨Naming.counted.name 1, []⟩, false, true⟩, plainAssembler.runner 1⟩
          lateCount).run (turnState Scope.initial)).1,
        (∃ e ∈ item.token.values, e.identifiers ≠ []) → item.pending = true := by
  have hsource : ∀ t ∈ [Workbench.single Location.none Location.none lateCount], t.isStatement = true := by decide
  refine ⟨by decide +kernel, fun item hitem hname => ?_⟩
  exact (Reaches.retries (accepts_initial hsource) (reaches_single rfl _ _) item hitem hname).1

end Assembler

end MacroAsm
