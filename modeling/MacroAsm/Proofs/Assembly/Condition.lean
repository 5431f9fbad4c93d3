import MacroAsm.Proofs.Assembly.Reachable
import MacroAsm.Proofs.Scope.Choice

/-!
# Soundness of undecided conditions

An IF whose test only the linker can decide is emitted with its arms assembled, and what the arms did to the
scope is merged. `Conditional.assemble_sound` says that this is right for whatever the linker finds: under any
valuation of the undecided tests, the emitted IF yields the output of the arm that the IF selects, and every
variable of the scope is read as it is in the copy of the scope that this arm was assembled against.
-/

namespace MacroAsm

namespace Conditional

/-- The position of the first arm of an IF whose test holds, or the number of its arms if there is none. -/
def position (σ : Expr.Valuation) (clauses : List Clause) : Nat :=
  clauses.findIdx fun c => Expr.truth σ c.test == some true

/-- The body of the arm of an IF at a position, after which what is taken otherwise follows. -/
def bodyAt (clauses : List Clause) (otherwise : Option (List Token)) (i : Nat) : Option (List Token) :=
  (clauses[i]?.map Clause.body).orElse fun _ => otherwise

/-- The tokens that an IF yields: those of the first arm whose test holds, or else of what is taken
otherwise. -/
def yielded (σ : Expr.Valuation) (clauses : List Clause) (otherwise : Option (List Token)) : List Token :=
  (bodyAt clauses otherwise (position σ clauses)).getD []

section Position

variable {σ : Expr.Valuation} {test : Expr} {body : List Token} {rest : List Clause}

theorem position_of_true (h : Expr.truth σ test = some true) : position σ (.mk test body :: rest) = 0 := by
  rw [position, List.findIdx_cons, Clause.test, h]
  rfl

/-- The first arm is passed by if its test does not hold. -/
theorem position_of_false (h : Expr.truth σ test = some false) :
    position σ (.mk test body :: rest) = position σ rest + 1 := by
  rw [position, List.findIdx_cons, Clause.test, h]
  rfl

/-- An empty body that is left out yields as much as if it were there. -/
theorem getD_bodyOr (body : List Token) : (bodyOr body).getD [] = body := by
  rw [bodyOr]
  split
  · rename_i hempty
    rw [Option.getD_none, List.isEmpty_iff.1 hempty]
  · rfl

end Position

/-- The clauses of the IF that is emitted for forks. -/
def clausesOf (forks : List (Expr × Fork)) : List Clause :=
  forks.map fun (test, fork) => Clause.mk test fork.body

/-- Whichever arm of an IF a valuation selects, the IF that is emitted yields the output of that arm, and the
scope that its tests select is the copy that the arm was assembled against. -/
theorem exists_forks {w : Workbench} {scope : Scope} {otherwise : Option (List Token)}
    {clauses : List Clause} {arms : Arms} (h : Sifted w scope otherwise clauses arms)
    {final : Option Fork} (hfinal : Fallback w scope arms.otherwise final) :
    ∃ forks : Nat → Fork, ∀ σ : Expr.Valuation,
      (∀ c ∈ clauses, c.test.isConcrete = false → (σ c.test.erase).isSome = true) →
      (∀ body, bodyAt clauses otherwise (position σ clauses) = some body →
        IsArm w scope body (forks (position σ clauses)) ∧
        yielded σ (clausesOf arms.forks) (final.bind fun fork => bodyOr fork.body) =
          (forks (position σ clauses)).body ∧
        Scope.selected σ ((final.map Fork.scope).getD scope) arms.forks =
          (forks (position σ clauses)).scope) ∧
      (bodyAt clauses otherwise (position σ clauses) = none →
        yielded σ (clausesOf arms.forks) (final.bind fun fork => bodyOr fork.body) = [] ∧
        Scope.selected σ ((final.map Fork.scope).getD scope) arms.forks = scope) := by
  induction h with
  | nil =>
    cases hfinal with
    | absent =>
      refine ⟨fun _ => default, fun σ _ => ⟨fun body hbody => ?_, fun _ => ⟨rfl, rfl⟩⟩⟩
      cases hbody
    | @present body fork harm =>
      refine ⟨fun _ => fork, fun σ _ => ⟨fun body' hbody => ?_, fun hnone => ?_⟩⟩
      · cases hbody
        exact ⟨harm, getD_bodyOr fork.body, rfl⟩
      · cases hnone
  | @taken test body rest hconcrete htest =>
    have htruth : ∀ σ, Expr.truth σ test = some true := by
      intro σ
      rw [Expr.truth, if_pos hconcrete, htest]
      rfl
    cases hfinal with
    | @present _ fork harm =>
      refine ⟨fun _ => fork, fun σ _ => ⟨fun body' hbody => ?_, fun hnone => ?_⟩⟩
      · rw [position_of_true (htruth σ)] at hbody
        cases hbody
        exact ⟨harm, getD_bodyOr fork.body, rfl⟩
      · rw [position_of_true (htruth σ)] at hnone
        cases hnone
  | @skipped test body rest arms hconcrete htest _ ih =>
    obtain ⟨forks, hforks⟩ := ih hfinal
    -- the arm that is known not to be taken is passed by
    have hposition : ∀ σ, position σ (.mk test body :: rest) = position σ rest + 1 := by
      intro σ
      refine position_of_false ?_
      rw [Expr.truth, if_pos hconcrete, htest]
      rfl
    refine ⟨fun i => forks (i - 1), fun σ hσ => ?_⟩
    rw [hposition σ]
    exact hforks σ fun c hc => hσ c (List.mem_cons_of_mem _ hc)
  | @forked test body rest arms fork hconcrete harm _ ih =>
    obtain ⟨forks, hforks⟩ := ih hfinal
    refine ⟨fun i => i.casesOn fork forks, fun σ hσ => ?_⟩
    obtain ⟨b, hb⟩ := Option.isSome_iff_exists.1 (hσ _ List.mem_cons_self hconcrete)
    have htruth : Expr.truth σ test = some b := by
      rw [Expr.truth, if_neg (by rw [hconcrete]; exact Bool.false_ne_true)]
      exact hb
    have hrest := hforks σ fun c hc => hσ c (List.mem_cons_of_mem _ hc)
    cases b with
    | true =>
      rw [position_of_true htruth]
      refine ⟨fun body' hbody => ?_, fun hnone => ?_⟩
      · cases hbody
        refine ⟨harm, ?_, ?_⟩
        · rw [yielded, clausesOf, List.map_cons, position_of_true htruth]
          rfl
        · rw [Scope.selected, if_pos htruth]
          rfl
      · cases hnone
    | false =>
      have hnot : Expr.truth σ test ≠ some true := by
        rw [htruth]
        decide
      have hyielded : ∀ ow, yielded σ (clausesOf ((test, fork) :: arms.forks)) ow =
          yielded σ (clausesOf arms.forks) ow := by
        intro ow
        rw [yielded, clausesOf, List.map_cons, position_of_false htruth]
        rfl
      rw [position_of_false htruth]
      simp only [hyielded, Scope.selected, if_neg hnot]
      exact hrest

/-- The diagnostics of an arm do not end the output. -/
theorem isTerminal_of_isArm {w : Workbench} {scope : Scope} {body : List Token} {fork : Fork}
    (h : IsArm w scope body fork) (inMacro : Bool) :
    ∀ t ∈ fork.messages, t.isMessage = true ∧ t.isTerminal inMacro = false := by
  obtain ⟨run, b, s, -, -, -, -, -, hfatal, rfl⟩ := h
  intro t ht
  obtain ⟨hmem, hmessage⟩ := List.mem_filter.1 ht
  refine ⟨hmessage, ?_⟩
  have hnot := isFatal_of_firstFatal?_eq_none hfatal t hmem
  cases t with
  | message d => exact hnot
  | _ => cases hmessage

/-- Every fork that takes part is an arm. -/
theorem Sifted.isArm {w : Workbench} {scope : Scope} {otherwise : Option (List Token)}
    {clauses : List Clause} {arms : Arms} (h : Sifted w scope otherwise clauses arms) :
    ∀ arm ∈ arms.forks, (∃ body, IsArm w scope body arm.2) ∧
      ∃ c ∈ clauses, c.test = arm.1 ∧ c.test.isConcrete = false := by
  induction h with
  | nil => exact fun arm harm => absurd harm List.not_mem_nil
  | taken => exact fun arm harm => absurd harm List.not_mem_nil
  | skipped _ _ _ ih =>
    intro arm harm
    obtain ⟨hbody, c, hc, htest⟩ := ih arm harm
    exact ⟨hbody, c, List.mem_cons_of_mem _ hc, htest⟩
  | forked hconcrete harm _ ih =>
    rw [List.forall_mem_cons]
    refine ⟨⟨⟨_, harm⟩, _, List.mem_cons_self, rfl, hconcrete⟩, fun arm harm => ?_⟩
    obtain ⟨hbody, c, hc, htest⟩ := ih arm harm
    exact ⟨hbody, c, List.mem_cons_of_mem _ hc, htest⟩

/-- An arm that only the linker can decide takes part if none before it is known to be taken. -/
theorem Sifted.forks_ne_nil {w : Workbench} {scope : Scope} {otherwise : Option (List Token)}
    {before after : List Clause} {test : Expr} {body : List Token} {arms : Arms}
    (h : Sifted w scope otherwise (before ++ .mk test body :: after) arms)
    (hundecided : test.isConcrete = false)
    (hbefore : ∀ c ∈ before, c.test.isConcrete = true → c.test.asTruth ≠ .ok true) :
    arms.forks ≠ [] := by
  induction before generalizing arms with
  | nil =>
    cases h with
    | taken hconcrete =>
      rw [hundecided] at hconcrete
      cases hconcrete
    | skipped hconcrete =>
      rw [hundecided] at hconcrete
      cases hconcrete
    | forked => exact List.cons_ne_nil _ _
  | cons c rest ih =>
    rw [List.forall_mem_cons] at hbefore
    cases h with
    | taken hconcrete htest => exact absurd htest (hbefore.1 hconcrete)
    | skipped _ _ hrest => exact ih hrest hbefore.2
    | forked => exact List.cons_ne_nil _ _

variable {w : Workbench} {s s' : State} {loc : Location} {clauses : List Clause}
  {otherwise : Option (List Token)} {out : Output}

/-- What is there after an undecided IF was handled without a failure: the arms that take part and what is
taken otherwise, merged into the scope, and their IF in the output after their diagnostics. -/
theorem exists_arms_of_exec {before after : List Clause} {test : Expr} {body : List Token}
    (hundecided : test.isConcrete = false)
    (hbefore : ∀ c ∈ before, c.test.isConcrete = true → c.test.asTruth ≠ .ok true)
    (hclauses : clauses = before ++ .mk test body :: after)
    (hexec : (assemble w loc clauses otherwise).exec (Output.empty w.block.inMacro, s) =
      (.ok ⟨⟩, (out, s'))) :
    ∃ arms final, Sifted w s.scope otherwise clauses arms ∧ arms.forks ≠ [] ∧
      Fallback w s.scope arms.otherwise final ∧
      mergeForks ((final.map Fork.scope).getD s.scope) arms.forks s.scope = (s'.scope, none) ∧
      out = ((Output.empty w.block.inMacro).pushAll
        ((messagesOf (arms.forks.map Prod.snd ++ final.toList)).map .settled)).push
          (emitted loc arms.forks final) := by
  rw [assemble] at hexec
  obtain ⟨hsame, hscope, hsifted⟩ := exec_sift w otherwise clauses (Output.empty w.block.inMacro, s)
  cases hsift : (sift w otherwise clauses).exec (Output.empty w.block.inMacro, s) with
  | mk r q =>
    rw [hsift] at hsame hscope hsifted
    cases r with
    | error f =>
      rw [Emission.exec_bind_of_error hsift] at hexec
      cases hexec
    | ok arms =>
      rw [Emission.exec_bind_of_ok hsift] at hexec
      have harms := hsifted arms rfl
      have hne : arms.forks ≠ [] := by
        rw [hclauses] at harms
        exact harms.forks_ne_nil hundecided hbefore
      rw [if_pos (by simpa using hne)] at hexec
      -- assembling what is taken otherwise did not fail, and neither did the merge
      rcases exec_undecided w loc arms q with ⟨f, t, hfail, -⟩ | ⟨final, t, hfinal, ht, hdone⟩
      · rw [hfail] at hexec
        cases hexec
      · rw [hdone, exec_conclude loc arms.forks final _ t rfl] at hexec
        rw [hscope] at hfinal ht
        rw [ht] at hexec
        have hq : q.1 = Output.empty w.block.inMacro := hsame
        rw [hq] at hexec
        cases hmerged : mergeForks ((final.map Fork.scope).getD s.scope) arms.forks s.scope with
        | mk scope failed =>
          rw [hmerged] at hexec
          cases failed with
          | some c => cases hexec
          | none =>
            cases hexec
            exact ⟨arms, final, harms, hne, hfinal, hmerged, rfl⟩

/-- The diagnostics of arms are emitted, and leave the output open. -/
theorem items_pushAll_messagesOf {forks : List Fork} (hforks : ∀ fork ∈ forks, ∃ body, IsArm w s.scope body fork) :
    ((Output.empty w.block.inMacro).pushAll ((messagesOf forks).map .settled)).items =
        (messagesOf forks).map .settled ∧
      ((Output.empty w.block.inMacro).pushAll ((messagesOf forks).map .settled)).closed = false ∧
      ∀ t ∈ messagesOf forks, t.isMessage = true := by
  have hmessages : ∀ t ∈ messagesOf forks, t.isMessage = true ∧ t.isTerminal w.block.inMacro = false := by
    intro t ht
    obtain ⟨fork, hfork, ht⟩ := List.mem_flatMap.1 ht
    obtain ⟨body, h⟩ := hforks fork hfork
    exact isTerminal_of_isArm h w.block.inMacro t ht
  have hsettled : ∀ item ∈ (messagesOf forks).map Item.settled,
      item.token.isTerminal (Output.empty w.block.inMacro).inMacro = false := by
    intro item hitem
    obtain ⟨t, ht, rfl⟩ := List.mem_map.1 hitem
    exact (hmessages t ht).2
  obtain ⟨hitems, hopen⟩ := Output.items_pushAll (o := Output.empty w.block.inMacro) rfl hsettled
  exact ⟨hitems, hopen, fun t ht => (hmessages t ht).1⟩

/-- The arms that take part, and what is taken otherwise. -/
theorem isArm_of_sifted {arms : Arms} (harms : Sifted w s.scope otherwise clauses arms) {final : Option Fork}
    (hfinal : Fallback w s.scope arms.otherwise final) :
    ∀ fork ∈ arms.forks.map Prod.snd ++ final.toList, ∃ body, IsArm w s.scope body fork := by
  intro fork hfork
  rcases List.mem_append.1 hfork with hfork | hfork
  · obtain ⟨arm, harm, rfl⟩ := List.mem_map.1 hfork
    exact (harms.isArm arm harm).1
  · obtain ⟨body, -, h⟩ := hfinal.isArm fork (Option.mem_toList.1 hfork)
    exact ⟨body, h⟩

/-- The diagnostics of arms leave the output open, so that the IF is emitted after them. -/
theorem items_push_emitted {arms : Arms} (harms : Sifted w s.scope otherwise clauses arms)
    {final : Option Fork} (hfinal : Fallback w s.scope arms.otherwise final) :
    (((Output.empty w.block.inMacro).pushAll
      ((messagesOf (arms.forks.map Prod.snd ++ final.toList)).map .settled)).push
        (emitted loc arms.forks final)).items =
      (messagesOf (arms.forks.map Prod.snd ++ final.toList)).map .settled ++
        [emitted loc arms.forks final] ∧
    ∀ t ∈ messagesOf (arms.forks.map Prod.snd ++ final.toList), t.isMessage = true := by
  obtain ⟨hitems, hopen, hmessages⟩ := items_pushAll_messagesOf (isArm_of_sifted harms hfinal)
  exact ⟨by rw [Output.items_push_of_open hopen, hitems], hmessages⟩

/-- An arm keeps what is bound in the frames that it shares with the scope. -/
theorem kept_of_isArm {a : Assembler} (hreachable : Reachable a w s) {body : List Token} {fork : Fork}
    (harm : IsArm w s.scope body fork) : s.scope.Kept fork.scope := by
  have hwell := hreachable.wellFormed
  obtain ⟨⟨t, t', ht, hends, heq⟩, -, -⟩ := Grammar.evolves_of_isArm hreachable.equips
    (Grammar.sound_any hwell) (fun _ _ => trivial) harm
  rw [heq]
  exact Scope.kept_unnest .nest ((ht.evolves.trans (hends.evolves _)).preserved (hwell.of_opens .nest))

/-- What handling an undecided IF in a reachable state does is right for whatever the linker finds. There is
one IF in the output, after diagnostics. Under any valuation of the undecided tests it yields the output of
the arm that the IF selects, and every variable of the scope is read as it is in the copy of the scope that
this arm was assembled against. Where no arm is selected it yields nothing, and every variable is read as it
was before. -/
theorem assemble_sound {a : Assembler} (hreachable : Reachable a w s) {before after : List Clause}
    {test : Expr} {body : List Token} (hundecided : test.isConcrete = false)
    (hbefore : ∀ c ∈ before, c.test.isConcrete = true → c.test.asTruth ≠ .ok true)
    (hclauses : clauses = before ++ .mk test body :: after)
    (hexec : (assemble w loc clauses otherwise).exec (Output.empty w.block.inMacro, s) =
      (.ok ⟨⟩, (out, s'))) :
    ∃ (forks : Nat → Fork) (messages : List Token) (emittedClauses : List Clause)
      (emittedOtherwise : Option (List Token)),
      out.items = messages.map .settled ++ [⟨.cond loc emittedClauses emittedOtherwise true, true⟩] ∧
      (∀ t ∈ messages, t.isMessage = true) ∧
      ∀ σ : Expr.Valuation,
        (∀ c ∈ clauses, c.test.isConcrete = false → (σ c.test.erase).isSome = true) →
        (∀ selected, bodyAt clauses otherwise (position σ clauses) = some selected →
          IsArm w s.scope selected (forks (position σ clauses)) ∧
          yielded σ emittedClauses emittedOtherwise = (forks (position σ clauses)).body ∧
          Scope.ReadsAs σ s.scope s'.scope (forks (position σ clauses)).scope) ∧
        (bodyAt clauses otherwise (position σ clauses) = none →
          yielded σ emittedClauses emittedOtherwise = [] ∧
          Scope.ReadsAs σ s.scope s'.scope s.scope) := by
  obtain ⟨arms, final, harms, hne, hfinal, hmerged, rfl⟩ :=
    exists_arms_of_exec hundecided hbefore hclauses hexec
  obtain ⟨hitems, hmessages⟩ := items_push_emitted harms hfinal
  obtain ⟨forks, hforks⟩ := exists_forks harms hfinal
  refine ⟨forks, _, clausesOf arms.forks, final.bind fun fork => bodyOr fork.body, hitems, hmessages,
    fun σ hσ => ?_⟩
  -- the merged scope is read as the one that the tests of the forks select
  have hreads : Scope.ReadsAs σ s.scope s'.scope
      (Scope.selected σ ((final.map Fork.scope).getD s.scope) arms.forks) := by
    refine (Scope.mergeForks_readsAs hreachable.wellFormed ?_ hne (fun arm harm => ?_) hmerged).1
    · cases final with
      | none => exact hreachable.wellFormed.kept
      | some fork =>
        obtain ⟨body, -, h⟩ := hfinal.isArm fork rfl
        exact kept_of_isArm hreachable h
    · obtain ⟨⟨body, h⟩, c, hc, htest, hconcrete⟩ := harms.isArm arm harm
      refine ⟨kept_of_isArm hreachable h, ?_⟩
      rw [← htest, Expr.truth, if_neg (by rw [hconcrete]; exact Bool.false_ne_true)]
      exact hσ c hc hconcrete
  refine ⟨fun selected hselected => ?_, fun hnone => ?_⟩
  · obtain ⟨harm, hyields, hscope⟩ := (hforks σ hσ).1 selected hselected
    rw [hscope] at hreads
    exact ⟨harm, hyields, hreads⟩
  · obtain ⟨hyields, hscope⟩ := (hforks σ hσ).2 hnone
    rw [hscope] at hreads
    exact ⟨hyields, hreads⟩

/-- An assembler without instructions that nests blocks once. -/
def tinyAssembler : Assembler := .bare 1

/-- The workbench of the program of the tiny assembler. -/
def tinyBench : Workbench :=
  ⟨tinyAssembler, tinyAssembler.outermost, tinyAssembler.runner tinyAssembler.maxDepth⟩

/-- The state after the name A was declared. -/
def tinyState : State :=
  { Assembler.start Scope.initial with
    scope := Scope.initial.nest.modifyTop fun f => f.insert "A" {} }

/-- `A SET value`. -/
def setA (value : Int64) : Token :=
  .assign Location.none .set (.identifier Location.none "A") (.literal Location.none value)

/-- Handling `IF $`, `A SET 1`, `ELSE`, `A SET 2` there. -/
def tinyCondition : Except Failure PUnit × (Output × State) :=
  (assemble tinyBench Location.none [.mk (.here Location.none) [setA 1]] (some [setA 2])).exec
    (Output.empty false, tinyState)

/-- There the address of the instruction is a test that only the linker can decide, and if it holds then A is
read as in the first arm. -/
theorem assemble_sound_tinyCondition :
    Reachable tinyAssembler tinyBench tinyState ∧ tinyCondition.1 = .ok ⟨⟩ ∧
      ∃ fork, IsArm tinyBench tinyState.scope [setA 1] fork ∧
        Scope.ReadsAs (fun _ => some true) tinyState.scope tinyCondition.2.2.scope fork.scope := by
  have hreachable : Reachable tinyAssembler tinyBench tinyState := by
    refine .evolve (.start Scope.initial (by decide +kernel) fun f hf => absurd hf List.not_mem_nil) ?_
    refine .declareLocal (Scope.declareLocal_of_find?_eq_none ?_)
    decide +kernel
  have hok : tinyCondition.1 = .ok ⟨⟩ := by decide +kernel
  have hundecided : (Expr.here Location.none).isConcrete = false := rfl
  have hbefore : ∀ c ∈ ([] : List Clause), c.test.isConcrete = true → c.test.asTruth ≠ .ok true :=
    fun c hc => absurd hc List.not_mem_nil
  obtain ⟨forks, messages, clauses, otherwise, -, -, hσ⟩ :=
    assemble_sound hreachable hundecided hbefore rfl (Prod.ext hok rfl)
  obtain ⟨harm, -, hreads⟩ := (hσ (fun _ => some true) fun _ _ _ => rfl).1 [setA 1] rfl
  exact ⟨hreachable, hok, _, harm, hreads⟩

end Conditional

end MacroAsm
