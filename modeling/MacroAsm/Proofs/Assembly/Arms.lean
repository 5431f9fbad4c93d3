import MacroAsm.Proofs.Assembly.Nesting
import MacroAsm.Proofs.Eval.Failure

/-!
# The arms of a condition

`Conditional.IsArm` tells what an arm is that was assembled against a copy of a scope, and
`Conditional.Sifted` which arms of an IF take part. `Conditional.exec_sift` says that going through the arms
gives these and leaves the scope as it was. An arm makes its copy of the scope evolve
(`Grammar.evolves_of_isArm`), so an IF that only the linker can decide is one step of `Scope.Unfolds`
(`Grammar.handles_assemble`).
-/

namespace MacroAsm

namespace Conditional

/-- Where there is no first fatal diagnostic there is none. -/
theorem isFatal_of_firstFatal?_eq_none {ts : List Token} (h : firstFatal? ts = none) :
    ∀ t ∈ ts, t.isFatal = false := by
  induction ts with
  | nil => exact fun t ht => absurd ht List.not_mem_nil
  | cons t rest ih =>
    cases t with
    | message d =>
      rw [firstFatal?] at h
      split at h
      · cases h
      · rename_i hfatal
        exact List.forall_mem_cons.2 ⟨Bool.eq_false_of_not_eq_true hfatal, ih h⟩
    | _ => exact List.forall_mem_cons.2 ⟨rfl, ih h⟩

/-- The first fatal diagnostic is fatal. -/
theorem isFatal_of_firstFatal?_eq_some {ts : List Token} {d : Diagnostic} (h : firstFatal? ts = some d) :
    d.isFatal = true := by
  induction ts with
  | nil => cases h
  | cons t rest ih =>
    cases t with
    | message d' =>
      rw [firstFatal?] at h
      split at h
      · cases h
        assumption
      · exact ih h
    | _ => exact ih h

/-- The whole output of a nested block. -/
theorem run_collect (run : Runner) (b : Block) (body : List Token) (s : State) :
    (collect run b body).run s =
      if (firstFatal? ((run b body).run s).1).isSome then (run b body).run s
      else (((run b body).run s).1 ++ ((account b.nested).run ((run b body).run s).2).1,
        ((account b.nested).run ((run b body).run s).2).2) := by
  have hrest : (collect run b body).run s =
      (if (firstFatal? ((run b body).run s).1).isSome then pure ((run b body).run s).1
      else do return ((run b body).run s).1 ++ (← account b.nested) :
        StateM State (List Token)).run ((run b body).run s).2 := rfl
  rw [hrest]
  split <;> rfl

variable {w : Workbench} {p : Output × State}

/-- A fork is what assembling a body against a copy of a scope gives: the block ran over the copy with a new
frame, no diagnostic in its output was fatal, and its names were accounted for. -/
def IsArm (w : Workbench) (scope : Scope) (body : List Token) (fork : Fork) : Prop :=
  ∃ run b s, w.runner = some run ∧ b.around.args = w.around.args ∧
    b.inMacro = w.block.inMacro ∧ b.nested = true ∧ s.scope = scope.nest ∧
    firstFatal? ((collect run b body).run s).1 = none ∧
    fork = ⟨((collect run b body).run s).2.scope.unnest,
      ((collect run b body).run s).1.filter fun t => !t.isMessage,
      ((collect run b body).run s).1.filter Token.isMessage⟩

/-- Where blocks may not be nested any deeper, no arm is assembled. -/
theorem exec_prospect_of_none (hrunner : w.runner = none) (body : List Token) (p : Output × State) :
    (prospect w body).exec p = (.error (.report (.fatal Location.none
      ("Maximum nesting depth of " ++ Text.ofNat w.assembler.maxDepth ++ " exceeded"))), p) := by
  rw [prospect, Workbench.requireRunner, hrunner]
  rfl

/-- What assembling an arm against a copy of the scope does. -/
theorem exec_prospect_eq {run : Runner} (hrunner : w.runner = some run) (body : List Token)
    (p : Output × State) {r : List Token × State}
    (hr : (collect run ⟨⟨w.assembler.naming.name p.2.supply, w.around.args⟩, w.block.inMacro, true⟩ body).run
      { p.2 with scope := p.2.scope.nest, supply := p.2.supply + 1 } = r) :
    (prospect w body).exec p = (match firstFatal? r.1 with
      | some d => .error (.report d)
      | none => .ok ⟨r.2.scope.unnest, r.1.filter fun t => !t.isMessage, r.1.filter Token.isMessage⟩,
      (p.1, { r.2 with scope := p.2.scope })) := by
  have hrequire : w.requireRunner = pure run := by rw [Workbench.requireRunner, hrunner]
  have hbegin : (prospect w body).exec p = (do
      let out ← Emission.perform
        (collect run ⟨⟨w.assembler.naming.name p.2.supply, w.around.args⟩, w.block.inMacro, true⟩ body)
      let copy ← (liftM Act.scope : Emission Scope)
      (liftM (Act.setScope p.2.scope) : Emission PUnit)
      match firstFatal? out with
      | some d => Emission.report d
      | none => return Fork.mk copy.unnest (out.filter fun t => !t.isMessage) (out.filter Token.isMessage)).exec
      (p.1, { p.2 with scope := p.2.scope.nest, supply := p.2.supply + 1 }) := by
    rw [prospect, hrequire]
    rfl
  have hend : ∀ k : Scope → Emission Fork, (do
      let copy ← (liftM Act.scope : Emission Scope)
      (liftM (Act.setScope p.2.scope) : Emission PUnit)
      k copy).exec (p.1, r.2) = (k r.2.scope).exec (p.1, { r.2 with scope := p.2.scope }) := fun k => rfl
  rw [hbegin, Emission.exec_bind_of_ok (Emission.exec_perform _ _), hr]
  refine (hend _).trans ?_
  cases firstFatal? r.1 <;> rfl

/-- Assembling an arm emits nothing and leaves the scope as it was. -/
theorem exec_prospect (w : Workbench) (body : List Token) (p : Output × State) :
    ((prospect w body).exec p).2.1 = p.1 ∧ ((prospect w body).exec p).2.2.scope = p.2.scope ∧
      ∀ fork, ((prospect w body).exec p).1 = .ok fork → IsArm w p.2.scope body fork := by
  cases hrunner : w.runner with
  | none =>
    rw [exec_prospect_of_none hrunner]
    exact ⟨rfl, rfl, fun fork h => by cases h⟩
  | some run =>
    rw [exec_prospect_eq hrunner body p rfl]
    refine ⟨rfl, rfl, fun fork h => ?_⟩
    split at h
    · cases h
    · rename_i hfatal
      cases h
      exact ⟨run, ⟨⟨w.assembler.naming.name p.2.supply, w.around.args⟩, w.block.inMacro, true⟩, _, hrunner, rfl, rfl,
        rfl, rfl, hfatal, rfl⟩

/-- Assembling an arm makes the run fail if it fails. -/
theorem fails_of_exec_prospect {body : List Token} {f : Failure} (h : ((prospect w body).exec p).1 = .error f) :
    f.fails = true := by
  cases hrunner : w.runner with
  | none =>
    rw [exec_prospect_of_none hrunner] at h
    cases h
    rfl
  | some run =>
    rw [exec_prospect_eq hrunner body p rfl] at h
    split at h
    · rename_i d hfatal
      cases h
      exact Bool.or_eq_true_iff.2 (Or.inl (isFatal_of_firstFatal?_eq_some hfatal))
    · cases h

/-- The arms of an IF that take part. Those before the first that is known to be taken are known not to be
taken, or are assembled against a copy of the scope. -/
inductive Sifted (w : Workbench) (scope : Scope) (otherwise : Option (List Token)) :
    List Clause → Arms → Prop where
  /-- No arm is known to be taken. -/
  | nil : Sifted w scope otherwise [] ⟨[], otherwise⟩
  /-- An arm is known to be taken. -/
  | taken {test : Expr} {body : List Token} {rest : List Clause} (hconcrete : test.isConcrete = true)
    (htest : test.asTruth = .ok true) : Sifted w scope otherwise (.mk test body :: rest) ⟨[], some body⟩
  /-- An arm is known not to be taken. -/
  | skipped {test : Expr} {body : List Token} {rest : List Clause} {arms : Arms}
    (hconcrete : test.isConcrete = true) (htest : test.asTruth = .ok false)
    (hrest : Sifted w scope otherwise rest arms) : Sifted w scope otherwise (.mk test body :: rest) arms
  /-- An arm that only the linker can decide. -/
  | forked {test : Expr} {body : List Token} {rest : List Clause} {arms : Arms} {fork : Fork}
    (hconcrete : test.isConcrete = false) (harm : IsArm w scope body fork)
    (hrest : Sifted w scope otherwise rest arms) :
    Sifted w scope otherwise (.mk test body :: rest) { arms with forks := (test, fork) :: arms.forks }

/-- Going through the arms of an IF emits nothing, leaves the scope as it was, and gives the arms that take
part. -/
theorem exec_sift (w : Workbench) (otherwise : Option (List Token)) (clauses : List Clause)
    (p : Output × State) :
    ((sift w otherwise clauses).exec p).2.1 = p.1 ∧
      ((sift w otherwise clauses).exec p).2.2.scope = p.2.scope ∧
      ∀ arms, ((sift w otherwise clauses).exec p).1 = .ok arms →
        Sifted w p.2.scope otherwise clauses arms := by
  induction clauses generalizing p with
  | nil =>
    refine ⟨rfl, rfl, fun arms h => ?_⟩
    cases h
    exact .nil
  | cons c rest ih =>
    obtain ⟨test, body⟩ := c
    rw [sift]
    cases hconcrete : test.isConcrete with
    | true =>
      simp only [if_true]
      cases htest : test.asTruth with
      | error c =>
        rw [Emission.exec_bind_of_error (show (Emission.require (.error c)).exec p = _ from rfl)]
        exact ⟨rfl, rfl, fun arms h => by cases h⟩
      | ok taken =>
        rw [Emission.exec_bind_of_ok (show (Emission.require (.ok taken)).exec p = _ from rfl)]
        cases taken with
        | true =>
          refine ⟨rfl, rfl, fun arms h => ?_⟩
          cases h
          exact .taken hconcrete htest
        | false =>
          obtain ⟨hout, hscope, harms⟩ := ih p
          exact ⟨hout, hscope, fun arms h => .skipped hconcrete htest (harms arms h)⟩
    | false =>
      simp only [Bool.false_eq_true, if_false]
      obtain ⟨hout, hscope, hfork⟩ := exec_prospect w body p
      cases hexec : (prospect w body).exec p with
      | mk r q =>
        rw [hexec] at hout hscope hfork
        cases r with
        | error f =>
          rw [Emission.exec_bind_of_error hexec]
          exact ⟨hout, hscope, fun arms h => by cases h⟩
        | ok fork =>
          rw [Emission.exec_bind_of_ok hexec]
          obtain ⟨hout', hscope', harms⟩ := ih q
          have harm := hfork fork rfl
          cases hsift : (sift w otherwise rest).exec q with
          | mk r' q' =>
            rw [hsift] at hout' hscope' harms
            cases r' with
            | error f =>
              rw [Emission.exec_bind_of_error hsift]
              exact ⟨hout'.trans hout, hscope'.trans hscope, fun arms h => by cases h⟩
            | ok arms =>
              rw [Emission.exec_bind_of_ok hsift]
              refine ⟨hout'.trans hout, hscope'.trans hscope, fun arms' h => ?_⟩
              cases h
              have hrest := harms arms rfl
              rw [hscope] at hrest
              exact .forked hconcrete harm hrest

/-- What is taken if no test holds, assembled against a copy of the scope, if there is something. -/
inductive Fallback (w : Workbench) (scope : Scope) : Option (List Token) → Option Fork → Prop where
  /-- There is nothing. -/
  | absent : Fallback w scope none none
  /-- There is a body, which is assembled. -/
  | present {body : List Token} {fork : Fork} (harm : IsArm w scope body fork) :
    Fallback w scope (some body) (some fork)

/-- What is taken if no test holds is an arm like the others. -/
theorem Fallback.isArm {scope : Scope} {otherwise : Option (List Token)} {final : Option Fork}
    (h : Fallback w scope otherwise final) :
    ∀ fork ∈ final, ∃ body, otherwise = some body ∧ IsArm w scope body fork := by
  intro fork hfork
  cases h with
  | absent => cases hfork
  | present harm =>
    cases hfork
    exact ⟨_, rfl, harm⟩

/-- The diagnostics of forks, in order. -/
def messagesOf (forks : List Fork) : List Token := forks.flatMap Fork.messages

/-- Emitting the diagnostics of forks. -/
theorem exec_forM_messages (forks : List (Expr × Fork)) (p : Output × State) :
    (forks.forM fun arm => Emission.emitAll arm.2.messages).exec p =
      (.ok ⟨⟩, (p.1.pushAll ((messagesOf (forks.map Prod.snd)).map .settled), p.2)) := by
  induction forks generalizing p with
  | nil => rfl
  | cons arm rest ih =>
    rw [List.forM_eq_forM, List.forM_cons,
      Emission.exec_bind_of_ok (Emission.exec_emitAll arm.2.messages p), ← List.forM_eq_forM, ih]
    simp only [messagesOf, List.map_cons, List.flatMap_cons, List.map_append, Output.pushAll,
      List.foldl_append]

/-- The IF that is emitted for arms that only the linker can decide. -/
def emitted (loc : Location) (forks : List (Expr × Fork)) (final : Option Fork) : Item :=
  ⟨.cond loc (forks.map fun (test, fork) => Clause.mk test fork.body)
    (final.bind fun fork => bodyOr fork.body) true, true⟩

/-- The end of handling an IF that only the linker can decide: what its arms did is merged, and the IF is
emitted unless that fails. -/
def conclude (loc : Location) (forks : List (Expr × Fork)) (final : Option Fork) : Emission PUnit := do
  let scope ← Act.scope
  let (merged, failed) := mergeForks ((final.map Fork.scope).getD scope) forks scope
  Act.setScope merged
  match failed with
  | some c => Emission.raise c
  | none => Emission.emitItem (emitted loc forks final)

/-- What the end of handling an IF does. -/
theorem exec_conclude (loc : Location) (forks : List (Expr × Fork)) (final : Option Fork) (out : Output)
    (s : State) {merged : Scope × Option Cause}
    (hmerged : merged = mergeForks ((final.map Fork.scope).getD s.scope) forks s.scope) :
    (conclude loc forks final).exec (out, s) =
      match merged.2 with
      | some c => (.error (.raise c), (out, { s with scope := merged.1 }))
      | none => (.ok ⟨⟩, (out.push (emitted loc forks final), { s with scope := merged.1 })) := by
  rw [conclude, Emission.exec_bind_of_ok (Emission.exec_scope (out, s)), ← hmerged]
  obtain ⟨scope, failed⟩ := merged
  cases failed <;> rfl

/-- What handling an IF that only the linker can decide does, unless assembling what is taken otherwise
fails: the diagnostics of the arms are emitted, their copies of the scope are merged, and the IF is emitted
if that succeeds. -/
theorem exec_undecided (w : Workbench) (loc : Location) (arms : Arms) (p : Output × State) :
    (∃ f s, (undecided w loc arms).exec p = (.error f,
        (p.1.pushAll ((messagesOf (arms.forks.map Prod.snd)).map .settled), s)) ∧
      s.scope = p.2.scope ∧ f.fails = true) ∨
    ∃ final s, Fallback w p.2.scope arms.otherwise final ∧ s.scope = p.2.scope ∧
      (undecided w loc arms).exec p = (conclude loc arms.forks final).exec
        (p.1.pushAll ((messagesOf (arms.forks.map Prod.snd ++ final.toList)).map .settled), s) := by
  rw [undecided, Emission.exec_bind_of_ok (exec_forM_messages arms.forks p)]
  generalize hout : p.1.pushAll ((messagesOf (arms.forks.map Prod.snd)).map .settled) = out
  cases hotherwise : arms.otherwise with
  | none =>
    refine Or.inr ⟨none, p.2, .absent, rfl, ?_⟩
    rw [Option.toList_none, List.append_nil, hout]
    rfl
  | some body =>
    obtain ⟨hsame, hscope, hfork⟩ := exec_prospect w body (out, p.2)
    have hfails : ∀ f, ((prospect w body).exec (out, p.2)).1 = .error f → f.fails = true :=
      fun f => fails_of_exec_prospect
    cases hexec : (prospect w body).exec (out, p.2) with
    | mk r q =>
      rw [hexec] at hsame hscope hfork hfails
      have hq : q = (out, q.2) := Prod.ext hsame rfl
      rw [hq] at hexec
      simp only [map_eq_pure_bind, bind_assoc]
      cases r with
      | error f => exact Or.inl ⟨f, q.2, Emission.exec_bind_of_error hexec, hscope, hfails f rfl⟩
      | ok fork =>
        refine Or.inr ⟨some fork, q.2, .present (hfork fork rfl), hscope, ?_⟩
        -- its diagnostics follow those of the arms
        have hmessages : p.1.pushAll ((messagesOf (arms.forks.map Prod.snd ++ [fork])).map .settled) =
            out.pushAll (fork.messages.map .settled) := by
          rw [← hout]
          simp only [messagesOf, List.flatMap_append, List.flatMap_singleton, List.map_append,
            Output.pushAll, List.foldl_append]
        rw [Option.toList_some, hmessages, Emission.exec_bind_of_ok hexec, pure_bind]
        exact Emission.exec_bind_of_ok (Emission.exec_emitAll fork.messages (out, q.2))

/-- The tokens that take the place of a decided IF come from its arms. -/
theorem decide?_mem {otherwise : Option (List Token)} {clauses : List Clause} {ts : List Token}
    (h : decide? otherwise clauses = .ok (some ts)) :
    (∃ c ∈ clauses, ts = c.body) ∨ ts = otherwise.getD [] := by
  induction clauses with
  | nil =>
    cases h
    exact Or.inr rfl
  | cons c rest ih =>
    obtain ⟨test, body⟩ := c
    rw [decide?] at h
    split at h
    · obtain ⟨taken, -, hrest⟩ := Except.bind_eq_ok_iff.1 h
      cases taken with
      | true =>
        cases hrest
        exact Or.inl ⟨_, List.mem_cons_self, rfl⟩
      | false =>
        rcases ih hrest with ⟨c, hc, rfl⟩ | rfl
        · exact Or.inl ⟨c, List.mem_cons_of_mem _ hc, rfl⟩
        · exact Or.inr rfl
    · cases h

end Conditional

namespace Grammar

open Conditional

variable {g : Grammar} {P : Item → Prop} {p : Output × State} {w : Workbench}

/-- The whole output of a nested block is output or diagnostics, and the scope evolves up to the end of the
block. -/
theorem leads_collect {run : Runner} (hrun : g.Obeys run) (b : Block) {body : List Token}
    (hbody : ∀ t ∈ body, g.source t) {s : State} (hs : g.Sound s.scope) :
    (∃ t, g.Evolves s.scope t ∧ t.Hoists ((collect run b body).run s).2.scope) ∧
      ∀ t ∈ ((collect run b body).run s).1, t.isMessage = true ∨ g.output t := by
  obtain ⟨hleads, houtput⟩ := hrun b body s hbody hs
  rw [run_collect]
  split
  · exact ⟨⟨_, hleads, .refl _⟩, fun t ht => Or.inr (houtput t ht)⟩
  · obtain ⟨haccount, hreports⟩ := hoists_account b.nested (hs.evolves hleads)
    refine ⟨⟨_, hleads, haccount⟩, fun t ht => ?_⟩
    rcases List.mem_append.1 ht with ht | ht
    · exact Or.inr (houtput t ht)
    · exact Or.inl (hreports t ht)

/-- An arm makes its copy of the scope evolve, and its body is output. -/
theorem evolves_of_isArm (hw : g.Equips w) {scope : Scope} (hs : g.Sound scope) {body : List Token}
    (hbody : ∀ t ∈ body, g.source t) {fork : Fork} (h : IsArm w scope body fork) :
    (∃ t t', g.Evolves scope.nest t ∧ t.Hoists t' ∧ fork.scope = t'.unnest) ∧
      (∀ t ∈ fork.body, g.output t ∧ t.isMessage = false) ∧ ∀ t ∈ fork.messages, t.isMessage = true := by
  obtain ⟨run, b, s, hrunner, -, -, -, hscope, -, rfl⟩ := h
  have hsound : g.Sound s.scope := by
    rw [hscope]
    exact hs.opens .nest
  obtain ⟨⟨t, hran, hends⟩, houtput⟩ := leads_collect (hw.runner run hrunner) b hbody hsound
  refine ⟨⟨t, _, ?_, hends, rfl⟩, fun t ht => ?_, fun t ht => (List.mem_filter.1 ht).2⟩
  · rwa [hscope] at hran
  · obtain ⟨hmem, hmessage⟩ := List.mem_filter.1 ht
    rcases houtput t hmem with h | h
    · rw [h] at hmessage
      cases hmessage
    · exact ⟨h, by simpa using hmessage⟩

/-- The bodies of the arms that take part come from the arms of the IF. -/
theorem sifted_forall {scope : Scope} {otherwise : Option (List Token)} {clauses : List Clause}
    {arms : Arms} (h : Sifted w scope otherwise clauses arms)
    (hclauses : ∀ c ∈ clauses, ∀ t ∈ c.body, g.source t)
    (hotherwise : ∀ body ∈ otherwise, ∀ t ∈ body, g.source t) :
    (∀ arm ∈ arms.forks, ∃ body, (∀ t ∈ body, g.source t) ∧ IsArm w scope body arm.2) ∧
      ∀ body ∈ arms.otherwise, ∀ t ∈ body, g.source t := by
  induction h with
  | nil => exact ⟨fun arm harm => absurd harm List.not_mem_nil, hotherwise⟩
  | taken =>
    rw [List.forall_mem_cons] at hclauses
    refine ⟨fun arm harm => absurd harm List.not_mem_nil, fun body hbody => ?_⟩
    cases hbody
    exact hclauses.1
  | skipped _ _ _ ih =>
    rw [List.forall_mem_cons] at hclauses
    exact ih hclauses.2
  | forked _ harm _ ih =>
    rw [List.forall_mem_cons] at hclauses
    obtain ⟨hforks, hlast⟩ := ih hclauses.2
    exact ⟨List.forall_mem_cons.2 ⟨⟨_, hclauses.1, harm⟩, hforks⟩, hlast⟩

/-- Arms that were assembled against copies of the scope are merged. -/
theorem leads_mergeForks (hw : g.Equips w) {s : State} (hs : g.Sound s.scope)
    {forks : List (Expr × Fork)}
    (hforks : ∀ arm ∈ forks, ∃ body, (∀ t ∈ body, g.source t) ∧ IsArm w s.scope body arm.2)
    {final : Option Fork}
    (hfinal : ∀ fork ∈ final, ∃ body, (∀ t ∈ body, g.source t) ∧ IsArm w s.scope body fork) :
    g.Leads s { s with
      scope := (mergeForks ((final.map Fork.scope).getD s.scope) forks s.scope).1 } := by
  -- the scope that each arm leaves, with the frame of its block, before and after the account of its names
  have hafter : ∀ fork, ∃ t : Scope × Scope,
      (∃ body, (∀ t ∈ body, g.source t) ∧ IsArm w s.scope body fork) →
        g.Evolves s.scope.nest t.1 ∧ t.1.Hoists t.2 ∧ fork.scope = t.2.unnest := by
    intro fork
    by_cases h : ∃ body, (∀ t ∈ body, g.source t) ∧ IsArm w s.scope body fork
    · obtain ⟨body, hbody, harm⟩ := h
      obtain ⟨t, t', ht⟩ := (evolves_of_isArm hw hs hbody harm).1
      exact ⟨(t, t'), fun _ => ht⟩
    · exact ⟨(s.scope, s.scope), fun h' => absurd h' h⟩
  choose after hafter using hafter
  have hlast : (final.map Fork.scope).getD s.scope =
      (((final.map after).map Prod.snd).map Scope.unnest).getD s.scope := by
    cases final with
    | none => rfl
    | some fork => exact (hafter fork (hfinal fork rfl)).2.2
  rw [hlast]
  refine .fork s.scope forks (fun fork => (after fork).1) (fun fork => (after fork).2)
    (fun arm harm => (hafter arm.2 (hforks arm harm)).1)
    (fun arm harm => (hafter arm.2 (hforks arm harm)).2.1)
    (fun arm harm => (hafter arm.2 (hforks arm harm)).2.2) (final.map after) (fun t ht => ?_)
    fun t ht => ?_
  · obtain ⟨fork, hfork, rfl⟩ := Option.mem_map.1 ht
    exact (hafter fork (hfinal fork hfork)).1
  · obtain ⟨fork, hfork, rfl⟩ := Option.mem_map.1 ht
    exact (hafter fork (hfinal fork hfork)).2.1

/-- The diagnostics of arms are emitted. -/
theorem Keeps.messagesOf (hP : Reports P) (hp : g.Keeps P p) {forks : List Fork}
    (hforks : ∀ fork ∈ forks, ∀ t ∈ fork.messages, t.isMessage = true) :
    g.Keeps P (p.1.pushAll ((Conditional.messagesOf forks).map .settled), p.2) := by
  refine hp.pushAll fun item hitem => ?_
  obtain ⟨t, ht, rfl⟩ := List.mem_map.1 hitem
  obtain ⟨fork, hfork, ht⟩ := List.mem_flatMap.1 ht
  exact hP _ (hforks fork hfork t ht)

/-- An IF that only the linker can decide. -/
theorem handles_undecided {loc : Location} (hP : g.Admits P) (hcond : g.AdmitsCond P loc) (hw : g.Equips w)
    (hp : g.Keeps P p) {arms : Arms}
    (hforks : ∀ arm ∈ arms.forks, ∃ body, (∀ t ∈ body, g.source t) ∧ IsArm w p.2.scope body arm.2)
    (hlast : ∀ body ∈ arms.otherwise, ∀ t ∈ body, g.source t) :
    g.Handles P (undecided w loc arms) p := by
  have hmessages : ∀ fork ∈ arms.forks.map Prod.snd, ∀ t ∈ fork.messages, t.isMessage = true := by
    intro fork hfork
    obtain ⟨arm, harm, rfl⟩ := List.mem_map.1 hfork
    obtain ⟨body, hbody, h⟩ := hforks arm harm
    exact (evolves_of_isArm hw hp.sound hbody h).2.2
  rcases exec_undecided w loc arms p with ⟨f, s, hexec, hscope, -⟩ | ⟨final, s, hfinal, hscope, hexec⟩
  · refine ⟨?_, ?_, fun _ _ => trivial⟩
    · rw [hexec]
      exact .of_scope_eq hscope
    · rw [hexec]
      exact ⟨hscope ▸ hp.sound, (hp.messagesOf hP.message hmessages).items⟩
  · have harm : ∀ fork ∈ final, ∃ body, (∀ t ∈ body, g.source t) ∧ IsArm w s.scope body fork := by
      intro fork hfork
      obtain ⟨body, hotherwise, h⟩ := hfinal.isArm fork hfork
      exact ⟨body, hlast body hotherwise, hscope ▸ h⟩
    have hs : g.Sound s.scope := hscope ▸ hp.sound
    have hleads := leads_mergeForks hw hs (fun arm h => hscope ▸ hforks arm h) harm
    have hall : ∀ fork ∈ arms.forks.map Prod.snd ++ final.toList,
        ∀ t ∈ fork.messages, t.isMessage = true := by
      intro fork hfork
      rcases List.mem_append.1 hfork with hfork | hfork
      · exact hmessages fork hfork
      · obtain ⟨body, hbody, h⟩ := harm fork (Option.mem_toList.1 hfork)
        exact (evolves_of_isArm hw hs hbody h).2.2
    have hout := (hp.messagesOf hP.message hall).items
    rw [exec_conclude loc arms.forks final _ s rfl] at hexec
    generalize hmerged : mergeForks ((final.map Fork.scope).getD s.scope) arms.forks s.scope = merged
      at hexec hleads
    have hstart : g.Leads p.2 s := .of_scope_eq hscope
    obtain ⟨scope, failed⟩ := merged
    cases failed with
    | some c =>
      refine ⟨?_, ?_, fun _ _ => trivial⟩
      · rw [hexec]
        exact .trans hstart hleads
      · rw [hexec]
        exact ⟨hs.evolves hleads, hout⟩
    | none =>
      refine ⟨?_, ?_, fun _ _ => trivial⟩
      · rw [hexec]
        exact .trans hstart hleads
      · rw [hexec]
        have hkeeps : g.Keeps P (p.1.pushAll ((Conditional.messagesOf
            (arms.forks.map Prod.snd ++ final.toList)).map .settled), { s with scope }) :=
          ⟨hs.evolves hleads, hout⟩
        refine hkeeps.push (hcond _ _ ?_ ?_)
        · intro c hc
          obtain ⟨arm, harm', rfl⟩ := List.mem_map.1 hc
          obtain ⟨body, hbody, h⟩ := hforks arm harm'
          exact (evolves_of_isArm hw hp.sound hbody h).2.1
        · intro ts hts
          obtain ⟨fork, hfork, hbodyOr⟩ := Option.bind_eq_some_iff.1 hts
          obtain ⟨body, hbody, h⟩ := harm fork hfork
          rw [bodyOr] at hbodyOr
          split at hbodyOr
          · cases hbodyOr
          · cases hbodyOr
            exact (evolves_of_isArm hw hs hbody h).2.1

/-- Going through the arms of an IF leaves the scope as it was. -/
theorem sift_yields (hp : g.Keeps P p) (otherwise : Option (List Token)) (clauses : List Clause) :
    Emission.Yields g.Leads (g.Keeps P) (fun arms s => Sifted w s.scope otherwise clauses arms)
      (sift w otherwise clauses) p := by
  obtain ⟨hsame, hscope, hsifted⟩ := exec_sift w otherwise clauses p
  refine ⟨.of_scope_eq hscope, ⟨hscope ▸ hp.sound, hsame ▸ hp.items⟩, fun arms harms => ?_⟩
  rw [hscope]
  exact hsifted arms harms

/-- IF. -/
theorem handles_assemble {loc : Location} (hP : g.Admits P) (hcond : g.AdmitsCond P loc) (hw : g.Equips w)
    (hp : g.Keeps P p) {clauses : List Clause} {otherwise : Option (List Token)}
    (hclauses : ∀ c ∈ clauses, ∀ t ∈ c.body, g.source t)
    (hotherwise : ∀ body ∈ otherwise, ∀ t ∈ body, g.source t) :
    g.Handles P (assemble w loc clauses otherwise) p := by
  have hR := g.invariant P
  refine (sift_yields hp otherwise clauses).bind hR fun arms q _ hq harms => ?_
  obtain ⟨hforks, hlast⟩ := sifted_forall harms hclauses hotherwise
  split
  · exact handles_undecided hP hcond hw hq hforks hlast
  · split
    · exact .pure hR hq trivial
    · rename_i body hbody
      refine (requireRunner_yields hw hq).bind hR fun run q _ hq hrun => ?_
      refine (handles_fresh hq _ _ _).bind hR fun b q _ hq _ => ?_
      exact handles_scope (handles_expand hP hq hrun b .nest (hlast body hbody) false)

/-- An IF that was assembled before: what is taken is emitted if it is decided, and the IF itself if it is
not. -/
theorem handles_decide (hp : g.Keeps P p) {item : Item} {clauses : List Clause}
    {otherwise : Option (List Token)}
    (hdecided : ∀ ts, decide? otherwise clauses = .ok (some ts) → ∀ t ∈ ts, P (.settled t))
    (hitem : decide? otherwise clauses = .ok none → P item) :
    g.Handles P (decide item clauses otherwise) p := by
  have hR := g.invariant P
  refine (Emission.Yields.require (Q := fun r _ => decide? otherwise clauses = .ok r) hR hp
    fun _ h => h).bind hR fun r q _ hq hr => ?_
  split
  · exact handles_emitItem hq (hitem hr)
  · exact handles_emitAll hq (hdecided _ hr)

end Grammar

end MacroAsm
