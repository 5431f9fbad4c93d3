import MacroAsm.Proofs.Assembly.Splicing

/-!
# Placing labels in the arms of an IF

The arms of an IF that only the linker can decide are assembled against copies of the scope, and their labels are
placed by the IF that is emitted (`Conditional.traces_assemble`). If the copies cannot be merged, then no IF is
emitted, but a failure is reported. With this the handling of every statement that is expanded is accounted for
(`Pass.traces_localize`, `Pass.traces_expandRest`).
-/

namespace MacroAsm

open Snapshot (Leads)
open Emission (Traces)

section Expansion

variable {naming : Naming} {budget : List Text} {C P : (Text → Prop) → Prop} {p : Output × State} {w : Workbench}
  {inMacro : Bool}

namespace Conditional

/-- What is known of arms that were assembled against copies of a scope, while identities were handed out from one
number to another: the labels in them are new, and what they refer to is placed in them, unless they fail. -/
structure Forked (naming : Naming) (P : (Text → Prop) → Prop) (scope : Scope) (m n : Nat)
    (forks : List Fork) : Prop where
  /-- Identities are handed out in order. -/
  le : m ≤ n
  /-- None of the diagnostics is fatal. -/
  quiet : ∀ f ∈ forks, f.IsQuiet
  /-- Each label in the arms is new. -/
  count : P (fun _ => True) → scope.Within (fun _ => True) → ∀ id,
    (forks.flatMap fun f => Token.allPlaces f.body).count id ≤ (minted naming m n).count id
  /-- What the arms refer to. -/
  within : ∀ D, P D → scope.Within D →
    (∃ id, ¬ D id ∧ (id ∈ (forks.flatMap fun f => Token.allPlaces f.body) ∨
      ∃ t ∈ messagesOf forks, t.fails = true)) ∨
    ∀ f ∈ forks, f.scope.Within D ∧ ∀ t ∈ f.body, t.Within D

namespace Forked

variable {scope : Scope} {m n k : Nat} {forks forks' : List Fork}

theorem nil (h : m ≤ n) : Forked naming P scope m n [] :=
  ⟨h, fun _ hf => absurd hf List.not_mem_nil, fun _ _ _ => Nat.zero_le _,
    fun _ _ _ => Or.inr fun _ hf => absurd hf List.not_mem_nil⟩

/-- Arms are assembled after others. -/
theorem append (h : Forked naming P scope m n forks) (h' : Forked naming P scope n k forks') :
    Forked naming P scope m k (forks ++ forks') where
  le := h.le.trans h'.le
  quiet f hf := (List.mem_append.1 hf).elim (h.quiet f) (h'.quiet f)
  count hP hs id := by
    rw [List.flatMap_append, List.count_append, ← minted_append h.le h'.le, List.count_append]
    exact Nat.add_le_add (h.count hP hs id) (h'.count hP hs id)
  within D hP hs := by
    rw [messagesOf, List.flatMap_append, List.flatMap_append]
    rcases h.within D hP hs with ⟨id, hid, hplace | ⟨t, ht, hfails⟩⟩ | hleft
    · exact Or.inl ⟨id, hid, Or.inl (List.mem_append_left _ hplace)⟩
    · exact Or.inl ⟨id, hid, Or.inr ⟨t, List.mem_append_left _ ht, hfails⟩⟩
    · rcases h'.within D hP hs with ⟨id, hid, hplace | ⟨t, ht, hfails⟩⟩ | hright
      · exact Or.inl ⟨id, hid, Or.inl (List.mem_append_right _ hplace)⟩
      · exact Or.inl ⟨id, hid, Or.inr ⟨t, List.mem_append_right _ ht, hfails⟩⟩
      · exact Or.inr fun f hf => (List.mem_append.1 hf).elim (hleft f) (hright f)

end Forked

/-- The whole output of a nested block, with the account of its names. -/
theorem leads_collect {run : Runner} (hrun : run.Places naming C) (b : Block) (body : List Token) (s : State) :
    Leads naming [] (fun D => (∀ t ∈ body, t.isOriginal = true) ∧ C D ∧ ∀ a ∈ b.around.args, a.Within D) (fun _ => True)
      ([], s) ((collect run b body).run s) := by
  have hleads := hrun.leads b body s
  rw [collect, StateM.run_bind]
  generalize (run b body).run s = r at hleads
  split
  · exact hleads
  · exact hleads.trans (Snapshot.leads_account b.nested r.1 r.2)

/-- A diagnostic that fails the run is a diagnostic. -/
theorem isMessage_of_fails {t : Token} (h : t.fails = true) : t.isMessage = true := by
  cases t with
  | message d => rfl
  | _ => cases h

/-- A handling that assembles arms against copies of the scope, and leaves the scope as it is. -/
structure Sifts {α : Type} (naming : Naming) (P : (Text → Prop) → Prop) (forksOf : α → List Fork) (e : Emission α)
    (p : Output × State) : Prop where
  /-- It emits nothing. -/
  output : (e.exec p).2.1 = p.1
  /-- The scope stays as it is. -/
  scope : (e.exec p).2.2.scope = p.2.scope
  /-- Identities are handed out in order. -/
  supply : p.2.supply ≤ (e.exec p).2.2.supply
  /-- The arms that were assembled. -/
  forked : ∀ a, (e.exec p).1 = .ok a → Forked naming P p.2.scope p.2.supply (e.exec p).2.2.supply (forksOf a)

/-- An arm is assembled against a copy of the scope. -/
theorem sifts_prospect (hw : w.Places C) {body : List Token} (hbody : ∀ D, P D → ∀ t ∈ body, t.isOriginal = true)
    (hargs : ∀ D, P D → C D ∧ ∀ a ∈ w.around.args, a.Within D) (p : Output × State) :
    Sifts w.assembler.naming P (fun fork => [fork]) (prospect w body) p := by
  cases hrunner : w.runner with
  | none =>
    have hexec := exec_prospect_of_none hrunner body p
    refine ⟨by rw [hexec], by rw [hexec], by rw [hexec], fun fork h => ?_⟩
    rw [hexec] at h
    cases h
  | some run =>
    have hquiet := fun fork => gives_prospect (w := w) body p fork
    have hleads := leads_collect (hw.runner run hrunner)
      ⟨⟨w.assembler.naming.name p.2.supply, w.around.args⟩, w.block.inMacro, true⟩ body
      { p.2 with scope := p.2.scope.nest, supply := p.2.supply + 1 }
    rcases hr : (collect run ⟨⟨w.assembler.naming.name p.2.supply, w.around.args⟩, w.block.inMacro, true⟩ body).run
      { p.2 with scope := p.2.scope.nest, supply := p.2.supply + 1 } with ⟨out, s⟩
    rw [hr] at hleads
    have hexec := exec_prospect_eq hrunner body p hr
    have hsupply : p.2.supply + 1 ≤ s.supply := hleads.supply
    refine ⟨by rw [hexec], by rw [hexec], by rw [hexec]; exact Nat.le_of_succ_le hsupply, fun fork h => ?_⟩
    have hfork := hquiet fork h
    rw [hexec] at h ⊢
    split at h
    · cases h
    · cases h
      have hnest : ∀ {D : Text → Prop}, p.2.scope.Within D →
          Snapshot.Within D ([], { p.2 with scope := p.2.scope.nest, supply := p.2.supply + 1 }) :=
        fun hs => ⟨fun _ ht => absurd ht List.not_mem_nil, hs.nest⟩
      refine ⟨Nat.le_of_succ_le hsupply, List.forall_mem_singleton.2 hfork, fun hP hs id => ?_, fun D hP hs => ?_⟩
      · have hcount := hleads.count ⟨hbody _ hP, hargs _ hP⟩ (hnest hs) id
        have hfilter :=
          (Token.allPlaces_sublist (List.filter_sublist (p := fun t => !t.isMessage) (l := out))).count_le id
        rw [List.flatMap_singleton, ← minted_append (Nat.le_add_right p.2.supply 1) hsupply, List.count_append]
        rw [Token.allPlaces, List.count_nil] at hcount
        dsimp only at hcount hfilter ⊢
        omega
      · rcases hleads.within D ⟨hbody D hP, hargs D hP⟩ (hnest hs) with ⟨id, hid, hplace | ⟨t, ht, hfails⟩⟩ |
          ⟨hwithin, -⟩
        · obtain ⟨t, ht, hmem⟩ := Token.mem_allPlaces_iff.1 hplace
          refine Or.inl ⟨id, hid, Or.inl ?_⟩
          rw [List.flatMap_singleton]
          refine Token.mem_allPlaces_iff.2 ⟨t, List.mem_filter.2 ⟨ht, ?_⟩, hmem⟩
          cases hmessage : t.isMessage with
          | false => rfl
          | true =>
            rw [Token.places_of_isMessage hmessage] at hmem
            cases hmem
        · refine Or.inl ⟨id, hid, Or.inr ⟨t, ?_, hfails⟩⟩
          rw [messagesOf, List.flatMap_singleton]
          exact List.mem_filter.2 ⟨ht, isMessage_of_fails hfails⟩
        · refine Or.inr (List.forall_mem_singleton.2 ⟨hwithin.scope.unnest, fun t ht => ?_⟩)
          exact hwithin.tokens t (List.mem_filter.1 ht).1

/-- The arms of an IF that take part. -/
theorem sifts_sift (hw : w.Places C) (otherwise : Option (List Token)) {clauses : List Clause}
    (hclauses : ∀ D, P D → ∀ c ∈ clauses, ∀ t ∈ c.body, t.isOriginal = true)
    (hargs : ∀ D, P D → C D ∧ ∀ a ∈ w.around.args, a.Within D) (p : Output × State) :
    Sifts w.assembler.naming P (fun arms => arms.forks.map Prod.snd) (sift w otherwise clauses) p := by
  -- no arm is assembled
  have hnone : ∀ {e : Emission Arms} {p : Output × State} {r : Except Failure Arms}, e.exec p = (r, p) →
      (∀ arms, r = .ok arms → arms.forks = []) →
        Sifts w.assembler.naming P (fun arms => arms.forks.map Prod.snd) e p := by
    intro e p r hexec hforks
    refine ⟨by rw [hexec], by rw [hexec], by rw [hexec], fun arms h => ?_⟩
    rw [hexec] at h ⊢
    rw [hforks arms h]
    exact .nil (Nat.le_refl _)
  induction clauses generalizing p with
  | nil =>
    refine hnone (Emission.exec_pure _ p) fun arms h => ?_
    cases h
    rfl
  | cons c rest ih =>
    obtain ⟨test, body⟩ := c
    simp only [List.forall_mem_cons] at hclauses
    have hrest := ih fun D hP => (hclauses D hP).2
    rw [sift]
    split
    · cases htest : test.asTruth with
      | error c => exact hnone (Emission.exec_bind_of_error rfl) fun arms h => by cases h
      | ok taken =>
        cases taken with
        | true =>
          refine hnone (r := .ok ⟨[], some body⟩) rfl fun arms h => ?_
          cases h
          rfl
        | false => exact hrest p
    · have hbody : ∀ D, P D → ∀ t ∈ body, t.isOriginal = true := fun D hP => (hclauses D hP).1
      obtain ⟨hout, hscope, hsupply, hforked⟩ := sifts_prospect hw hbody hargs p
      rcases hexec : (prospect w body).exec p with ⟨r, out, s⟩
      rw [hexec] at hout hscope hsupply hforked
      dsimp only at hout hscope hsupply hforked
      subst hout
      cases r with
      | error f =>
        have hfail := Emission.exec_bind_of_error (k := fun fork => do
          let arms ← sift w otherwise rest
          return { arms with forks := (test, fork) :: arms.forks }) hexec
        exact ⟨by rw [hfail], by rw [hfail]; exact hscope, by rw [hfail]; exact hsupply, fun arms h => by
          rw [hfail] at h; cases h⟩
      | ok fork =>
        have hnext := Emission.exec_bind_of_ok (k := fun fork => do
          let arms ← sift w otherwise rest
          return { arms with forks := (test, fork) :: arms.forks }) hexec
        have hfork := hforked fork rfl
        obtain ⟨hout', hscope', hsupply', hforked'⟩ := hrest (p.1, s)
        rcases hexec' : (sift w otherwise rest).exec (p.1, s) with ⟨r', out', s'⟩
        rw [hexec'] at hout' hscope' hsupply' hforked'
        dsimp only at hout' hscope' hsupply' hforked'
        cases r' with
        | error f =>
          have hfail := hnext.trans (Emission.exec_bind_of_error hexec')
          exact ⟨by rw [hfail]; exact hout', by rw [hfail]; exact hscope'.trans hscope,
            by rw [hfail]; exact hsupply.trans hsupply', fun arms h => by rw [hfail] at h; cases h⟩
        | ok arms =>
          have hdone := hnext.trans (Emission.exec_bind_of_ok hexec')
          refine ⟨by rw [hdone]; exact hout', by rw [hdone]; exact hscope'.trans hscope,
            by rw [hdone]; exact hsupply.trans hsupply', fun all h => ?_⟩
          rw [hdone] at h ⊢
          cases h
          have hlater := hforked' arms rfl
          rw [hscope] at hlater
          exact hfork.append hlater

/-- The tests of the arms that take part are those of the IF, and what is taken otherwise is a body of it. -/
theorem Sifted.mem {scope : Scope} {otherwise : Option (List Token)} {clauses : List Clause} {arms : Arms}
    (h : Sifted w scope otherwise clauses arms) :
    (∀ arm ∈ arms.forks, ∃ c ∈ clauses, arm.1 = c.test) ∧
      ∀ body ∈ arms.otherwise, body ∈ otherwise ∨ ∃ c ∈ clauses, body = c.body := by
  induction h with
  | nil => exact ⟨fun _ h => absurd h List.not_mem_nil, fun body hbody => Or.inl hbody⟩
  | taken =>
    refine ⟨fun _ h => absurd h List.not_mem_nil, fun body hbody => Or.inr ⟨_, List.mem_cons_self, ?_⟩⟩
    cases hbody
    rfl
  | skipped _ _ _ ih =>
    refine ⟨fun arm harm => ?_, fun body hbody => (ih.2 body hbody).imp_right fun ⟨c, hc, heq⟩ => ?_⟩
    · obtain ⟨c, hc, heq⟩ := ih.1 arm harm
      exact ⟨c, List.mem_cons_of_mem _ hc, heq⟩
    · exact ⟨c, List.mem_cons_of_mem _ hc, heq⟩
  | forked _ _ _ ih =>
    refine ⟨fun arm harm => ?_, fun body hbody => (ih.2 body hbody).imp_right fun ⟨c, hc, heq⟩ => ?_⟩
    · rcases List.mem_cons.1 harm with rfl | harm
      · exact ⟨_, List.mem_cons_self, rfl⟩
      · obtain ⟨c, hc, heq⟩ := ih.1 arm harm
        exact ⟨c, List.mem_cons_of_mem _ hc, heq⟩
    · exact ⟨c, List.mem_cons_of_mem _ hc, heq⟩

/-- What is taken otherwise, if there is something. -/
theorem sifts_alternative (hw : w.Places C) {otherwise : Option (List Token)}
    (hotherwise : ∀ D, P D → ∀ body ∈ otherwise, ∀ t ∈ body, t.isOriginal = true)
    (hargs : ∀ D, P D → C D ∧ ∀ a ∈ w.around.args, a.Within D) (p : Output × State) :
    Sifts w.assembler.naming P Option.toList (alternative w otherwise) p := by
  cases otherwise with
  | none =>
    refine ⟨rfl, rfl, Nat.le_refl _, fun final h => ?_⟩
    cases h
    exact .nil (Nat.le_refl _)
  | some body =>
    obtain ⟨hout, hscope, hsupply, hforked⟩ := sifts_prospect hw (fun D hP => hotherwise D hP body rfl) hargs p
    rw [alternative, map_eq_pure_bind]
    rcases hexec : (prospect w body).exec p with ⟨r, q⟩
    rw [hexec] at hout hscope hsupply hforked
    cases r with
    | error f =>
      have hfail := Emission.exec_bind_of_error (k := fun fork => (pure (some fork) : Emission (Option Fork))) hexec
      exact ⟨by rw [hfail]; exact hout, by rw [hfail]; exact hscope, by rw [hfail]; exact hsupply,
        fun final h => by rw [hfail] at h; cases h⟩
    | ok fork =>
      have hdone := Emission.exec_bind_of_ok (k := fun fork => (pure (some fork) : Emission (Option Fork))) hexec
      refine ⟨by rw [hdone]; exact hout, by rw [hdone]; exact hscope, by rw [hdone]; exact hsupply,
        fun final h => ?_⟩
      rw [hdone] at h ⊢
      cases h
      exact hforked fork rfl

/-- The places in the IF that is emitted are those in its arms. -/
theorem places_emitted (loc : Location) (forks : List (Expr × Fork)) (final : Option Fork) :
    (emitted loc forks final).token.places =
      (forks.map Prod.snd ++ final.toList).flatMap fun f => Token.allPlaces f.body := by
  have hotherwise : Token.optionPlaces (final.bind fun fork => bodyOr fork.body) =
      final.toList.flatMap fun f => Token.allPlaces f.body := by
    cases final with
    | none => rfl
    | some fork =>
      obtain ⟨scope, body, messages⟩ := fork
      cases body with
      | nil => rfl
      | cons t rest => exact (List.flatMap_singleton _ _).symm
  rw [emitted, Token.places, if_pos rfl, Token.clausePlaces_eq_flatMap, hotherwise, List.flatMap_append,
    List.flatMap_map, List.flatMap_map]
  rfl

/-- The IF that is emitted refers to what its tests and its arms refer to. -/
theorem within_emitted {D : Text → Prop} {loc : Location} {forks : List (Expr × Fork)} {final : Option Fork}
    (htests : ∀ arm ∈ forks, arm.1.Within D)
    (hbodies : ∀ f ∈ forks.map Prod.snd ++ final.toList, ∀ t ∈ f.body, t.Within D) :
    (emitted loc forks final).token.Within D := by
  rw [List.forall_mem_append, List.forall_mem_map] at hbodies
  refine Token.within_cond.2 ⟨fun c hc => ?_, fun body hbody => ?_⟩
  · obtain ⟨arm, harm, rfl⟩ := List.mem_map.1 hc
    exact ⟨htests arm harm, hbodies.1 arm harm⟩
  · obtain ⟨fork, hfork, hbody⟩ := Option.bind_eq_some_iff.1 hbody
    rw [bodyOr] at hbody
    split at hbody
    · cases hbody
    · cases hbody
      exact hbodies.2 fork (Option.mem_toList.2 hfork)

/-- The diagnostics of arms are given, and then a token that stands for the arms, or a failure. -/
theorem Forked.leads {s s' : State} {forks : List Fork} 
    (h : Forked naming P s.scope s.supply s'.supply forks) {t : Token}
    (hcount : ∀ id, t.places.count id ≤ (forks.flatMap fun f => Token.allPlaces f.body).count id)
    (hplaces : ∀ id ∈ (forks.flatMap fun f => Token.allPlaces f.body), id ∈ t.places ∨ t.fails = true)
    (hwithin : ∀ D, P D → s.scope.Within D → (∀ f ∈ forks, f.scope.Within D ∧ ∀ t ∈ f.body, t.Within D) →
      t.Within D ∧ s'.scope.Within D) (ts : List Token) :
    Leads naming [] P (fun _ => True) (ts, s) (ts ++ (messagesOf forks ++ [t]), s') := by
  have hmessages : ∀ t ∈ messagesOf forks, t.isMessage = true := by
    intro t ht
    obtain ⟨f, hf, ht⟩ := List.mem_flatMap.1 ht
    exact (h.quiet f hf t ht).1
  have hall : Token.allPlaces (ts ++ (messagesOf forks ++ [t])) = Token.allPlaces ts ++ t.places := by
    rw [Token.allPlaces_append, Token.allPlaces_append, Token.allPlaces_of_isMessage hmessages, List.nil_append,
      Token.allPlaces, Token.allPlaces, List.append_nil]
  refine ⟨fun t ht => List.mem_append_left _ ht, h.le, fun hP hc id => ?_, fun D hP hc => ?_⟩
  · have hminted := (hcount id).trans (h.count hP hc.scope id)
    rw [hall, List.count_append, List.count_nil]
    dsimp only
    omega
  · have hlast : t ∈ ts ++ (messagesOf forks ++ [t]) := List.mem_append_right _ List.mem_concat_self
    rcases h.within D hP hc.scope with ⟨id, hid, hplace | ⟨t', ht', hfails⟩⟩ | harms
    · refine Or.inl ⟨id, hid, (hplaces id hplace).imp (fun hplace => ?_) fun hfails => ⟨t, hlast, hfails⟩⟩
      rw [hall]
      exact List.mem_append_right _ hplace
    · exact Or.inl ⟨id, hid, Or.inr ⟨t', List.mem_append_right _ (List.mem_append_left _ ht'), hfails⟩⟩
    · obtain ⟨ht, hscope⟩ := hwithin D hP hc.scope harms
      refine Or.inr ⟨⟨fun t' ht' => ?_, hscope⟩, trivial⟩
      rcases List.mem_append.1 ht' with ht' | ht'
      · exact hc.tokens t' ht'
      · rcases List.mem_append.1 ht' with ht' | ht'
        · exact Token.within_of_isMessage (hmessages t' ht')
        · rwa [List.mem_singleton.1 ht']

/-- The diagnostics of arms are emitted, and then what the arms did is merged. The IF is emitted unless that
fails. -/
theorem traces_conclude (hp : p.1.Ready inMacro) (loc : Location) {e : Emission PUnit} {s : State}
    {forks : List (Expr × Fork)} {final : Option Fork}
    (hexec : e.exec p = (conclude loc forks final).exec
      (p.1.pushAll ((messagesOf (forks.map Prod.snd ++ final.toList)).map .settled), s))
    (hscope : s.scope = p.2.scope)
    (hforked : Forked naming P p.2.scope p.2.supply s.supply (forks.map Prod.snd ++ final.toList))
    (htests : ∀ D, P D → ∀ arm ∈ forks, arm.1.Within D) : Traces naming [] P (fun _ _ => True) e p := by
  have hquiet : ∀ i ∈ (messagesOf (forks.map Prod.snd ++ final.toList)).map Item.settled,
      i.token.isTerminal p.1.inMacro = false := by
    intro i hi
    obtain ⟨t, ht, rfl⟩ := List.mem_map.1 hi
    obtain ⟨f, hf, ht⟩ := List.mem_flatMap.1 ht
    obtain ⟨hmessage, hfatal⟩ := hforked.quiet f hf t ht
    exact (Token.isTerminal_of_isMessage hmessage _).trans hfatal
  obtain ⟨hitems, hopen⟩ := Output.items_pushAll hp.isOpen hquiet
  have hdone := hexec.trans (exec_conclude loc forks final _ s rfl)
  generalize p.1.pushAll ((messagesOf (forks.map Prod.snd ++ final.toList)).map .settled) = out at hitems hopen hdone
  have htokens : ∀ i : Item, (out.push i).tokens =
      p.1.tokens ++ (messagesOf (forks.map Prod.snd ++ final.toList) ++ [i.token]) := by
    intro i
    rw [Output.tokens_push hopen, Output.tokens, hitems, List.map_append, List.map_map, ← List.append_assoc]
    exact congrArg (p.1.tokens ++ · ++ [i.token]) (List.map_id _)
  -- what the arms did is merged
  have hmerged : ∀ D, P D → p.2.scope.Within D →
      (∀ f ∈ forks.map Prod.snd ++ final.toList, f.scope.Within D ∧ ∀ t ∈ f.body, t.Within D) →
      (mergeForks ((final.map Fork.scope).getD s.scope) forks s.scope).1.Within D := by
    intro D hP hs harms
    rw [List.forall_mem_append, List.forall_mem_map] at harms
    rw [hscope]
    refine Scope.Within.mergeForks ?_ (fun arm harm => ⟨htests D hP arm harm, (harms.1 arm harm).1⟩) hs
    cases final with
    | none => exact hs
    | some fork => exact (harms.2 fork (Option.mem_toList.2 rfl)).1
  split at hdone
  · -- the labels in the arms are lost, but a failure is reported
    refine ⟨fun a q h => ?_, fun f q h loc' => ?_⟩
    · rw [hdone] at h
      cases h
    · rw [hdone] at h
      cases h
      rw [htokens]
      refine Forked.leads ?_ (fun _ => Nat.zero_le _) (fun _ _ => Or.inr ?_)
        (fun D hP hs harms => ⟨Token.within_of_isMessage rfl, hmerged D hP hs harms⟩) _
      · exact hforked
      · exact Failure.fails_toDiagnostic loc' _
  · refine .of_ok hdone ?_
    dsimp only
    rw [htokens]
    refine Forked.leads ?_ (fun id => ?_) (fun id hid => Or.inl ?_)
      (fun D hP hs harms => ⟨?_, hmerged D hP hs harms⟩) _
    · exact hforked
    · rw [places_emitted]
    · rwa [places_emitted]
    · exact within_emitted (htests D hP) fun f hf => (harms f hf).2

/-- An IF that only the linker can decide, after its arms were assembled. -/
theorem traces_undecided (hw : w.Places C) (hp : p.1.Ready w.block.inMacro) (loc : Location) {e : Emission PUnit}
    {s : State} {arms : Arms} (hexec : e.exec p = (undecided w loc arms).exec (p.1, s))
    (hscope : s.scope = p.2.scope)
    (hforked : Forked w.assembler.naming P p.2.scope p.2.supply s.supply (arms.forks.map Prod.snd))
    (htests : ∀ D, P D → ∀ arm ∈ arms.forks, arm.1.Within D)
    (hotherwise : ∀ D, P D → ∀ body ∈ arms.otherwise, ∀ t ∈ body, t.isOriginal = true)
    (hargs : ∀ D, P D → C D ∧ ∀ a ∈ w.around.args, a.Within D) :
    Traces w.assembler.naming [] P (fun _ _ => True) e p := by
  rw [undecided_eq, Emission.exec_bind_of_ok (exec_forM_messages _ _)] at hexec
  generalize hpushed : (p.1, s).1.pushAll ((messagesOf (arms.forks.map Prod.snd)).map .settled) = out at hexec
  obtain ⟨hout, hscope', hsupply, hforked'⟩ := sifts_alternative hw hotherwise hargs (out, s)
  rcases hfinal : (alternative w arms.otherwise).exec (out, s) with ⟨r, out', s'⟩
  rw [hfinal] at hout hscope' hsupply hforked'
  dsimp only at hout hscope' hsupply hforked' hpushed
  subst hout
  cases r with
  | error f =>
    -- nothing is merged, so that nothing refers to the labels in the arms
    rw [Emission.exec_bind_of_error hfinal] at hexec
    refine ⟨fun a q h => ?_, fun f q h loc => ?_⟩
    · rw [hexec] at h
      cases h
    · rw [hexec] at h
      cases h
      have hstate : Leads w.assembler.naming [] P (fun _ => True) (p.1.tokens, p.2) (p.1.tokens, s') :=
        .state (hforked.le.trans hsupply) fun D _ hs => ⟨by rwa [hscope', hscope], trivial⟩
      obtain ⟨n, hn⟩ := p.1.exists_tokens_pushAll ((messagesOf (arms.forks.map Prod.snd)).map .settled)
      have hmessages : Leads w.assembler.naming [] (fun D => P D ∧ True) (fun _ => True) (p.1.tokens, s')
          (out'.tokens, s') := by
        rw [← hpushed, hn, List.map_map]
        refine .report fun t ht => ?_
        obtain ⟨t', ht', rfl⟩ := List.mem_map.1 (List.mem_of_mem_take ht)
        obtain ⟨fork, hfork, hmem⟩ := List.mem_flatMap.1 ht'
        exact (hforked.quiet fork hfork t' hmem).1
      exact (hstate.trans hmessages).trans (Traces.leads_message out' s' _)
  | ok final =>
    rw [Emission.exec_bind_of_ok hfinal] at hexec
    have hlater := hforked' final rfl
    rw [hscope] at hlater
    have hannounce : (announce final).exec (out', s') = (.ok ⟨⟩,
        (p.1.pushAll ((messagesOf (arms.forks.map Prod.snd ++ final.toList)).map .settled), s')) := by
      rw [messagesOf, List.flatMap_append, List.map_append, Output.pushAll, List.foldl_append, ← hpushed]
      cases final with
      | none => rfl
      | some fork =>
        rw [Option.toList_some, List.flatMap_singleton]
        rfl
    rw [Emission.exec_bind_of_ok hannounce] at hexec
    exact traces_conclude hp loc hexec (hscope'.trans hscope) (hforked.append hlater) htests

/-- IF. -/
theorem traces_assemble (hw : w.Places C) (hp : p.1.Ready w.block.inMacro) (loc : Location) {clauses : List Clause}
    {otherwise : Option (List Token)}
    (hclauses : ∀ D, P D → ∀ c ∈ clauses, c.test.Within D ∧ ∀ t ∈ c.body, t.isOriginal = true)
    (hotherwise : ∀ D, P D → ∀ body ∈ otherwise, ∀ t ∈ body, t.isOriginal = true)
    (hargs : ∀ D, P D → C D ∧ ∀ a ∈ w.around.args, a.Within D) :
    Traces w.assembler.naming [] P (fun _ _ => True) (assemble w loc clauses otherwise) p := by
  obtain ⟨hout, hscope, hsupply, hforked⟩ :=
    sifts_sift hw otherwise (fun D hP c hc => (hclauses D hP c hc).2) hargs p
  have hsifted := (exec_sift w otherwise clauses p).2.2
  rcases hexec : (sift w otherwise clauses).exec p with ⟨r, out, s⟩
  rw [hexec] at hout hscope hsupply hforked hsifted
  dsimp only at hout hscope hsupply hforked hsifted
  subst hout
  rw [assemble]
  cases r with
  | error f =>
    refine .of_error (Emission.exec_bind_of_error hexec) hsupply fun D _ hs => ?_
    rwa [hscope]
  | ok arms =>
    obtain ⟨htests, hlast⟩ := (hsifted arms rfl).mem
    have htests : ∀ D, P D → ∀ arm ∈ arms.forks, arm.1.Within D := by
      intro D hP arm harm
      obtain ⟨c, hc, heq⟩ := htests arm harm
      rw [heq]
      exact (hclauses D hP c hc).1
    have hlast : ∀ D, P D → ∀ body ∈ arms.otherwise, ∀ t ∈ body, t.isOriginal = true := by
      intro D hP body hbody
      rcases hlast body hbody with hbody | ⟨c, hc, rfl⟩
      · exact hotherwise D hP body hbody
      · exact (hclauses D hP c hc).2
    cases hforks : arms.forks.isEmpty with
    | true =>
      refine Traces.bind (Q := fun _ _ => True) (.of_ok hexec ?_) fun arms' q hq => ?_
      · exact .state hsupply fun D _ hs => ⟨hscope ▸ hs, trivial⟩
      · rw [hexec] at hq
        cases hq
        rw [hforks, Bool.not_true, if_neg Bool.false_ne_true]
        split
        · exact .pure fun _ _ => trivial
        · rename_i body hbody
          refine .runner_bind hw fun run hrun => .block_bind fun b hb hkind => .scope_bind ?_
          refine Expand.traces_expand hrun (Expand.fits_same hkind) hp (fun D _ hs => hs.nest)
            (fun D hP => hlast D hP.1.1 body hbody) fun D hP => ?_
          rw [hb]
          exact hargs D hP.1.1
    | false =>
      refine traces_undecided hw hp loc ?_ hscope (hforked arms rfl) htests hlast hargs
      rw [Emission.exec_bind_of_ok hexec, hforks, Bool.not_false, if_pos rfl]

end Conditional

namespace Pass

/-- What the second stage and the third do for a statement that is not an assembled IF. -/
theorem traces_localize (hw : w.Places C) {item : Item} (hitem : item.token.role ≠ .assembled) (s : State) :
    Traces w.assembler.naming item.token.places
      (fun D => (C D ∧ ∀ a ∈ w.around.args, a.Within D) ∧ item.token.Within D) (fun _ _ => True)
      (localize w item) (Output.empty w.block.inMacro, s) := by
  have hp : (Output.empty w.block.inMacro).Ready w.block.inMacro := ⟨rfl, rfl⟩
  have hvalue : ∀ {D : Text → Prop} {loc : Location} {how : Assignment} {name value : Expr},
      (Token.assign loc how name value).Within D → value.Within D := fun h => h.references
  obtain ⟨token, pending⟩ := item
  cases token with
  | inclusion loc path loader => exact Expand.traces_inclusion hw hp loc path loader fun D hP => hP.1
  | radix loc value => exact Bind.traces_setRadix loc value
  | declare loc how names =>
    cases how with
    | locally => exact Bind.traces_declareLocals loc names
    | _ => exact .emitItem fun D hP => hP.2
  | assign loc how name value =>
    cases how with
    | set => exact Bind.traces_assign loc name fun D hP => hvalue hP.2
    | equate => exact Bind.traces_equate loc name fun D hP => hvalue hP.2
    | define => exact Bind.traces_define loc name fun D hP => hvalue hP.2
  | label loc name => exact Bind.traces_label rfl loc name
  | retract loc what names => exact Bind.traces_retract loc what names
  | macroDef loc name parameters body =>
    refine Bind.traces_defineMacro loc name parameters fun D hP => ?_
    exact hP.2.isOriginal_of_mem_bodies body List.mem_cons_self
  | cond loc clauses otherwise assembled =>
    cases assembled with
    | true => exact absurd rfl hitem
    | false =>
      refine Conditional.traces_assemble hw hp loc (fun D hP c hc => ⟨hP.2.test c hc, ?_⟩) (fun D hP body hbody => ?_)
        fun D hP => hP.1
      · exact hP.2.isOriginal_of_mem_bodies c.body (List.mem_append_left _ (List.mem_map_of_mem hc))
      · exact hP.2.isOriginal_of_mem_bodies body (List.mem_append_right _ (Option.mem_toList.2 hbody))
  | dispatch d => exact Expand.traces_call hw hp false rfl (fun D hP => hP.1.1) fun D hP => hP.2
  | dup loc counter iteration body =>
    exact Replay.traces_dup hw .empty false rfl (fun D hP => hP.1) fun D hP => hP.2
  | _ => exact .emitItem fun D hP => hP.2

/-- What the third stage does for a statement that is left to be expanded. -/
theorem traces_expandRest (hw : w.Places C) (item : Item) (s : State) :
    Traces w.assembler.naming item.token.places
      (fun D => (C D ∧ ∀ a ∈ w.around.args, a.Within D) ∧ item.token.Within D) (fun _ _ => True)
      (expandRest w item) (Output.empty w.block.inMacro, s) := by
  have hp : (Output.empty w.block.inMacro).Ready w.block.inMacro := ⟨rfl, rfl⟩
  obtain ⟨token, pending⟩ := item
  cases token with
  | dispatch d => exact Expand.traces_call hw hp true rfl (fun D hP => hP.1.1) fun D hP => hP.2
  | dup loc counter iteration body =>
    exact Replay.traces_dup hw .empty true rfl (fun D hP => hP.1) fun D hP => hP.2
  | _ => exact .emitItem fun D hP => hP.2

end Pass

end Expansion

end MacroAsm
