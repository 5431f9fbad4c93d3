import MacroAsm.Proofs.Assembly.Around
import MacroAsm.Proofs.Assembly.Condition

/-!
# Deciding a condition late

An IF whose tests are bound behind it has its arms assembled where it stands, and the third stage emits what is left
of the arm that is taken (`Entry.standsFor_undecided`). An IF whose tests are written out has that arm assembled alone
(`Entry.standsFor_cond`). Over data both stand for the arm: what waits in it is evaluated once more when the
definitions behind the IF are known.

Main statement: `Assembler.assemble_lateCond`. The two programs write the same if neither reports a failure, apart
from locations and the names that values were resolved through. An arm must not leave a condition of its own, which
is not decided any more after it was emitted (`Assembler.exists_lateCond_ne`).
-/

namespace MacroAsm

namespace Token

theorem isInert_of_isData {t : Token} (h : t.isData = true) : t.isInert = true := by
  cases t with
  | data => rfl
  | _ => cases h

/-- Evaluating data, what it is encoded to and diagnostics makes the run fail if it fails. -/
theorem isLoud_reduce_inert (u : Surroundings) {t : Token} (ht : t.isInert = true) : (reduce u t).IsLoud := by
  cases t with
  | data loc kind values =>
    rw [reduce]
    exact (Eval.isLoud_evaluateAll u true values).bind fun vs => .pure _
  | bytes | message =>
    rw [reduce]
    · exact .pure _
    all_goals simp
  | _ => cases ht

/-- So does evaluating a list of them. -/
theorem isLoud_reduceAll_inert (u : Surroundings) {ts : List Token} (hts : ∀ t ∈ ts, t.isInert = true) :
    (reduceAll u ts).IsLoud := by
  induction ts with
  | nil =>
    rw [reduceAll]
    exact .pure _
  | cons t rest ih =>
    rw [List.forall_mem_cons] at hts
    rw [reduceAll]
    exact (isLoud_reduce_inert u hts.1).bind fun t => (ih hts.2).bind fun ts => .pure _

/-- So does evaluating an IF over them. -/
theorem isLoud_reduce_cond (u : Surroundings) (loc : Location) {clauses : List Clause}
    {otherwise : Option (List Token)} (assembled : Bool) (hclauses : ∀ c ∈ clauses, ∀ t ∈ c.body, t.isInert = true)
    (hotherwise : ∀ t ∈ otherwise.getD [], t.isInert = true) :
    (reduce u (.cond loc clauses otherwise assembled)).IsLoud := by
  have harms : (reduceClauses u assembled clauses).IsLoud := by
    induction clauses with
    | nil =>
      rw [reduceClauses]
      exact .pure _
    | cons c rest ih =>
      obtain ⟨test, body⟩ := c
      rw [List.forall_mem_cons] at hclauses
      rw [reduceClauses]
      refine (Eval.isLoud_evaluate u true test).bind fun v => ?_
      have hrest : ∀ ts, (do
          let cs ← reduceClauses u assembled rest
          return Clause.mk v ts :: cs).IsLoud := fun ts => (ih hclauses.2).bind fun cs => .pure _
      split
      · exact (isLoud_reduceAll_inert u hclauses.1).bind hrest
      · exact (Act.IsLoud.pure _).bind hrest
  have hlast : (reduceBody u assembled otherwise).IsLoud := by
    cases otherwise with
    | none =>
      rw [reduceBody]
      exact .pure _
    | some ts =>
      rw [reduceBody]
      split
      · rw [map_eq_pure_bind]
        exact (isLoud_reduceAll_inert u hotherwise).bind fun ts => .pure _
      · exact .pure _
  rw [reduce]
  exact harms.bind fun cs => hlast.bind fun o => .pure _

end Token

/-- An expression that is a number. -/
def Expr.IsNumber (e : Expr) (n : Int64) : Prop :=
  ∃ loc via, e = .number loc n via

theorem Expr.IsNumber.isConcrete {e : Expr} {n : Int64} (h : e.IsNumber n) : e.isConcrete = true := by
  obtain ⟨loc, via, rfl⟩ := h
  rfl

theorem Expr.IsNumber.asTruth {e : Expr} {n : Int64} (h : e.IsNumber n) : e.asTruth = .ok (n != 0) := by
  obtain ⟨loc, via, rfl⟩ := h
  rfl

namespace Conditional

/-- The tokens of the arm that is taken, where the tests of the arms are the numbers beside them. -/
def chosen : List (Int64 × List Token) → Option (List Token) → List Token
  | [], otherwise => otherwise.getD []
  | (c, body) :: rest, otherwise => if c != 0 then body else chosen rest otherwise

/-- What holds of all arms holds of the one that is taken. -/
theorem forall_mem_chosen {P : Token → Prop} {arms : List (Int64 × List Token)} {otherwise : Option (List Token)}
    (harms : ∀ a ∈ arms, ∀ t ∈ a.2, P t) (hotherwise : ∀ t ∈ otherwise.getD [], P t) :
    ∀ t ∈ chosen arms otherwise, P t := by
  induction arms with
  | nil => exact hotherwise
  | cons a rest ih =>
    rw [List.forall_mem_cons] at harms
    rw [chosen]
    split
    · exact harms.1
    · exact ih harms.2

/-- Arms that are related one by one take related tokens. -/
theorem rel_chosen {R : List Token → List Token → Prop} {arms arms' : List (Int64 × List Token)}
    {otherwise otherwise' : Option (List Token)} (h : List.Forall₂ (fun a a' => a.1 = a'.1 ∧ R a.2 a'.2) arms arms')
    (hotherwise : R (otherwise.getD []) (otherwise'.getD [])) :
    R (chosen arms otherwise) (chosen arms' otherwise') := by
  induction h with
  | nil => exact hotherwise
  | cons hfirst _ ih =>
    rw [chosen, chosen, hfirst.1]
    split
    · exact hfirst.2
    · exact ih

/-- The arms of an IF, whose tests are the numbers beside them in the way that `P` tells. -/
def Tested (P : Expr → Int64 → Prop) (clauses : List Clause) (arms : List (Int64 × List Token)) : Prop :=
  List.Forall₂ (fun c a => P c.test a.1 ∧ c.body = a.2) clauses arms

/-- What holds of the bodies of the arms. -/
theorem Tested.forall_mem {P : Expr → Int64 → Prop} {Q : Token → Prop} {clauses : List Clause}
    {arms : List (Int64 × List Token)} (h : Tested P clauses arms) (harms : ∀ a ∈ arms, ∀ t ∈ a.2, Q t) :
    ∀ c ∈ clauses, ∀ t ∈ c.body, Q t := by
  induction h with
  | nil => exact fun c hc => absurd hc List.not_mem_nil
  | cons hfirst _ ih =>
    rw [List.forall_mem_cons] at harms
    refine List.forall_mem_cons.2 ⟨?_, ih harms.2⟩
    rw [hfirst.2]
    exact harms.1

/-- What holds of the tests. -/
theorem Tested.forall_test {P : Expr → Int64 → Prop} {Q : Expr → Prop} {clauses : List Clause}
    {arms : List (Int64 × List Token)} (h : Tested P clauses arms) (hPQ : ∀ e n, P e n → Q e) :
    ∀ c ∈ clauses, Q c.test := by
  induction h with
  | nil => exact fun c hc => absurd hc List.not_mem_nil
  | cons hfirst _ ih => exact List.forall_mem_cons.2 ⟨hPQ _ _ hfirst.1, ih⟩

/-- An assembled IF whose tests are numbers is decided. -/
theorem decide?_of_numbers {clauses : List Clause} {arms : List (Int64 × List Token)}
    (h : Tested Expr.IsNumber clauses arms) (otherwise : Option (List Token)) :
    decide? otherwise clauses = .ok (some (chosen arms otherwise)) := by
  induction h with
  | nil => rfl
  | @cons c a rest arms hfirst _ ih =>
    obtain ⟨test, body⟩ := c
    obtain ⟨n, body'⟩ := a
    obtain ⟨htest, rfl⟩ : test.IsNumber n ∧ body = body' := hfirst
    rw [decide?, if_pos htest.isConcrete, htest.asTruth, chosen]
    cases n != 0 with
    | true => rfl
    | false => exact ih

/-- Of an IF whose tests are numbers, the arm that is taken is the only one that takes part. -/
theorem sift_of_numbers {clauses : List Clause} {arms : List (Int64 × List Token)}
    (h : Tested Expr.IsNumber clauses arms) (w : Workbench) (otherwise : Option (List Token)) :
    ∃ o, sift w otherwise clauses = pure ⟨[], o⟩ ∧ o.getD [] = chosen arms otherwise := by
  induction h with
  | nil => exact ⟨otherwise, rfl, rfl⟩
  | @cons c a rest arms hfirst _ ih =>
    obtain ⟨test, body⟩ := c
    obtain ⟨n, body'⟩ := a
    obtain ⟨htest, rfl⟩ : test.IsNumber n ∧ body = body' := hfirst
    rw [sift, if_pos htest.isConcrete, htest.asTruth, chosen]
    cases n != 0 with
    | true => exact ⟨some body, rfl, rfl⟩
    | false => exact ih

/-- Of an IF without a test that is decided, every arm takes part. -/
theorem Sifted.forall₂ {w : Workbench} {scope : Scope} {otherwise : Option (List Token)} {clauses : List Clause}
    {arms : Arms} (h : Sifted w scope otherwise clauses arms) (hundecided : ∀ c ∈ clauses, c.test.isConcrete = false) :
    arms.otherwise = otherwise ∧
      List.Forall₂ (fun c arm => arm.1 = c.test ∧ IsArm w scope c.body arm.2) clauses arms.forks := by
  induction h with
  | nil => exact ⟨rfl, .nil⟩
  | taken hconcrete | skipped hconcrete =>
    exact absurd (hconcrete.symm.trans (hundecided _ List.mem_cons_self)) Bool.noConfusion
  | forked _ harm _ ih =>
    obtain ⟨hsame, hall⟩ := ih fun c hc => hundecided c (List.mem_cons_of_mem _ hc)
    exact ⟨hsame, .cons ⟨rfl, harm⟩ hall⟩

/-- Going through the arms of an IF makes the run fail if it fails. -/
theorem fails_of_exec_sift {w : Workbench} {otherwise : Option (List Token)} {clauses : List Clause}
    {p : Output × State} {f : Failure} (h : ((sift w otherwise clauses).exec p).1 = .error f) : f.fails = true := by
  induction clauses generalizing p with
  | nil => cases h
  | cons c rest ih =>
    obtain ⟨test, body⟩ := c
    rw [sift] at h
    split at h
    · cases htest : test.asTruth with
      | error cause =>
        rw [htest, Emission.exec_bind_of_error (show (Emission.require (.error cause)).exec p = _ from rfl)] at h
        cases h
        rfl
      | ok taken =>
        rw [htest, Emission.exec_bind_of_ok (show (Emission.require (.ok taken)).exec p = _ from rfl)] at h
        cases taken with
        | true => cases h
        | false => exact ih h
    · rcases hfork : (prospect w body).exec p with ⟨r, q⟩
      cases r with
      | error f' =>
        rw [Emission.exec_bind_of_error hfork] at h
        cases h
        exact fails_of_exec_prospect (congrArg Prod.fst hfork)
      | ok fork =>
        rw [Emission.exec_bind_of_ok hfork] at h
        rcases hrest : (sift w otherwise rest).exec q with ⟨r, q'⟩
        cases r with
        | error f' =>
          rw [Emission.exec_bind_of_error hrest] at h
          cases h
          exact ih (congrArg Prod.fst hrest)
        | ok arms =>
          rw [Emission.exec_bind_of_ok hrest] at h
          cases h

/-- Handling an IF with an arm that only the linker can decide makes the run fail if it fails, and leaves the output
open. -/
theorem fails_of_exec_assemble {w : Workbench} {loc : Location} {clauses : List Clause}
    {otherwise : Option (List Token)} {s s' : State} {f : Failure} {out : Output}
    (hundecided : ∀ arms, Sifted w s.scope otherwise clauses arms → arms.forks ≠ [])
    (h : (assemble w loc clauses otherwise).exec (Output.empty w.block.inMacro, s) = (.error f, (out, s'))) :
    f.fails = true ∧ out.closed = false := by
  obtain ⟨hsame, hscope, harms⟩ := exec_sift w otherwise clauses (Output.empty w.block.inMacro, s)
  have hfails : ∀ f, ((sift w otherwise clauses).exec (Output.empty w.block.inMacro, s)).1 = .error f →
      f.fails = true := fun f => fails_of_exec_sift
  rw [assemble] at h
  rcases hsift : (sift w otherwise clauses).exec (Output.empty w.block.inMacro, s) with ⟨r, q⟩
  rw [hsift] at hsame hscope harms hfails
  cases r with
  | error f' =>
    rw [Emission.exec_bind_of_error hsift] at h
    cases h
    exact ⟨hfails f rfl, congrArg Output.closed hsame⟩
  | ok arms =>
    have hsifted := harms arms rfl
    have hout : q.1 = Output.empty w.block.inMacro := hsame
    rw [Emission.exec_bind_of_ok hsift, if_pos (by simpa using hundecided arms hsifted)] at h
    rcases exec_undecided w loc arms q with ⟨f', t, hexec, -, hf'⟩ | ⟨final, t, hfinal, ht, hexec⟩
    · rw [hout] at hexec
      have hpair := h.symm.trans hexec
      cases hpair
      refine ⟨hf', (items_pushAll_messagesOf (s := s) fun fork hfork => ?_).2.1⟩
      obtain ⟨arm, harm, rfl⟩ := List.mem_map.1 hfork
      exact (hsifted.isArm arm harm).1
    · rw [hout, exec_conclude loc _ final _ t rfl] at hexec
      rw [hscope] at hfinal
      have hpair := h.symm.trans hexec
      split at hpair
      · cases hpair
        exact ⟨rfl, (items_pushAll_messagesOf (isArm_of_sifted hsifted hfinal)).2.1⟩
      · cases hpair

end Conditional

namespace Entry

open Eval (Leaves PortableNames)
open Conditional (chosen IsArm Tested)

section Reduces

variable {u : Surroundings} {radix : Nat} {b : Text → Binding} {s s' : State}

/-- What evaluation leaves of data, what it is encoded to and diagnostics. -/
inductive Reduces (u : Surroundings) (radix : Nat) (b : Text → Binding) : Token → Token → Prop where
  /-- Data. -/
  | data {loc : Location} {kind : DataKind} {vs rs : List Expr}
    (hvalues : List.Forall₂ (fun v r => Leaves u radix b v true r) vs rs) :
    Reduces u radix b (.data loc kind vs) (.data loc kind rs)
  /-- Anything else stays what it is. -/
  | kept {t : Token} (hinert : t.isInert = true) (hdata : t.isData = false) : Reduces u radix b t t

/-- It is data, what data is encoded to or a diagnostic again. -/
theorem Reduces.isInert {t t' : Token} (h : Reduces u radix b t t') : t'.isInert = true := by
  cases h with
  | data => rfl
  | kept hinert _ => exact hinert

/-- What is written for what is left of a token is written for the token when it is evaluated again. -/
theorem Reduces.finishes {t t' : Token} {ts : List Token} (h : Reduces u radix b t t')
    (h' : Finishes u radix b (.settled t') ts) : Finishes u radix b ⟨t, true⟩ ts := by
  cases h with
  | data hvalues =>
    cases h'.completes rfl with
    | settled hencoded => exact .data (.pending hvalues hencoded)
  | kept hinert hdata =>
    obtain rfl := h'.eq_singleton hdata
    exact .kept hinert hdata h'.not_fails

/-- What is written for what is left of tokens is written for the tokens when they are evaluated again. -/
theorem finishes_of_reduces {ts ts' : List Token} {tss : List (List Token)}
    (h : List.Forall₂ (Reduces u radix b) ts ts')
    (h' : List.Forall₂ (Finishes u radix b) (ts'.map Item.settled) tss) :
    List.Forall₂ (Finishes u radix b) (ts.map fun t => ⟨t, true⟩) tss := by
  induction h generalizing tss with
  | nil => exact h'
  | cons hfirst _ ih =>
    obtain ⟨out, tss', hout, hrest, rfl⟩ := List.forall₂_cons_left_iff.1 h'
    exact .cons (hfirst.finishes hout) (ih hrest)

/-- Evaluating such a token. -/
theorem reduces_of_exec {t t' : Token} (ht : t.isInert = true)
    (h : (Token.reduce u t).exec s = (.ok t', s')) :
    Reduces u s.scope.radix s.scope.binding t t' ∧ s'.scope.binding = s.scope.binding := by
  cases t with
  | data loc kind values =>
    rw [Token.reduce] at h
    obtain ⟨vs, s1, hvalues, hpure⟩ := Act.exists_of_exec_bind h
    cases hpure
    obtain ⟨hleaves, hbinding, -⟩ := Eval.leaves_of_evaluateAll hvalues
    exact ⟨.data hleaves, hbinding⟩
  | bytes | message =>
    rw [Token.reduce] at h
    · cases h
      exact ⟨.kept rfl rfl, rfl⟩
    all_goals simp
  | _ => cases ht

/-- Evaluating a list of such tokens. -/
theorem reduces_of_exec_all {ts ts' : List Token} (hts : ∀ t ∈ ts, t.isInert = true)
    (h : (Token.reduceAll u ts).exec s = (.ok ts', s')) :
    List.Forall₂ (Reduces u s.scope.radix s.scope.binding) ts ts' ∧ s'.scope.binding = s.scope.binding := by
  induction ts generalizing s ts' with
  | nil =>
    rw [Token.reduceAll] at h
    cases h
    exact ⟨.nil, rfl⟩
  | cons t rest ih =>
    rw [List.forall_mem_cons] at hts
    rw [Token.reduceAll] at h
    obtain ⟨t', s1, hfirst, h⟩ := Act.exists_of_exec_bind h
    obtain ⟨rest', s2, hrest, hpure⟩ := Act.exists_of_exec_bind h
    cases hpure
    obtain ⟨hreduces, hbinding⟩ := reduces_of_exec hts.1 hfirst
    obtain ⟨hall, hbinding'⟩ := ih hts.2 hrest
    rw [Scope.radix_eq, hbinding, ← Scope.radix_eq] at hall
    exact ⟨.cons hreduces hall, hbinding'.trans hbinding⟩

end Reduces

section Late

variable {w : Workbench} {u : Surroundings} {s s' : State} {t : Trail} {b : Text → Binding} {clauses : List Clause}
  {arms : List (Int64 × List Token)} {otherwise : Option (List Token)}

/-- Evaluating an IF whose tests stand for nothing leaves it as it is, before its arms are assembled. -/
theorem eq_of_exec_unset {cs : List Clause} (hunset : ∀ c ∈ clauses, IsUnset s.scope.binding c.test)
    (h : (Token.reduceClauses u false clauses).exec s = (.ok cs, s')) :
    cs = clauses ∧ s'.scope.binding = s.scope.binding := by
  induction clauses generalizing s cs with
  | nil =>
    rw [Token.reduceClauses] at h
    cases h
    exact ⟨rfl, rfl⟩
  | cons c rest ih =>
    obtain ⟨test, body⟩ := c
    rw [List.forall_mem_cons] at hunset
    obtain ⟨⟨loc, name, rfl, hname⟩, hrest⟩ := hunset
    rw [Token.reduceClauses] at h
    obtain ⟨v, s1, hvalue, h⟩ := Act.exists_of_exec_bind h
    obtain ⟨ts, s2, hts, h⟩ := Act.exists_of_exec_bind h
    obtain ⟨cs, s3, hcs, hpure⟩ := Act.exists_of_exec_bind h
    cases hts
    cases hpure
    obtain ⟨hleaves, hbinding, -⟩ := Eval.leaves_of_evaluate hvalue
    obtain rfl := eq_of_leaves_unset hname hleaves
    obtain ⟨rfl, hbinding'⟩ := ih (by rwa [hbinding]) hcs
    exact ⟨rfl, hbinding'.trans hbinding⟩

/-- An IF whose tests stand for nothing is left as it is. -/
theorem eq_of_exec_cond {loc : Location} {token : Token} (hunset : ∀ c ∈ clauses, IsUnset s.scope.binding c.test)
    (h : (Token.reduce u (.cond loc clauses otherwise false)).exec s = (.ok token, s')) :
    token = .cond loc clauses otherwise false ∧ s'.scope.binding = s.scope.binding := by
  rw [Token.reduce] at h
  obtain ⟨cs, s1, hcs, h⟩ := Act.exists_of_exec_bind h
  obtain ⟨o, s2, ho, hpure⟩ := Act.exists_of_exec_bind h
  cases hpure
  obtain ⟨rfl, hbinding⟩ := eq_of_exec_unset hunset hcs
  cases otherwise with
  | none =>
    rw [Token.reduceBody] at ho
    cases ho
    exact ⟨rfl, hbinding⟩
  | some ts =>
    rw [Token.reduceBody] at ho
    cases ho
    exact ⟨rfl, hbinding⟩

/-- Evaluating the arms of an IF whose tests stand for numbers, after they were assembled. -/
theorem reduces_of_exec_clauses {cs : List Clause} (htests : Tested (StandsForNumber s.scope.binding) clauses arms)
    (harms : ∀ a ∈ arms, ∀ t ∈ a.2, t.isInert = true)
    (h : (Token.reduceClauses u true clauses).exec s = (.ok cs, s')) :
    ∃ arms', Tested Expr.IsNumber cs arms' ∧
      List.Forall₂ (fun a a' => a.1 = a'.1 ∧ List.Forall₂ (Reduces u s.scope.radix s.scope.binding) a.2 a'.2)
        arms arms' ∧ s'.scope.binding = s.scope.binding := by
  -- by induction on the arms: each of them is evaluated in the state that the one before it leaves, over the same names
  generalize hb : s.scope.binding = b at htests
  induction htests generalizing s cs with
  | nil =>
    rw [Token.reduceClauses] at h
    cases h
    exact ⟨[], .nil, .nil, hb⟩
  | @cons c a rest arms hfirst _ ih =>
    obtain ⟨test, body⟩ := c
    obtain ⟨n, ts⟩ := a
    obtain ⟨⟨loc, name, l, via, rfl, hname⟩, rfl⟩ := hfirst
    rw [List.forall_mem_cons] at harms
    rw [Token.reduceClauses] at h
    obtain ⟨v, s1, hvalue, h⟩ := Act.exists_of_exec_bind h
    obtain ⟨ts', s2, hts, h⟩ := Act.exists_of_exec_bind h
    obtain ⟨cs', s3, hcs, hpure⟩ := Act.exists_of_exec_bind h
    cases hpure
    obtain ⟨hleaves, hvalued, -⟩ := Eval.leaves_of_evaluate hvalue
    rw [hb] at hleaves
    obtain ⟨l', via', rfl⟩ := exists_of_leaves_number hname hleaves
    obtain ⟨hreduces, hbody⟩ := reduces_of_exec_all harms.1 hts
    obtain ⟨arms', htested, hall, hrest⟩ := ih harms.2 hcs ((hbody.trans hvalued).trans hb)
    rw [Scope.radix_eq, hvalued, hb] at hreduces
    rw [Scope.radix_eq, hbody, hvalued, hb] at hall
    rw [Scope.radix_eq, hb]
    exact ⟨(n, ts') :: arms', .cons ⟨⟨l', via', rfl⟩, rfl⟩ htested, .cons ⟨rfl, hreduces⟩ hall, hrest⟩

/-- Evaluating what is taken if no test holds, after it was assembled. -/
theorem reduces_of_exec_body {o : Option (List Token)} (hotherwise : ∀ t ∈ otherwise.getD [], t.isInert = true)
    (h : (Token.reduceBody u true otherwise).exec s = (.ok o, s')) :
    List.Forall₂ (Reduces u s.scope.radix s.scope.binding) (otherwise.getD []) (o.getD []) ∧
      s'.scope.binding = s.scope.binding := by
  cases otherwise with
  | none =>
    rw [Token.reduceBody] at h
    cases h
    exact ⟨.nil, rfl⟩
  | some ts =>
    rw [Token.reduceBody, if_pos rfl, map_eq_pure_bind] at h
    obtain ⟨ts', s1, hall, hpure⟩ := Act.exists_of_exec_bind h
    cases hpure
    exact reduces_of_exec_all hotherwise hall

/-- What is left of data, what it is encoded to and diagnostics is that again. -/
theorem isInert_of_reduces {radix : Nat} {ts ts' : List Token} (h : List.Forall₂ (Reduces u radix b) ts ts') :
    ∀ t ∈ ts', t.isInert = true := by
  induction h with
  | nil => exact fun t ht => absurd ht List.not_mem_nil
  | cons hfirst _ ih => exact List.forall_mem_cons.2 ⟨hfirst.isInert, ih⟩

/-- An assembled IF whose tests are numbers emits the arm that is taken. -/
theorem replays_decide (htests : Tested Expr.IsNumber clauses arms)
    (hchosen : ∀ t ∈ chosen arms otherwise, t.isInert = true) (item : Item) :
    Replay.Replays b (Conditional.decide item clauses otherwise) fun items =>
      items = (chosen arms otherwise).map .settled := by
  intro out s _ hs
  refine ⟨(chosen arms otherwise).map .settled, s, ?_, hs, fun i hi => ?_, Or.inr rfl⟩
  · rw [Conditional.decide, Conditional.decide?_of_numbers htests]
    rfl
  · obtain ⟨t, ht, rfl⟩ := List.mem_map.1 hi
    exact hchosen t ht

/-- The third stage decides an IF whose tests were bound behind it. What is left of the arm that is taken is evaluated
once more. -/
theorem advances_finish_undecided (ht : t.stopped = false) {loc : Location}
    (htests : Tested (StandsForNumber b) clauses arms) (harms : ∀ a ∈ arms, ∀ t ∈ a.2, t.isInert = true)
    (hotherwise : ∀ t ∈ otherwise.getD [], t.isInert = true) (hs : s.scope.binding = b) :
    Advances t (fun added s' => s'.scope.binding = b ∧ ∃ tss,
        List.Forall₂ (Finishes w.around (b Scope.radixName).radix b)
          ((chosen arms otherwise).map fun t => ⟨t, true⟩) tss ∧ added.map Item.token = tss.flatten)
      ((finishOne w ⟨.cond loc clauses otherwise true, true⟩ t).run s) := by
  rw [finishOne]
  rcases hexec : (Token.reduce w.around (.cond loc clauses otherwise true)).exec s with ⟨x, s1⟩
  cases x with
  | error f =>
    have hf := Token.isLoud_reduce_cond w.around loc true (htests.forall_mem harms) hotherwise s f (by rw [hexec])
    exact advances_of_error ht rfl hf (Pass.exec_reduceAgain_of_error rfl hexec)
  | ok token =>
    have hparts := hexec
    rw [Token.reduce] at hparts
    obtain ⟨cs, s2, hcs, hparts⟩ := Act.exists_of_exec_bind hparts
    obtain ⟨o, s3, ho, hpure⟩ := Act.exists_of_exec_bind hparts
    cases hpure
    subst hs
    obtain ⟨arms', htests', hall, hbinding⟩ := reduces_of_exec_clauses htests harms hcs
    obtain ⟨hrest, hbinding'⟩ := reduces_of_exec_body hotherwise ho
    rw [Scope.radix_eq, hbinding] at hrest
    rw [Scope.radix_eq] at hall
    -- whatever the arm that is taken, what is left of it is left of the arm as it was assembled
    have hreduces := Conditional.rel_chosen hall hrest
    rw [Stage.run_through_step ht (Pass.run_handle_of_ok rfl (Pass.exec_reduceAgain_of_ok rfl hexec)) rfl]
    have hdecide : Replay.Replays s.scope.binding (Pass.localize w (.settled (.cond loc cs o true)))
        fun items => items = (chosen arms' o).map .settled :=
      replays_decide htests' (isInert_of_reduces hreduces) _
    refine (advances_replayed ht rfl hdecide (hbinding'.trans hbinding)).imp_right ?_
    rintro ⟨added, hadded, hstopped, hs', items, tss, rfl, hfinishes, htokens⟩
    refine ⟨added, hadded, hstopped, hs', tss, finishes_of_reduces hreduces ?_, htokens⟩
    rwa [List.forall₂_map_left_iff] at hfinishes ⊢

end Late

section Arm

variable {w : Workbench} {run : Runner} {s : State} {body : List Token} {fork : Conditional.Fork}

/-- What assembling a body of data leaves, without diagnostics. -/
def Assembled (args : List Expr) (b : Text → Binding) (body ts : List Token) : Prop :=
  ∃ (unit : Text) (entered : List Item) (tss : List (List Token)),
    EntersAll ⟨unit, args⟩ (b Scope.radixName).radix b body entered b ∧
    List.Forall₂ (Completes ⟨unit, args⟩ (b Scope.radixName).radix b) entered tss ∧ ts = Token.products tss.flatten

/-- What is left is data, what data is encoded to and diagnostics. -/
theorem Assembled.isInert {args : List Expr} {b : Text → Binding} {ts : List Token} (h : Assembled args b body ts) :
    ∀ t ∈ ts, t.isInert = true := by
  obtain ⟨unit, entered, tss, -, hcompletes, rfl⟩ := h
  have hall : ∀ ts ∈ tss, ∀ t ∈ ts, t.isInert = true := by
    induction hcompletes with
    | nil => exact fun ts hts => absurd hts List.not_mem_nil
    | cons hfirst _ ih =>
      refine List.forall_mem_cons.2 ⟨?_, ih⟩
      cases hfirst with
      | pending _ hencoded => exact Pass.isInert_of_data hencoded
      | settled hencoded => exact Pass.isInert_of_data hencoded
  intro t ht
  obtain ⟨ts, hts, ht⟩ := List.mem_flatten.1 (List.mem_filter.1 ht).1
  exact hall ts hts t ht

/-- An arm over data binds nothing. It reports a failure, or it is what assembling the data leaves. -/
theorem assembled_of_isArm (hrun : w.runner = some run) (hdata : run.AssemblesData)
    (hbody : ∀ t ∈ body, t.isData = true) (hradix : (s.scope.binding Scope.radixName).isSet = true)
    (h : IsArm w s.scope body fork) : s.scope.Echoes fork.scope ∧
      ((∃ t ∈ fork.messages, t.fails = true) ∨ Assembled w.around.args s.scope.binding body fork.body) := by
  obtain ⟨run', block, s1, hrun', hargs, -, -, hscope, hfatal, rfl⟩ := h
  rw [hrun, Option.some.injEq] at hrun'
  subst hrun'
  obtain ⟨hshows, -, hresult⟩ := hdata block body s1 _ s.scope s.scope.binding hbody
    (by rw [hscope]; exact s.scope.shows_nest) rfl hradix
  rw [Conditional.run_collect] at hfatal ⊢
  split at hfatal
  · rename_i hsome
    rw [hfatal] at hsome
    cases hsome
  · rename_i hnone
    rw [if_neg hnone]
    -- the diagnostics of the account are no products
    have hreports : Token.products (((account block.nested).run ((run block body).run s1).2).1) = [] :=
      Token.products_eq_nil fun t ht => (Scope.mem_accountFor ht).1
    refine ⟨(hshows.account block.nested).around, ?_⟩
    refine hresult.imp ?_ ?_
    · rintro ⟨t, ht, hfails⟩
      refine ⟨t, List.mem_filter.2 ⟨List.mem_append_left _ ht, ?_⟩, hfails⟩
      cases t with
      | message d => rfl
      | _ => cases hfails
    · rintro ⟨entered, tss, henters, hcompletes, htokens⟩
      refine ⟨block.around.unit, entered, tss, ?_, ?_, ?_⟩
      · rw [← hargs]
        exact henters
      · rw [← hargs]
        exact hcompletes
      · refine (Token.products_append _ _).trans ?_
        rw [hreports, List.append_nil, htokens]

end Arm

/-- So is what is left of several bodies of data. -/
theorem forall_mem_of_assembled {args : List Expr} {b : Text → Binding} {arms arms' : List (Int64 × List Token)}
    (h : List.Forall₂ (fun a a' => a.1 = a'.1 ∧ Assembled args b a.2 a'.2) arms arms') :
    ∀ a ∈ arms', ∀ t ∈ a.2, t.isInert = true := by
  induction h with
  | nil => exact fun a ha => absurd ha List.not_mem_nil
  | cons hfirst _ ih => exact List.forall_mem_cons.2 ⟨hfirst.2.isInert, ih⟩

section Pending

variable {w : Workbench} {run : Runner} {s s' : State} {t : Trail} {loc : Location} {P : Expr → Int64 → Prop}
  {clauses : List Clause} {arms : List (Int64 × List Token)} {otherwise : Option (List Token)} {out : Output}

/-- What the second stage leaves of an IF over data that it cannot decide: diagnostics, and the IF with what
assembling its arms leaves. -/
def Pends (P : Expr → Int64 → Prop) (args : List Expr) (b : Text → Binding) (loc : Location)
    (arms : List (Int64 × List Token)) (otherwise : Option (List Token)) (items : List Item) : Prop :=
  ∃ (messages : List Token) (clauses : List Clause) (arms' : List (Int64 × List Token)) (o : Option (List Token)),
    items = messages.map .settled ++ [⟨.cond loc clauses o true, true⟩] ∧
    (∀ t ∈ messages, t.isMessage = true) ∧ Tested P clauses arms' ∧
    List.Forall₂ (fun a a' => a.1 = a'.1 ∧ Assembled args b a.2 a'.2) arms arms' ∧
    Assembled args b (otherwise.getD []) (o.getD [])

variable (hrun : w.runner = some run) (hdata : run.AssemblesData) (harms : ∀ a ∈ arms, ∀ t ∈ a.2, t.isData = true)
  (hotherwise : ∀ t ∈ otherwise.getD [], t.isData = true)
  (hradix : (s.scope.binding Scope.radixName).isSet = true)
include hrun hdata harms hradix

/-- Arms over data bind nothing. One of them reports a failure, or they are what assembling the data leaves. -/
theorem assembled_of_forall₂ {forks : List (Expr × Conditional.Fork)} (htests : Tested P clauses arms)
    (h : List.Forall₂ (fun c arm => arm.1 = c.test ∧ IsArm w s.scope c.body arm.2) clauses forks) :
    (∀ arm ∈ forks, s.scope.Echoes arm.2.scope) ∧
      ((∃ arm ∈ forks, ∃ t ∈ arm.2.messages, t.fails = true) ∨ ∃ arms',
        Tested P (Conditional.clausesOf forks) arms' ∧
        List.Forall₂ (fun a a' => a.1 = a'.1 ∧ Assembled w.around.args s.scope.binding a.2 a'.2) arms arms') := by
  -- arm by arm, as each is assembled against a copy of the same scope
  induction h generalizing arms with
  | nil =>
    cases htests
    exact ⟨fun arm harm => absurd harm List.not_mem_nil, Or.inr ⟨[], .nil, .nil⟩⟩
  | @cons c arm rest forks hfirst _ ih =>
    obtain ⟨test, body⟩ := c
    obtain ⟨test', fork⟩ := arm
    obtain ⟨rfl, harm⟩ := hfirst
    obtain ⟨⟨n, ts⟩, arms', ⟨htest, rfl⟩, hrest, rfl⟩ := List.forall₂_cons_left_iff.1 htests
    rw [List.forall_mem_cons] at harms
    obtain ⟨hechoes, hassembled⟩ := assembled_of_isArm hrun hdata harms.1 hradix harm
    obtain ⟨hall, hothers⟩ := ih harms.2 hrest
    refine ⟨List.forall_mem_cons.2 ⟨hechoes, hall⟩, ?_⟩
    rcases hassembled with ⟨t, ht, hfails⟩ | hassembled
    · exact Or.inl ⟨_, List.mem_cons_self, t, ht, hfails⟩
    · refine hothers.imp ?_ ?_
      · rintro ⟨other, hother, hfails⟩
        exact ⟨other, List.mem_cons_of_mem _ hother, hfails⟩
      · rintro ⟨arms'', htests', hassembled'⟩
        exact ⟨(n, fork.body) :: arms'', .cons ⟨htest, rfl⟩ htests', .cons ⟨rfl, hassembled⟩ hassembled'⟩

include hotherwise

/-- Handling an IF over data that only the linker can decide binds nothing. It reports a failure, or it leaves what
assembling the arms does. -/
theorem pends_of_exec (htests : Tested P clauses arms) (hundecided : ∀ c ∈ clauses, c.test.isConcrete = false)
    (hne : clauses ≠ [])
    (h : (Conditional.assemble w loc clauses otherwise).exec (Output.empty w.block.inMacro, s) = (.ok ⟨⟩, (out, s'))) :
    s'.scope.binding = s.scope.binding ∧ out.closed = false ∧
      ((∃ i ∈ out.items, i.token.fails = true) ∨
        Pends P w.around.args s.scope.binding loc arms otherwise out.items) := by
  obtain ⟨⟨test, body⟩, rest, rfl⟩ := List.exists_cons_of_ne_nil hne
  obtain ⟨parts, final, hsifted, -, hfinal, hmerged, hout⟩ := Conditional.exists_arms_of_exec
    (hundecided _ List.mem_cons_self) (fun c hc => absurd hc List.not_mem_nil) (List.nil_append _).symm h
  have hpushed : out.items = (Conditional.messagesOf (parts.forks.map Prod.snd ++ final.toList)).map .settled ++
      [Conditional.emitted loc parts.forks final] ∧
      ∀ t ∈ Conditional.messagesOf (parts.forks.map Prod.snd ++ final.toList), t.isMessage = true := by
    rw [hout]
    exact Conditional.items_push_emitted hsifted hfinal
  have hclosed : out.closed = false := by
    obtain ⟨-, hopen, -⟩ := Conditional.items_pushAll_messagesOf (Conditional.isArm_of_sifted hsifted hfinal)
    rw [hout, Output.push, if_neg (by rw [hopen]; exact Bool.false_ne_true)]
    rfl
  obtain ⟨hother, hforks⟩ := hsifted.forall₂ hundecided
  obtain ⟨hechoes, hassembled⟩ := assembled_of_forall₂ hrun hdata harms hradix htests hforks
  -- a failure in an arm is reported before the IF
  have hfailed : ∀ fork ∈ parts.forks.map Prod.snd ++ final.toList, (∃ t ∈ fork.messages, t.fails = true) →
      ∃ t ∈ Conditional.messagesOf (parts.forks.map Prod.snd ++ final.toList), t.fails = true := by
    rintro fork hfork ⟨t, ht, hfails⟩
    exact ⟨t, List.mem_flatMap.2 ⟨fork, hfork, ht⟩, hfails⟩
  have hlast : s.scope.Echoes ((final.map Conditional.Fork.scope).getD s.scope) ∧
      ((∃ t ∈ Conditional.messagesOf (parts.forks.map Prod.snd ++ final.toList), t.fails = true) ∨
        Assembled w.around.args s.scope.binding (otherwise.getD [])
          ((final.bind fun fork => Conditional.bodyOr fork.body).getD [])) := by
    rw [hother] at hfinal
    cases hfinal with
    | absent => exact ⟨.refl _, Or.inr ⟨Text.empty, [], [], .nil, .nil, rfl⟩⟩
    | @present body final hfork =>
      obtain ⟨hechoes, hsecond⟩ := assembled_of_isArm hrun hdata hotherwise hradix hfork
      refine ⟨hechoes, hsecond.imp (hfailed final (List.mem_append_right _ (List.mem_singleton.2 rfl))) fun h => ?_⟩
      rwa [Option.bind_some, Conditional.getD_bodyOr]
  -- the arms bound nothing, so neither does merging them
  have hmerge : s.scope.Echoes s'.scope := by
    have hall := Scope.Echoes.mergeForks (.refl s.scope) hlast.1 hechoes
    rwa [hmerged] at hall
  refine ⟨hmerge.binding_eq, hclosed, ?_⟩
  rw [hpushed.1]
  by_cases hfails : ∃ t ∈ Conditional.messagesOf (parts.forks.map Prod.snd ++ final.toList), t.fails = true
  · obtain ⟨t, ht, htfails⟩ := hfails
    exact Or.inl ⟨.settled t, List.mem_append_left _ (List.mem_map_of_mem ht), htfails⟩
  · have hquiet : ¬ ∃ arm ∈ parts.forks, ∃ t ∈ arm.2.messages, t.fails = true := by
      rintro ⟨arm, harm, hmessages⟩
      exact hfails (hfailed arm.2 (List.mem_append_left _ (List.mem_map_of_mem harm)) hmessages)
    obtain ⟨arms', htests', hall⟩ := hassembled.resolve_left hquiet
    exact Or.inr ⟨_, _, arms', _, rfl, hpushed.2, htests', hall, hlast.2.resolve_left hfails⟩

/-- The second stage assembles the arms of an IF whose tests stand for nothing yet. -/
theorem advances_bind_undecided (ht : t.stopped = false) (loc : Location) (htests : Tested P clauses arms)
    (hunset : ∀ c ∈ clauses, IsUnset s.scope.binding c.test) (hne : clauses ≠ []) :
    Advances t (fun items s' => s'.scope.binding = s.scope.binding ∧
        Pends P w.around.args s.scope.binding loc arms otherwise items)
      ((bindOne w (.settled (.cond loc clauses otherwise false)) t).run s) := by
  have hundecided : ∀ c ∈ clauses, c.test.isConcrete = false := by
    intro c hc
    obtain ⟨nameLoc, name, htest, -⟩ := hunset c hc
    rw [htest]
    rfl
  rw [bindOne]
  rcases hexec : (Token.reduce w.around (.cond loc clauses otherwise false)).exec s with ⟨x, s1⟩
  cases x with
  | error f =>
    -- evaluating the tests failed
    have hloud := Token.isLoud_reduce_cond w.around loc false
      (htests.forall_mem fun a ha t ht => Token.isInert_of_isData (harms a ha t ht))
      fun t ht => Token.isInert_of_isData (hotherwise t ht)
    exact advances_of_error ht rfl (hloud s f (by rw [hexec])) (Pass.exec_reduceFirst_of_error hexec)
  | ok token =>
    obtain ⟨rfl, hbinding⟩ := eq_of_exec_cond hunset hexec
    rw [Stage.run_through_step ht (Pass.run_handle_of_ok rfl (Pass.exec_reduceFirst_of_ok hexec)) rfl]
    rcases hlocalize : (Conditional.assemble w loc clauses otherwise).exec (Output.empty w.block.inMacro, s1)
      with ⟨r, out, s2⟩
    rw [← hbinding] at hradix
    cases r with
    | error f =>
      -- no test is decided, so an arm takes part
      have hforks : ∀ parts, Conditional.Sifted w s1.scope otherwise clauses parts → parts.forks ≠ [] := by
        intro parts hsifted hnil
        obtain ⟨-, hall⟩ := hsifted.forall₂ hundecided
        rw [hnil, List.forall₂_nil_right_iff] at hall
        exact hne hall
      obtain ⟨hf, hopen⟩ := Conditional.fails_of_exec_assemble hforks hlocalize
      rw [Stage.run_through_last (Pass.run_handle_of_error rfl hlocalize)]
      refine Or.inl ⟨.message (f.toDiagnostic loc), ?_, by rw [← hf]; exact Failure.fails_toDiagnostic loc f⟩
      rw [Trail.items_add, Output.items_push_of_open hopen]
      exact List.mem_append_right _ (List.mem_append_right _ (List.mem_singleton.2 rfl))
    | ok =>
      obtain ⟨hbinding', hopen, hout⟩ :=
        pends_of_exec hrun hdata harms hotherwise hradix htests hundecided hne hlocalize
      rw [Stage.run_through_last (Pass.run_handle_of_ok rfl hlocalize)]
      rcases hout with ⟨i, hi, hfails⟩ | hpends
      · refine Or.inl ⟨i, ?_, hfails⟩
        rw [Trail.items_add]
        exact List.mem_append_right _ hi
      · rw [hopen]
        rw [hbinding] at hpends
        exact .of_add ht ⟨hbinding'.trans hbinding, hpends⟩

end Pending

section Stands

variable {w : Workbench} {run : Runner} {clauses : List Clause} {arms : List (Int64 × List Token)} {after : List Token}
  {otherwise : Option (List Token)}
  (hargs : w.around.args = []) (hrun : w.runner = some run) (hdata : run.AssemblesData)
  (harms : ∀ a ∈ arms, ∀ t ∈ a.2, t.isDatum = true) (hotherwise : ∀ t ∈ otherwise.getD [], t.isDatum = true)
  (hafter : ∀ token ∈ after, token.isEquate = true ∨ token.isData = true)

theorem isPassed_cond (w : Workbench) (loc : Location) (clauses : List Clause) (otherwise : Option (List Token)) :
    w.IsPassed (.cond loc clauses otherwise false) :=
  ⟨rfl, rfl, fun _ => rfl⟩

/-- Evaluating an IF whose tests are numbers leaves it as it is, before its arms are assembled. -/
theorem exec_reduce_cond (u : Surroundings) (loc : Location) (htests : Tested Expr.IsNumber clauses arms) (s : State) :
    (Token.reduce u (.cond loc clauses otherwise false)).exec s = (.ok (.cond loc clauses otherwise false), s) := by
  have hclauses : (Token.reduceClauses u false clauses).exec s = (.ok clauses, s) := by
    induction htests with
    | nil => rfl
    | @cons c a rest arms hfirst _ ih =>
      obtain ⟨test, body⟩ := c
      obtain ⟨⟨l, via, rfl⟩, -⟩ : (∃ l via, test = .number l a.1 via) ∧ _ := hfirst
      have hvalue : (Eval.evaluate u true (.number l a.1 via)).exec s = (.ok (.number l a.1 via), s) := rfl
      rw [Token.reduceClauses, Act.exec_bind_of_ok hvalue]
      exact Act.exec_bind_of_ok ih
  have hother : (Token.reduceBody u false otherwise).exec s = (.ok otherwise, s) := by
    cases otherwise with
    | none =>
      rw [Token.reduceBody]
      rfl
    | some ts =>
      rw [Token.reduceBody]
      rfl
  rw [Token.reduce, Act.exec_bind_of_ok hclauses, Act.exec_bind_of_ok hother]
  rfl

include hrun hdata in
/-- An IF whose tests are numbers assembles the arm that is taken. -/
theorem replays_assemble {b : Text → Binding} (hradix : (b Scope.radixName).isSet = true)
    (htests : Tested Expr.IsNumber clauses arms) (hchosen : ∀ t ∈ chosen arms otherwise, t.isData = true)
    (loc : Location) :
    Replay.Replays b (Conditional.assemble w loc clauses otherwise)
      (Replay.WrittenTimes w.around.args b (chosen arms otherwise) 1) := by
  intro out s hout hs
  obtain ⟨o, hsift, hbody⟩ := Conditional.sift_of_numbers htests w otherwise
  rw [← hbody] at hchosen ⊢
  rw [Conditional.assemble, hsift, pure_bind]
  cases o with
  | none =>
    refine ⟨[], s, rfl, hs, fun i hi => absurd hi List.not_mem_nil, Or.inr ⟨[[]], rfl, rfl, ?_⟩⟩
    exact List.forall_mem_singleton.2
      ⟨Text.empty, [], [], [], .nil, .nil, rfl, fun t ht => absurd ht List.not_mem_nil⟩
  | some body =>
    obtain ⟨items, s', hexec, hbinding, hinert, hitems⟩ := Replay.replays_nest hdata hchosen hradix w.around.args
      (w.assembler.naming.name s.supply) w.block.inMacro true false hout (s := { s with supply := s.supply + 1 }) hs
    refine ⟨items, s', ?_, hbinding, hinert, hitems.imp_right fun h =>
      ⟨[items], rfl, (List.flatten_singleton ..).symm, List.forall_mem_singleton.2 h⟩⟩
    rw [← hexec, Workbench.requireRunner, hrun]
    rfl

include hargs hrun hdata harms hotherwise hafter

/-- An IF whose tests are written out is assembled over what names stand for at the IF. -/
theorem standsFor_cond (loc : Location) (htests : Tested Expr.IsNumber clauses arms) :
    StandsFor w (fun _ => True) (.cond loc clauses otherwise false) after (chosen arms otherwise) := by
  have hchosen := Conditional.forall_mem_chosen (P := fun t => t.isDatum = true) harms hotherwise
  have hdirect := standsFor_direct (n := 1) hargs hchosen hafter (isPassed_cond w loc clauses otherwise)
    (exec_reduce_cond w.around loc htests) fun b _ hradix =>
      replays_assemble hrun hdata hradix htests (fun t ht => Token.isData_of_isDatum (hchosen t ht)) loc
  rwa [List.replicate_one, List.flatten_singleton] at hdirect

/-- An IF whose tests are bound behind it is assembled over what names stand for at the IF, and decided by what its
tests stand for in the end. -/
theorem standsFor_undecided (loc : Location) (htests : Tested (BoundIn after) clauses arms) (hne : clauses ≠ []) :
    StandsFor w (fun b => ∀ c ∈ clauses, IsUnset b c.test) (.cond loc clauses otherwise false) after
      (chosen arms otherwise) := by
  intro s s' t t' kept hreached hunset hfeed
  have hbind := advances_bind_undecided hrun hdata (fun a ha t ht => Token.isData_of_isDatum (harms a ha t ht))
    (fun t ht => Token.isData_of_isDatum (hotherwise t ht)) hreached.radix hreached.running loc htests hunset hne
  -- what the third stage writes for the IF is what is left of the arm that is taken, evaluated once more
  have hfinish : ∀ b items', EntersAll w.around s.scope.radix s.scope.binding after items' b → ∀ items : List Item,
      Pends (BoundIn after) w.around.args s.scope.binding loc arms otherwise items → ∀ i ∈ items,
      i.token.isMessage = false → Adds b (finishOne w i) fun ts => ∃ left tss,
        Assembled w.around.args s.scope.binding (chosen arms otherwise) left ∧
          List.Forall₂ (Finishes w.around (b Scope.radixName).radix b) (left.map fun t => ⟨t, true⟩) tss ∧
          ts = tss.flatten := by
    rintro b items' henters items ⟨messages, clauses', arms', o, rfl, hmessages, htests', hassembled, hother⟩ i hi
      hmessage t s' ht hs
    rcases List.mem_append.1 hi with hi | hi
    · obtain ⟨d, hd, rfl⟩ := List.mem_map.1 hi
      rw [Item.settled, hmessages d hd] at hmessage
      cases hmessage
    · rw [List.mem_singleton.1 hi]
      have hinert : ∀ a ∈ arms', ∀ t ∈ a.2, t.isInert = true := forall_mem_of_assembled hassembled
      have hnumbers : Tested (StandsForNumber b) clauses' arms' :=
        htests'.imp fun c a h => ⟨h.1.standsForNumber henters, h.2⟩
      refine (advances_finish_undecided ht hnumbers hinert hother.isInert hs).imp_right ?_
      rintro ⟨added, hadded, hstopped, hs', tss, hfinishes, htokens⟩
      exact ⟨added, hadded, hstopped, hs', _, tss, Conditional.rel_chosen hassembled hother, hfinishes, htokens⟩
  refine (writesAround hreached hafter hbind hfinish hfeed).imp_right fun h => ⟨_, ?_, h⟩
  rintro g b dom items ts hdom hg henters ⟨_, tss, ⟨messages, clauses', arms', o, rfl, hmessages, -⟩, hfinishes, rfl⟩
  obtain ⟨hsolves, hrest⟩ := EntersAll.solved hargs hg henters
  rw [List.filter_append, Replay.filter_settled_of_isMessage hmessages, List.nil_append] at hfinishes
  obtain ⟨ts, rfl, left, tss, ⟨unit, entered, tss₁, hentered, hcompletes, rfl⟩, hturn, rfl⟩ :=
    exists_of_forall₂_singleton hfinishes
  rw [henters.eq_of_isSet hreached.radix] at hturn
  have hmark : ∀ t, (Item.mk t true).token = t := fun _ => rfl
  obtain ⟨tss', hwrites, hproducts⟩ := writes_of_entered hmark hsolves hrest hargs (henters.mem_of_isSome hdom) hg.bound
    hreached.names (Or.inl fun t ht => by cases ht)
    (Conditional.forall_mem_chosen (P := fun t => t.isDatum = true) harms hotherwise) hentered hcompletes hturn
  exact ⟨tss', hwrites, by rw [List.flatten_singleton, hproducts]⟩

end Stands

end Entry

open Entry in
/-- An IF over data writes the same whether its tests are written out or bound to the same numbers by EQUs behind it,
if neither run reports a failure, apart from diagnostics, locations and the names that values were resolved through.
SET and RADIX may precede the IF, and EQU and data may follow it. -/
theorem Assembler.assemble_lateCond (a : Assembler) (scope : Scope) {before after : List Token} {loc : Location}
    {clauses clauses' : List Clause} {arms : List (Int64 × List Token)} {otherwise : Option (List Token)}
    (hradix : (scope.binding Scope.radixName).isSet = true) (hnames : Eval.PortableNames scope.binding)
    (hbefore : ∀ t ∈ before, t.isSequential = true) (harms : ∀ arm ∈ arms, ∀ t ∈ arm.2, t.isDatum = true)
    (hotherwise : ∀ t ∈ otherwise.getD [], t.isDatum = true)
    (hafter : ∀ t ∈ after, t.isEquate = true ∨ t.isData = true)
    (hlate : Conditional.Tested (BoundIn after) clauses arms) (hdirect : Conditional.Tested Expr.IsNumber clauses' arms)
    (hok : ∀ t ∈ (a.assemble scope (before ++ .cond loc clauses otherwise false :: after)).tokens, t.fails = false)
    (hok' : ∀ t ∈ (a.assemble scope (before ++ .cond loc clauses' otherwise false :: after)).tokens, t.fails = false) :
    (Token.products (a.assemble scope (before ++ .cond loc clauses otherwise false :: after)).tokens).map Token.erase =
      (Token.products (a.assemble scope (before ++ .cond loc clauses' otherwise false :: after)).tokens).map
        Token.erase := by
  by_cases hne : clauses = []
  · -- an IF without tests is the same in both programs
    subst hne
    cases hlate
    cases hdirect
    rfl
  · obtain ⟨run, hrun, hdata⟩ := exists_assemblesData a
    exact map_erase_around a scope (isPassed_cond _ _ _ _) (isPassed_cond _ _ _ _) hradix hnames hbefore hafter
      (standsFor_undecided rfl hrun hdata harms hotherwise hafter loc hlate hne)
      (standsFor_cond rfl hrun hdata harms hotherwise hafter loc hdirect)
      (fun _ _ _ _ h => hlate.forall_test fun e n hbound => hbound.isUnset h) hok hok'

namespace Entry

/-- An IF with an arm of `DB 7`, an ELSEIF of `DB A` and `DW B`, and `DB 9` otherwise. -/
def condAB (first second : Expr) : Token :=
  .cond Location.none
    [.mk first [.data Location.none .bytes [.literal Location.none 7]],
      .mk second [.data Location.none .bytes [.identifier Location.none "A"],
        .data Location.none .words [.identifier Location.none "B"]]]
    (some [.data Location.none .bytes [.literal Location.none 9]]) false

/-- An IF that has `DB 1` under a test K in its arm. -/
def condK (test : Expr) : Token :=
  .cond Location.none [.mk test [.cond Location.none [.mk (.identifier Location.none "K")
    [.data Location.none .bytes [.literal Location.none 1]]] none false]] none false

/-- `K EQU n`. -/
def equateK (n : Int64) : Token :=
  .assign Location.none .equate (.identifier Location.none "K") (.literal Location.none n)

/-- `N EQU 1` and `K EQU 1`. -/
def equateNK : List Token :=
  [.assign Location.none .equate (.identifier Location.none "N") (.literal Location.none 1), equateK 1]

end Entry

open Entry in
/-- The tests are bound behind the IF, and so is what the data in the arm that is taken waits for. -/
theorem Assembler.assemble_lateCond_condAB :
    let late := assemble (.bare 1) Scope.initial
      ([setA 1] ++ condAB (.identifier Location.none "K") (.identifier Location.none "N") :: equateK 0 :: equateBN)
    let direct := assemble (.bare 1) Scope.initial
      ([setA 1] ++ condAB (.literal Location.none 0) (.literal Location.none 2) :: equateK 0 :: equateBN)
    (Token.products late.tokens).map Token.erase = (Token.products direct.tokens).map Token.erase ∧
      (Token.products direct.tokens).flatMap Token.written = [1, 3, 0] := by
  refine ⟨?_, by decide +kernel⟩
  have hlate : Conditional.Tested (BoundIn (equateK 0 :: equateBN))
      [.mk (.identifier Location.none "K") [.data Location.none .bytes [.literal Location.none 7]],
        .mk (.identifier Location.none "N") [.data Location.none .bytes [.identifier Location.none "A"],
          .data Location.none .words [.identifier Location.none "B"]]]
      [(0, [.data Location.none .bytes [.literal Location.none 7]]),
        (2, [.data Location.none .bytes [.identifier Location.none "A"],
          .data Location.none .words [.identifier Location.none "B"]])] :=
    .cons ⟨⟨_, _, _, _, _, _, rfl, List.mem_cons_self⟩, rfl⟩
      (.cons ⟨⟨_, _, _, _, _, _, rfl, List.mem_cons_of_mem _ (List.mem_cons_of_mem _ List.mem_cons_self)⟩, rfl⟩ .nil)
  exact assemble_lateCond _ Scope.initial (by decide +kernel) portableNames_initial (by decide) (by decide)
    (by decide) (by decide) hlate (.cons ⟨⟨_, _, rfl⟩, rfl⟩ (.cons ⟨⟨_, _, rfl⟩, rfl⟩ .nil)) (by decide +kernel)
    (by decide +kernel)

open Entry in
/-- A condition in the arm is assembled with it. Once the arm is emitted late, the condition is not decided any more,
and no diagnostic tells. -/
theorem Assembler.exists_lateCond_ne :
    let late := assemble (.bare 2) Scope.initial (condK (.identifier Location.none "N") :: equateNK)
    let direct := assemble (.bare 2) Scope.initial (condK (.literal Location.none 1) :: equateNK)
    (∀ t ∈ late.tokens, t.isMessage = false) ∧ (∀ t ∈ direct.tokens, t.isMessage = false) ∧
      (Token.products late.tokens).map Token.erase ≠ (Token.products direct.tokens).map Token.erase := by
  intro late direct
  have hlate : ((Token.products late.tokens).map Token.erase).flatMap Token.written = [] := by
    decide +kernel
  have hdirect : ((Token.products direct.tokens).map Token.erase).flatMap Token.written = [1] := by
    decide +kernel
  refine ⟨by decide +kernel, by decide +kernel, fun hsame => ?_⟩
  rw [hsame, hdirect] at hlate
  cases hlate

end MacroAsm
