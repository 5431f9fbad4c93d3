import MacroAsm.Proofs.Assembly.Forks

/-!
# Labels on their way through a block

What one step of a stage emits for an item goes through the steps that follow. Most steps keep what they are given:
their output is the place of no other label, and refers to no other label (`Pass.Keeps`). The steps that expand
statements make labels, and all that they emit reaches the end of the stage (`Stage.Delivers`). So the items of a
stage are carried to its end (`Stage.Carries`): labels are placed once, and what is referred to is placed.
-/

namespace MacroAsm

open Snapshot (Leads)
open Emission (Traces)

variable {naming : Naming} {A C : (Text → Prop) → Prop} {D : Text → Prop} {inMacro : Bool} {s : State} {item : Item}

/-- The value of an operand refers to no label that its expression does not refer to. -/
theorem Operand.within_of_ofExpr {e v : Expr} {o : Operand} (h : ofExpr e = .ok o) (hv : o.value = some v)
    (he : e.Within D) : v.Within D := by
  cases e with
  | register | condition =>
    rw [ofExpr] at h
    split at h <;> cases h
    cases hv
  | indirect | indexed | displaced | offset =>
    rw [ofExpr] at h
    repeat' split at h
    all_goals cases h
    all_goals cases hv
    all_goals exact he
  | _ =>
    cases h
    cases hv
    exact he

/-- Each value of an operand is that of one of the expressions. -/
theorem Operand.exists_of_ofExprs {es : List Expr} {os : List Operand} (h : ofExprs es = .ok os) {v : Expr}
    (hv : v ∈ os.filterMap Operand.value) : ∃ e ∈ es, ∃ o, ofExpr e = .ok o ∧ o.value = some v := by
  induction es generalizing os with
  | nil =>
    cases h
    cases hv
  | cons e rest ih =>
    rw [ofExprs] at h
    cases hfirst : ofExpr e with
    | error d =>
      rw [hfirst] at h
      cases h
    | ok o =>
      rw [hfirst] at h
      obtain ⟨os', hrest, heq⟩ := Except.bind_eq_ok_iff.1 h
      cases heq
      obtain ⟨o', ho', hvalue⟩ := List.mem_filterMap.1 hv
      rcases List.mem_cons.1 ho' with rfl | ho'
      · exact ⟨e, List.mem_cons_self, o', hfirst, hvalue⟩
      · obtain ⟨e', he', hfrom⟩ := ih hrest (List.mem_filterMap.2 ⟨o', ho', hvalue⟩)
        exact ⟨e', List.mem_cons_of_mem e he', hfrom⟩

namespace Encode

variable {ts : List Token}

/-- What is encoded of an instruction refers to no label that the instruction does not refer to, and is the place
of none. -/
theorem within_of_instruction {table : InstructionSet} {mnemonic : Text} {d : Dispatch}
    (h : instruction table mnemonic d = .ok ts) (hd : (Token.dispatch d).Within D) :
    ∀ t ∈ ts, t.Within D := by
  intro t ht
  rcases instruction_cases h ht with ⟨loc, text, rfl⟩ | ⟨loc, data, rfl⟩ |
    ⟨operands, value, loc, size, signed, rfl, -, hoperands, hvalue⟩
  · exact Token.within_of_isMessage rfl
  · exact Token.within_of_references_eq_nil rfl rfl
  · obtain ⟨e, he, o, ho, hv⟩ := Operand.exists_of_ofExprs hoperands hvalue
    exact ⟨Operand.within_of_ofExpr ho hv (Expr.forall_mem_flatMap_references.1 hd.references e he), rfl⟩

/-- What is encoded of data refers to no label that the data does not refer to. -/
theorem within_of_data {loc : Location} {kind : DataKind} {values : List Expr} (h : data kind values = .ok ts)
    (hd : (Token.data loc kind values).Within D) : ∀ t ∈ ts, t.Within D := by
  intro t ht
  rcases data_cases h ht with ⟨loc, text, rfl⟩ | ⟨loc, written, rfl⟩ | ⟨loc, group, rfl, hgroup⟩
  · exact Token.within_of_isMessage rfl
  · exact Token.within_of_references_eq_nil rfl rfl
  · refine ⟨Expr.forall_mem_flatMap_references.2 fun e he => ?_, rfl⟩
    exact Expr.forall_mem_flatMap_references.1 hd.references e (hgroup e he).1

/-- What is encoded of an instruction is the place of no label. -/
theorem allPlaces_instruction {table : InstructionSet} {mnemonic : Text} {d : Dispatch}
    (h : instruction table mnemonic d = .ok ts) : Token.allPlaces ts = [] := by
  rw [Token.allPlaces_eq_flatMap, List.flatMap_eq_nil_iff]
  intro t ht
  rcases instruction_cases h ht with ⟨_, _, rfl⟩ | ⟨_, _, rfl⟩ | ⟨_, _, _, _, _, rfl, -⟩ <;> rfl

/-- What is encoded of data is the place of no label. -/
theorem allPlaces_data {kind : DataKind} {values : List Expr} (h : data kind values = .ok ts) :
    Token.allPlaces ts = [] := by
  rw [Token.allPlaces_eq_flatMap, List.flatMap_eq_nil_iff]
  intro t ht
  rcases data_cases h ht with ⟨_, _, rfl⟩ | ⟨_, _, rfl⟩ | ⟨_, _, rfl, -⟩ <;> rfl

end Encode

namespace Pass

variable {p : Pass} {w : Workbench}

/-- A step that keeps what it is given of an item: it places no label and refers to no label besides those of the
item, of the scope and of what is known from around. -/
structure Keeps (A : (Text → Prop) → Prop) (inMacro : Bool) (p : Pass) (item : Item) (s : State) : Prop where
  /-- Identities are handed out in order. -/
  supply : s.supply ≤ ((p.handle inMacro item).run s).2.supply
  /-- No label is placed or referred to besides. -/
  step : ∀ D, A D → item.token.Within D → s.scope.Within D →
    (Token.allPlaces ((p.handle inMacro item).run s).1.tokens).Sublist item.token.places ∧
      Snapshot.Within D (((p.handle inMacro item).run s).1.tokens, ((p.handle inMacro item).run s).2)

namespace Keeps

/-- A step that emits some tokens. -/
theorem of_run {out : Output} {s' : State} (h : (p.handle inMacro item).run s = (out, s'))
    (hsupply : s.supply ≤ s'.supply)
    (hstep : ∀ D, A D → item.token.Within D → s.scope.Within D →
      (Token.allPlaces out.tokens).Sublist item.token.places ∧ (∀ t ∈ out.tokens, t.Within D) ∧ s'.scope.Within D) :
    p.Keeps A inMacro item s := by
  refine ⟨by rw [h]; exact hsupply, fun D hA hitem hs => ?_⟩
  rw [h]
  obtain ⟨hplaces, htokens, hscope⟩ := hstep D hA hitem hs
  exact ⟨hplaces, htokens, hscope⟩

/-- A step that emits one token. -/
theorem of_push {i : Item} {s' : State} (h : (p.handle inMacro item).run s = ((Output.empty inMacro).push i, s'))
    (hsupply : s.supply ≤ s'.supply)
    (hstep : ∀ D, A D → item.token.Within D → s.scope.Within D →
      i.token.places.Sublist item.token.places ∧ i.token.Within D ∧ s'.scope.Within D) :
    p.Keeps A inMacro item s := by
  refine of_run h hsupply fun D hA hitem hs => ?_
  obtain ⟨hplaces, htoken, hscope⟩ := hstep D hA hitem hs
  refine ⟨?_, List.forall_mem_singleton.2 htoken, hscope⟩
  rwa [← List.append_nil i.token.places] at hplaces

/-- A step that emits a diagnostic. -/
theorem of_message {d : Diagnostic} {s' : State}
    (h : (p.handle inMacro item).run s = ((Output.empty inMacro).push (.message d), s'))
    (hsupply : s.supply ≤ s'.supply) (hscope : ∀ D, s.scope.Within D → s'.scope.Within D) :
    p.Keeps A inMacro item s :=
  of_push h hsupply fun D _ _ hs => ⟨List.nil_sublist _, Token.within_of_isMessage rfl, hscope D hs⟩

/-- A step that fails without having emitted anything. -/
theorem of_error {s' : State} (hmessage : item.token.isMessage = false)
    (h : ∃ f, (p item).exec (Output.empty inMacro, s) = (.error f, (Output.empty inMacro, s')))
    (hsupply : s.supply ≤ s'.supply) (hscope : ∀ D, s.scope.Within D → s'.scope.Within D) :
    p.Keeps A inMacro item s := by
  obtain ⟨f, h⟩ := h
  exact of_message (run_handle_of_error hmessage h) hsupply hscope

theorem of_isMessage (h : item.token.isMessage = true) : p.Keeps A inMacro item s :=
  of_push (run_handle_message h) (Nat.le_refl _) fun _ _ hitem hs => ⟨List.Sublist.refl _, hitem, hs⟩

/-- A step that passes the item on. -/
theorem of_emitItem (h : (p item).exec (Output.empty inMacro, s) = (.ok ⟨⟩, ((Output.empty inMacro).push item, s))) :
    p.Keeps A inMacro item s := by
  cases hmessage : item.token.isMessage with
  | true => exact of_isMessage hmessage
  | false =>
    exact of_push (run_handle_of_ok hmessage h) (Nat.le_refl _) fun _ _ hitem hs => ⟨List.Sublist.refl _, hitem, hs⟩

/-- A step that emits the tokens of a list, up to a terminal one. -/
theorem of_pushAll {ts : List Token} {s' : State}
    (h : (p.handle inMacro item).run s = ((Output.empty inMacro).pushAll (ts.map .settled), s'))
    (hsupply : s.supply ≤ s'.supply)
    (hstep : ∀ D, A D → item.token.Within D → s.scope.Within D →
      (Token.allPlaces ts).Sublist item.token.places ∧ (∀ t ∈ ts, t.Within D) ∧ s'.scope.Within D) :
    p.Keeps A inMacro item s := by
  refine of_run h hsupply fun D hA hitem hs => ?_
  obtain ⟨hplaces, htokens, hscope⟩ := hstep D hA hitem hs
  obtain ⟨n, hn⟩ := (Output.empty inMacro).exists_tokens_pushAll (ts.map .settled)
  have htake : ((Output.empty inMacro).pushAll (ts.map .settled)).tokens = ts.take n := by
    rw [hn, List.map_map]
    exact congrArg (List.take n) (List.map_id _)
  rw [htake]
  refine ⟨(Token.allPlaces_sublist (List.take_sublist n ts)).trans hplaces, fun t ht => ?_, hscope⟩
  exact htokens t (List.mem_of_mem_take ht)

/-- What is kept is led on. -/
theorem leads (h : p.Keeps A inMacro item s) :
    Leads naming item.token.places (fun D => A D ∧ item.token.Within D) (fun _ => True) ([], s)
      (((p.handle inMacro item).run s).1.tokens, ((p.handle inMacro item).run s).2) where
  grows _ ht := absurd ht List.not_mem_nil
  supply := h.supply
  count hP hc id := by
    have hcount := (h.step _ hP.1 hP.2 hc.scope).1.count_le id
    dsimp only
    omega
  within D hP hc := Or.inr ⟨(h.step D hP.1 hP.2 hc.scope).2, trivial⟩

end Keeps

/-- Evaluating a token keeps it. -/
theorem keeps_of_reduce (hA : ∀ D, A D → ∀ a ∈ w.around.args, a.Within D)
    (hmessage : item.token.isMessage = false) (hok : ∀ t s', (Token.reduce w.around item.token).exec s = (.ok t, s') →
      ∃ pending, (p item).exec (Output.empty inMacro, s) = (.ok ⟨⟩, ((Output.empty inMacro).push ⟨t, pending⟩, s')))
    (herror : ∀ f s', (Token.reduce w.around item.token).exec s = (.error f, s') →
      (p item).exec (Output.empty inMacro, s) = (.error f, (Output.empty inMacro, s'))) :
    p.Keeps A inMacro item s := by
  have hwithin : ∀ D, A D → item.token.Within D → s.scope.Within D → _ :=
    fun D hD hitem hs => Token.reduce_within (hA D hD) item.token s hitem hs
  have hretells : State.Retells s ((Token.reduce w.around item.token).exec s).2 :=
    (Token.reduce_yields (Eval.evaluates_retells w.around) item.token s).1
  rcases hexec : (Token.reduce w.around item.token).exec s with ⟨r, s'⟩
  rw [hexec] at hretells
  cases r with
  | error f =>
    exact .of_error hmessage ⟨f, herror f s' hexec⟩ (Nat.le_of_eq hretells.supply.symm) hretells.within
  | ok t =>
    obtain ⟨pending, hpush⟩ := hok t s' hexec
    refine .of_push (run_handle_of_ok hmessage hpush) (Nat.le_of_eq hretells.supply.symm) fun D hD hitem hs => ?_
    obtain ⟨htoken, hplaces⟩ := (hwithin D hD hitem hs).2 t (by rw [hexec])
    exact ⟨by rw [hplaces], htoken, hretells.within D hs⟩

/-- The second stage evaluates a token. -/
theorem keeps_reduceFirst (hA : ∀ D, A D → ∀ a ∈ w.around.args, a.Within D) (item : Item) (s : State) :
    (reduceFirst w).Keeps A inMacro item s := by
  cases hmessage : item.token.isMessage with
  | true => exact .of_isMessage hmessage
  | false =>
    refine keeps_of_reduce hA hmessage (fun t s' h => ⟨_, exec_reduceFirst_of_ok h⟩) fun f s' h => ?_
    exact exec_reduceFirst_of_error h

/-- The third stage evaluates a token again if it is marked. -/
theorem keeps_reduceAgain (hA : ∀ D, A D → ∀ a ∈ w.around.args, a.Within D) (item : Item) (s : State) :
    (reduceAgain w).Keeps A inMacro item s := by
  cases hpending : item.pending with
  | false =>
    refine .of_emitItem ?_
    rw [reduceAgain, hpending]
    rfl
  | true =>
    cases hmessage : item.token.isMessage with
    | true => exact .of_isMessage hmessage
    | false =>
      refine keeps_of_reduce hA hmessage (fun t s' h => ⟨_, exec_reduceAgain_of_ok hpending h⟩) fun f s' h => ?_
      exact exec_reduceAgain_of_error hpending h

/-- Relative jumps become branches. -/
theorem keeps_relax (item : Item) (s : State) : (Pass.ofToken Finish.relax).Keeps A inMacro item s := by
  cases hmessage : item.token.isMessage with
  | true => exact .of_isMessage hmessage
  | false =>
    obtain ⟨token, pending⟩ := item
    cases token with
    | dispatch d =>
      have hrun : ((Pass.ofToken Finish.relax).handle inMacro ⟨.dispatch d, pending⟩).run s =
          ((Output.empty inMacro).push (.settled (Finish.relaxDispatch s.bankSwitched d).1),
            { s with bankSwitched := (Finish.relaxDispatch s.bankSwitched d).2 }) := run_handle_of_ok rfl rfl
      refine .of_push hrun (Nat.le_refl _) fun D _ hitem hs => ?_
      rcases Finish.relaxDispatch_cases s.bankSwitched d with heq | ⟨b, heq, htarget, -⟩
      · exact ⟨by rw [heq]; exact List.Sublist.refl _, by rw [heq]; exact hitem, hs⟩
      · refine ⟨by rw [heq]; exact List.nil_sublist _, ?_, hs⟩
        rw [heq]
        exact ⟨fun id hid => hitem.references id (List.mem_flatMap.2 ⟨b.target, htarget, hid⟩), rfl⟩
    | _ =>
      refine .of_push (i := .settled _) (run_handle_of_ok hmessage rfl) (Nat.le_refl _) fun D _ hitem hs => ?_
      exact ⟨List.Sublist.refl _, hitem, hs⟩

/-- Instructions are encoded. -/
theorem keeps_encode (w : Workbench) (item : Item) (s : State) :
    (Pass.ofToken (Finish.encode w)).Keeps A inMacro item s := by
  cases hmessage : item.token.isMessage with
  | true => exact .of_isMessage hmessage
  | false =>
    obtain ⟨token, pending⟩ := item
    cases token with
    | dispatch d =>
      have hretells := (Eval.nameOf_yields (Eval.evaluates_retells w.around) d.callee s).1
      rcases hexec : (Eval.nameOf w.around d.callee).exec s with ⟨r, s'⟩
      rw [hexec] at hretells
      have hsupply : s.supply ≤ s'.supply := Nat.le_of_eq hretells.supply.symm
      cases r with
      | error f =>
        refine .of_error rfl ⟨f, ?_⟩ hsupply hretells.within
        exact Emission.exec_bind_of_error (Emission.exec_monadLift_of_error hexec _)
      | ok mnemonic =>
        have hnext : (Pass.ofToken (Finish.encode w) ⟨.dispatch d, pending⟩).exec (Output.empty inMacro, s) =
            (Finish.encoded (Encode.instruction w.assembler.table mnemonic d)).exec (Output.empty inMacro, s') :=
          Emission.exec_bind_of_ok (Emission.exec_monadLift_of_ok hexec _)
        cases hencoded : Encode.instruction w.assembler.table mnemonic d with
        | error d' =>
          rw [hencoded] at hnext
          exact .of_error rfl ⟨_, hnext⟩ hsupply hretells.within
        | ok ts =>
          rw [hencoded] at hnext
          refine .of_pushAll (run_handle_of_ok rfl hnext) hsupply fun D _ hitem hs =>
            ⟨?_, fun t ht => ?_, hretells.within D hs⟩
          · rw [Encode.allPlaces_instruction hencoded]
            exact List.nil_sublist _
          · exact Encode.within_of_instruction hencoded hitem t ht
    | _ =>
      refine .of_push (i := .settled _) (run_handle_of_ok hmessage rfl) (Nat.le_refl _) fun D _ hitem hs => ?_
      exact ⟨List.Sublist.refl _, hitem, hs⟩

/-- The last step emits the item itself or one diagnostic in its place, unless it is data. -/
theorem complete_cases (w : Workbench) (item : Item) (s : State) :
    (∃ i, ((Pass.ofToken (Finish.complete w)).handle inMacro item).run s = ((Output.empty inMacro).push i, s) ∧
      (i.token = item.token ∨ i.token.isMessage = true ∧ item.token.places = [] ∧ item.token.fails = false)) ∨
    ∃ loc kind values ts, item.token = .data loc kind values ∧ Encode.data kind values = .ok ts ∧
      ((Pass.ofToken (Finish.complete w)).handle inMacro item).run s =
        ((Output.empty inMacro).pushAll (ts.map .settled), s) := by
  cases hmessage : item.token.isMessage with
  | true => exact Or.inl ⟨item, run_handle_message hmessage, Or.inl rfl⟩
  | false =>
    obtain ⟨token, pending⟩ := item
    cases token with
    | exitMacro loc =>
      by_cases hkind : w.block.inMacro = true
      · refine Or.inl ⟨.settled (.exitMacro loc), run_handle_of_ok rfl ?_, Or.inl rfl⟩
        rw [Pass.ofToken, Finish.complete, if_pos hkind]
        rfl
      · have hexec : (Finish.complete w (.exitMacro loc)).exec (Output.empty inMacro, s) = (.error (.report
            (.fail loc "Misplaced EXITM, Must be used inside of a macro")), (Output.empty inMacro, s)) := by
          rw [Finish.complete, if_neg hkind]
          rfl
        exact Or.inl ⟨_, run_handle_of_error rfl hexec, Or.inr ⟨rfl, rfl, rfl⟩⟩
    | data loc kind values =>
      cases hencoded : Encode.data kind values with
      | error d =>
        refine Or.inl ⟨_, run_handle_of_error rfl (f := .report d) ?_, Or.inr ⟨rfl, rfl, rfl⟩⟩
        rw [Pass.ofToken, Finish.complete, hencoded]
        rfl
      | ok ts =>
        refine Or.inr ⟨loc, kind, values, ts, rfl, hencoded, run_handle_of_ok rfl ?_⟩
        rw [Pass.ofToken, Finish.complete, hencoded]
        rfl
    | display loc kind text =>
      by_cases hconcrete : text.all Expr.isConcrete = true
      · cases hshown : Finish.displayText text with
        | error c =>
          refine Or.inl ⟨_, run_handle_of_error rfl (f := .raise c) ?_, Or.inr ⟨rfl, rfl, rfl⟩⟩
          rw [Pass.ofToken, Finish.complete, if_pos hconcrete, hshown]
          rfl
        | ok shown =>
          refine Or.inl ⟨.message ⟨Finish.displayLevel kind, loc, shown, none⟩, run_handle_of_ok rfl ?_,
            Or.inr ⟨rfl, rfl, rfl⟩⟩
          rw [Pass.ofToken, Finish.complete, if_pos hconcrete, hshown]
          rfl
      · refine Or.inl ⟨.settled (.display loc kind text), run_handle_of_ok rfl ?_, Or.inl rfl⟩
        rw [Pass.ofToken, Finish.complete, if_neg hconcrete]
        rfl
    | _ => exact Or.inl ⟨.settled _, run_handle_of_ok hmessage rfl, Or.inl rfl⟩

/-- Data is encoded, and texts are shown. -/
theorem keeps_complete (w : Workbench) (item : Item) (s : State) :
    (Pass.ofToken (Finish.complete w)).Keeps A inMacro item s := by
  rcases complete_cases w item s with ⟨i, hrun, heq | ⟨hmessage, -⟩⟩ | ⟨loc, kind, values, ts, heq, hencoded, hrun⟩
  · refine .of_push hrun (Nat.le_refl _) fun D _ hitem hs => ?_
    rw [heq]
    exact ⟨List.Sublist.refl _, hitem, hs⟩
  · refine .of_push hrun (Nat.le_refl _) fun D _ _ hs => ⟨?_, Token.within_of_isMessage hmessage, hs⟩
    rw [Token.places_of_isMessage hmessage]
    exact List.nil_sublist _
  · refine .of_pushAll hrun (Nat.le_refl _) fun D _ hitem hs => ⟨?_, ?_, hs⟩
    · rw [Encode.allPlaces_data hencoded]
      exact List.nil_sublist _
    · rw [heq] at hitem
      exact Encode.within_of_data hencoded hitem

/-- An assembled IF that is decided by now is replaced by one of its arms. -/
theorem keeps_decide {loc : Location} {clauses : List Clause} {otherwise : Option (List Token)} (pending : Bool)
    (s : State) : (localize w).Keeps A inMacro ⟨.cond loc clauses otherwise true, pending⟩ s := by
  have hlocalize : localize w ⟨.cond loc clauses otherwise true, pending⟩ =
      Conditional.decide ⟨.cond loc clauses otherwise true, pending⟩ clauses otherwise := rfl
  cases hdecided : Conditional.decide? otherwise clauses with
  | error c =>
    have hexec : (localize w ⟨.cond loc clauses otherwise true, pending⟩).exec (Output.empty inMacro, s) =
        (.error (.raise c), (Output.empty inMacro, s)) := by
      rw [hlocalize, Conditional.decide, hdecided]
      rfl
    exact .of_error rfl ⟨_, hexec⟩ (Nat.le_refl _) fun D hs => hs
  | ok decided =>
    cases decided with
    | none =>
      refine .of_emitItem ?_
      rw [hlocalize, Conditional.decide, hdecided]
      rfl
    | some ts =>
      have hexec : (localize w ⟨.cond loc clauses otherwise true, pending⟩).exec (Output.empty inMacro, s) =
          (.ok ⟨⟩, ((Output.empty inMacro).pushAll (ts.map .settled), s)) := by
        rw [hlocalize, Conditional.decide, hdecided]
        rfl
      refine .of_pushAll (run_handle_of_ok rfl hexec) (Nat.le_refl _) fun D _ hitem hs => ?_
      obtain ⟨hclauses, hotherwise⟩ := Token.within_cond.1 hitem
      rw [Token.places, if_pos rfl, Token.clausePlaces_eq_flatMap]
      rcases Conditional.decide?_mem hdecided with ⟨c, hc, rfl⟩ | rfl
      · have harm := List.sublist_flatten_of_mem (List.mem_map_of_mem (f := fun c => Token.allPlaces c.body) hc)
        exact ⟨harm.trans (List.sublist_append_left _ _), (hclauses c hc).2, hs⟩
      · cases otherwise with
        | none => exact ⟨List.nil_sublist _, fun t ht => absurd ht List.not_mem_nil, hs⟩
        | some body => exact ⟨List.sublist_append_right _ _, hotherwise body rfl, hs⟩

end Pass

/-- A statement is passed on, or what happens does not depend on the item that would be passed on. -/
theorem Expand.call_cases (w : Workbench) (strict : Bool) (item : Item) (d : Dispatch) (p : Output × State) :
    (call w strict item d).exec p = (.ok ⟨⟩, (p.1.push item, p.2)) ∨
      ∀ item', (call w strict item d).exec p = (call w strict item' d).exec p := by
  have hbegin : ∀ item, (call w strict item d).exec p = _ :=
    fun item => Emission.exec_bind_of_ok (Emission.exec_scope p)
  simp only [hbegin]
  split
  · exact Or.inl rfl
  · split
    · cases strict with
      | true => exact Or.inr fun _ => rfl
      | false => exact Or.inl rfl
    · exact Or.inr fun _ => rfl

/-- A DUP is passed on, or what happens does not depend on the item that would be passed on. -/
theorem Replay.dup_cases (w : Workbench) (strict : Bool) (item : Item) (loc : Location) (counter : Option Expr)
    (iteration : Iteration) (body : List Token) :
    dup w strict item loc counter iteration body = Emission.emitItem item ∨
      ∀ item', dup w strict item loc counter iteration body = dup w strict item' loc counter iteration body := by
  have hdefer : ∀ e, defer strict item e = Emission.emitItem item ∨
      ∀ item', defer strict item e = defer strict item' e := by
    intro e
    cases strict with
    | true => exact Or.inr fun _ => rfl
    | false => exact Or.inl rfl
  cases iteration with
  | count n =>
    simp only [dup]
    split
    · exact Or.inr fun _ => rfl
    · exact hdefer n
  | list element items =>
    simp only [dup]
    split
    · exact hdefer _
    · exact Or.inr fun _ => rfl
  | characters element strings =>
    simp only [dup]
    split
    · exact hdefer _
    · exact Or.inr fun _ => rfl
  | sequence element first last step =>
    simp only [dup, sequence]
    split
    · exact hdefer _
    · exact Or.inr fun _ => rfl

namespace Pass

variable {w : Workbench}

/-- What a step makes of an item: it keeps what it is given, or all that it emits is expanded. -/
def Makes (naming : Naming) (A : (Text → Prop) → Prop) (inMacro : Bool) (p : Pass) (item : Item) (s : State) : Prop :=
  p.Keeps A inMacro item s ∨
    Leads naming item.token.places (fun D => A D ∧ item.token.Within D) (fun _ => True) ([], s)
      (((p.handle inMacro item).run s).1.tokens, ((p.handle inMacro item).run s).2) ∧
    ((p.handle inMacro item).run s).1.Ordered inMacro Item.IsExpanded

/-- What a step makes of an item is led on. -/
theorem Makes.leads {p : Pass} (h : p.Makes naming A inMacro item s) :
    Leads naming item.token.places (fun D => A D ∧ item.token.Within D) (fun _ => True) ([], s)
      (((p.handle inMacro item).run s).1.tokens, ((p.handle inMacro item).run s).2) :=
  h.elim Keeps.leads And.left

/-- A handling that is traced is led on, with the diagnostic of a failure. -/
theorem leads_of_traces {p : Pass} (hmessage : item.token.isMessage = false)
    (htraces : Traces naming item.token.places (fun D => A D ∧ item.token.Within D) (fun _ _ => True) (p item)
      (Output.empty inMacro, s)) :
    Leads naming item.token.places (fun D => A D ∧ item.token.Within D) (fun _ => True) ([], s)
      (((p.handle inMacro item).run s).1.tokens, ((p.handle inMacro item).run s).2) := by
  rcases hexec : (p item).exec (Output.empty inMacro, s) with ⟨r, out, s'⟩
  cases r with
  | ok a =>
    rw [run_handle_of_ok hmessage hexec]
    exact htraces.ok a _ hexec
  | error f =>
    rw [run_handle_of_error hmessage hexec]
    exact htraces.error f _ hexec _

/-- A step whose handling is traced and emits what is expanded. -/
theorem makes_of_traces {p : Pass} (hmessage : item.token.isMessage = false)
    (htraces : Traces naming item.token.places (fun D => A D ∧ item.token.Within D) (fun _ _ => True) (p item)
      (Output.empty inMacro, s))
    (hordered : ((p item).exec (Output.empty inMacro, s)).2.1.Ordered inMacro Item.IsExpanded) :
    p.Makes naming A inMacro item s := by
  refine Or.inr ⟨leads_of_traces hmessage htraces, ?_⟩
  rcases hexec : (p item).exec (Output.empty inMacro, s) with ⟨r, out, s'⟩
  rw [hexec] at hordered
  cases r with
  | ok a =>
    rw [run_handle_of_ok hmessage hexec]
    exact hordered
  | error f =>
    rw [run_handle_of_error hmessage hexec]
    exact hordered.push rfl

/-- Names are bound, and what can be expanded by now is. -/
theorem makes_localize (hw : w.Places C) (hA : ∀ D, A D → C D ∧ ∀ a ∈ w.around.args, a.Within D) (item : Item)
    (s : State) : (localize w).Makes w.assembler.naming A w.block.inMacro item s := by
  have hfinishes : w.Finishes := fun run hrun => (hw.runner run hrun).finishes
  have hP : Item.Admits Item.IsExpanded := fun _ h => h
  have hspare : (Item.message default).IsExpanded := rfl
  have hstart : (Output.empty w.block.inMacro).Ordered w.block.inMacro Item.IsExpanded := .empty
  have hmakes : item.token.isMessage = false → item.token.role ≠ .assembled →
      ((localize w item).exec (Output.empty w.block.inMacro, s)).2.1.Ordered w.block.inMacro Item.IsExpanded →
      (localize w).Makes w.assembler.naming A w.block.inMacro item s := by
    intro hmessage hrole hordered
    refine makes_of_traces hmessage ?_ hordered
    exact (traces_localize hw hrole s).imp fun D h => ⟨hA D h.1, h.2⟩
  obtain ⟨token, pending⟩ := item
  cases token with
  | inclusion loc path loader => exact hmakes rfl nofun (Expand.emits_inclusion hP hfinishes loc path loader _ hstart)
  | radix loc value => exact hmakes rfl nofun (Emission.Emits.act _ _ hstart)
  | declare loc how names =>
    cases how with
    | locally => exact hmakes rfl nofun (Bind.emits_declareLocals hP loc names _ hstart)
    | _ => exact Or.inl (.of_emitItem rfl)
  | assign loc how name value =>
    cases how <;> exact hmakes rfl nofun (Emission.Emits.act _ _ hstart)
  | label loc name => exact hmakes rfl nofun (Bind.emits_label hP loc name _ hstart)
  | retract loc what names => exact hmakes rfl nofun (Bind.emits_retract hP loc what names _ hstart)
  | macroDef loc name parameters body =>
    exact hmakes rfl nofun (Bind.emits_defineMacro hP loc name parameters body _ hstart)
  | cond loc clauses otherwise assembled =>
    cases assembled with
    | true => exact Or.inl (keeps_decide pending s)
    | false => exact hmakes rfl nofun (Conditional.emits_assemble hP hfinishes loc clauses otherwise _ hstart)
  | dispatch d =>
    rcases Expand.call_cases w false ⟨.dispatch d, pending⟩ d (Output.empty w.block.inMacro, s) with hpass | hsame
    · exact Or.inl (.of_emitItem hpass)
    · refine hmakes rfl nofun ?_
      change ((Expand.call w false _ d).exec _).2.1.Ordered _ _
      rw [hsame (.message default)]
      exact Expand.emits_call hP hfinishes false hspare d _ hstart
  | dup loc counter iteration body =>
    rcases Replay.dup_cases w false ⟨.dup loc counter iteration body, pending⟩ loc counter iteration body with
      hpass | hsame
    · exact Or.inl (.of_emitItem (congrArg (Emission.exec · _) hpass))
    · refine hmakes rfl nofun ?_
      change ((Replay.dup w false _ loc counter iteration body).exec _).2.1.Ordered _ _
      rw [hsame (.message default)]
      exact Replay.emits_dup hP hfinishes (fun _ => hspare) loc counter iteration body _ hstart
  | _ => exact Or.inl (.of_emitItem rfl)

/-- What is left is expanded. -/
theorem makes_expandRest (hw : w.Places C) (hA : ∀ D, A D → C D ∧ ∀ a ∈ w.around.args, a.Within D) (item : Item)
    (s : State) : (expandRest w).Makes w.assembler.naming A w.block.inMacro item s := by
  have hfinishes : w.Finishes := fun run hrun => (hw.runner run hrun).finishes
  have hP : Item.Admits Item.IsExpanded := fun _ h => h
  have hspare : (Item.message default).IsExpanded := rfl
  have hstart : (Output.empty w.block.inMacro).Ordered w.block.inMacro Item.IsExpanded := .empty
  have hmakes : item.token.isMessage = false →
      ((expandRest w item).exec (Output.empty w.block.inMacro, s)).2.1.Ordered w.block.inMacro Item.IsExpanded →
      (expandRest w).Makes w.assembler.naming A w.block.inMacro item s := by
    intro hmessage hordered
    refine makes_of_traces hmessage ?_ hordered
    exact (traces_expandRest hw item s).imp fun D h => ⟨hA D h.1, h.2⟩
  obtain ⟨token, pending⟩ := item
  cases token with
  | dispatch d =>
    rcases Expand.call_cases w true ⟨.dispatch d, pending⟩ d (Output.empty w.block.inMacro, s) with hpass | hsame
    · exact Or.inl (.of_emitItem hpass)
    · refine hmakes rfl ?_
      change ((Expand.call w true _ d).exec _).2.1.Ordered _ _
      rw [hsame (.message default)]
      exact Expand.emits_call hP hfinishes true hspare d _ hstart
  | dup loc counter iteration body =>
    exact hmakes rfl (Replay.emits_dup hP hfinishes Bool.noConfusion loc counter iteration body _ hstart)
  | _ => exact Or.inl (.of_emitItem rfl)

end Pass

namespace Stage

variable {p last : Pass} {passes : List Pass} {f : Item → Trail → StateM State Trail}

/-- What is expanded reaches the end of a stage: the labels that it is the place of, and the failures that it tells.
The stage goes on after it, unless it is terminal or a failure is reported. -/
structure Delivers (inMacro : Bool) (f : Item → Trail → StateM State Trail) : Prop where
  /-- What the trail had stays. -/
  grows : Grows f
  /-- What tells that a label has not a property tells it at the end. -/
  escapes : ∀ item t s, item.IsExpanded → t.stopped = false → ∀ D, Escapes D [item.token] →
    Escapes D ((f item t).run s).1.tokens
  /-- The stage goes on. -/
  goesOn : ∀ item t s, item.IsExpanded → t.stopped = false → ((f item t).run s).1.stopped = true →
    item.token.isTerminal inMacro = true ∨ ∃ t' ∈ ((f item t).run s).1.tokens, t'.fails = true

/-- All items of a list of which none before the last is terminal reach the end. -/
theorem Delivers.feed (hf : Delivers inMacro f) {items : List Item} (hexpanded : ∀ i ∈ items, i.IsExpanded)
    (hordered : ∀ i ∈ items.dropLast, i.token.isTerminal inMacro = false) {t : Trail} (ht : t.stopped = false)
    (s : State) (hescapes : Escapes D (items.map Item.token)) :
    Escapes D ((feed f items t).run s).1.tokens := by
  have hmono : ∀ {items : List Item} {t : Trail} {s : State}, Escapes D t.tokens →
      Escapes D ((Stage.feed f items t).run s).1.tokens := by
    intro items t s h
    exact h.mono fun _ ht => ((hf.grows.feed items t s).map Item.token).subset ht
  induction items generalizing t s with
  | nil =>
    obtain ⟨id, -, hplace | ⟨t, ht, -⟩⟩ := hescapes
    · cases hplace
    · cases ht
  | cons i rest ih =>
    rw [List.forall_mem_cons] at hexpanded
    rw [run_feed_cons ht rfl]
    -- the escape is by the first item or by a later one
    have hsplit : Escapes D [i.token] ∨ Escapes D (rest.map Item.token) := by
      obtain ⟨id, hid, hplace | ⟨t, ht, hfails⟩⟩ := hescapes
      · rw [List.map_cons, Token.allPlaces, List.mem_append] at hplace
        refine hplace.imp (fun h => ⟨id, hid, Or.inl ?_⟩) fun h => ⟨id, hid, Or.inl h⟩
        rwa [Token.allPlaces, Token.allPlaces, List.append_nil]
      · rcases List.mem_cons.1 ht with rfl | ht
        · exact Or.inl ⟨id, hid, Or.inr ⟨_, List.mem_cons_self, hfails⟩⟩
        · exact Or.inr ⟨id, hid, Or.inr ⟨t, ht, hfails⟩⟩
    rcases hsplit with hfirst | hlater
    · exact hmono (hf.escapes i t s hexpanded.1 ht D hfirst)
    · have hrest : rest ≠ [] := by
        rintro rfl
        obtain ⟨id, -, hplace | ⟨t, ht, -⟩⟩ := hlater
        · cases hplace
        · cases ht
      rw [List.dropLast_cons_of_ne_nil hrest, List.forall_mem_cons] at hordered
      cases hstopped : ((f i t).run s).1.stopped with
      | false => exact ih hexpanded.2 hordered.2 hstopped _ hlater
      | true =>
        rcases hf.goesOn i t s hexpanded.1 ht hstopped with hterminal | hfails
        · rw [hordered.1] at hterminal
          cases hterminal
        · obtain ⟨id, hid, -⟩ := hlater
          exact hmono ⟨id, hid, Or.inr hfails⟩

/-- What a step emits goes through the steps that follow, and the stage stops after a terminal item. -/
theorem run_through_cons {t : Trail} {out : Output} {s s' : State} (h : (p.handle inMacro item).run s = (out, s')) :
    (through inMacro last (p :: passes) item t).run s =
      ({ ((feed (through inMacro last passes) out.items t).run s').1 with
          stopped := ((feed (through inMacro last passes) out.items t).run s').1.stopped || out.closed },
        ((feed (through inMacro last passes) out.items t).run s').2) := by
  rw [through, StateM.run_bind, h, StateM.run_bind]
  rfl

/-- The same for an item that a step emits alone. -/
theorem run_through_push {t : Trail} {i : Item} {s s' : State} (ht : t.stopped = false)
    (h : (p.handle inMacro item).run s = ((Output.empty inMacro).push i, s')) :
    (through inMacro last (p :: passes) item t).run s =
      ({ ((through inMacro last passes i t).run s').1 with
          stopped := ((through inMacro last passes i t).run s').1.stopped || i.token.isTerminal inMacro },
        ((through inMacro last passes i t).run s').2) := by
  rw [run_through_cons h, Output.items_push_empty, run_feed_cons ht rfl]
  rfl

/-- A diagnostic reaches the end. -/
theorem escapes_through_message {t : Trail} (ht : t.stopped = false) (hitem : item.token.isMessage = true)
    (h : Escapes D [item.token]) (s : State) :
    Escapes D ((through inMacro last passes item t).run s).1.tokens := by
  rw [run_through_message ht hitem, Trail.tokens, Trail.items_add, List.map_append]
  exact h.mono fun _ ht => List.mem_append_right _ ht

/-- A step that passes on what is expanded, before others. -/
theorem Delivers.step (hp : ∀ item s, item.IsExpanded → item.token.isMessage = false →
      ∃ i s', (p.handle inMacro item).run s = ((Output.empty inMacro).push i, s') ∧ i.token = item.token)
    (hrest : Delivers inMacro (through inMacro last passes)) :
    Delivers inMacro (through inMacro last (p :: passes)) := by
  refine ⟨grows_through inMacro last _, fun item t s hitem ht D hescapes => ?_, fun item t s hitem ht hstopped => ?_⟩
  · cases hmessage : item.token.isMessage with
    | true => exact escapes_through_message ht hmessage hescapes s
    | false =>
      obtain ⟨i, s', hrun, heq⟩ := hp item s hitem hmessage
      rw [run_through_push ht hrun]
      rw [Item.IsExpanded, ← heq] at hitem
      rw [← heq] at hescapes
      exact hrest.escapes i t s' hitem ht D hescapes
  · cases hmessage : item.token.isMessage with
    | true =>
      rw [run_through_message ht hmessage, Trail.stopped_add, ht] at hstopped
      exact Or.inl hstopped
    | false =>
      obtain ⟨i, s', hrun, heq⟩ := hp item s hitem hmessage
      rw [run_through_push ht hrun] at hstopped ⊢
      rw [Item.IsExpanded, ← heq] at hitem
      rw [← heq]
      rcases Bool.or_eq_true_iff.1 hstopped with hstopped | hterminal
      · exact hrest.goesOn i t s' hitem ht hstopped
      · exact Or.inl hterminal

/-- What is encoded of data is not terminal. -/
theorem isTerminal_of_data {kind : DataKind} {values : List Expr} {ts : List Token}
    (h : Encode.data kind values = .ok ts) : ∀ t ∈ ts, t.isTerminal inMacro = false := by
  intro t ht
  rcases Encode.data_cases h ht with ⟨_, _, rfl⟩ | ⟨_, _, rfl⟩ | ⟨_, _, rfl, -⟩ <;> rfl

/-- The last step of a block. -/
theorem delivers_complete (w : Workbench) :
    Delivers inMacro (through inMacro (.ofToken (Finish.complete w)) []) := by
  refine ⟨grows_through inMacro _ _, fun item t s hitem ht D hescapes => ?_, fun item t s hitem ht hstopped => ?_⟩
  · obtain ⟨id, hid, htold⟩ := hescapes
    rw [Token.allPlaces, Token.allPlaces, List.append_nil] at htold
    rcases Pass.complete_cases w item s with ⟨i, hrun, heq | ⟨-, hplaces, hfails⟩⟩ | ⟨loc, kind, values, ts, heq, -⟩
    · rw [run_through_last hrun, Trail.tokens, Trail.items_add, List.map_append]
      have htoken : Escapes D [item.token] :=
        ⟨id, hid, by rwa [Token.allPlaces, Token.allPlaces, List.append_nil]⟩
      refine htoken.mono fun t ht => List.mem_append_right _ ?_
      rw [List.mem_singleton.1 ht, ← heq]
      exact List.mem_cons_self
    · rw [hplaces] at htold
      rcases htold with hplace | ⟨t, ht, hfail⟩
      · cases hplace
      · rw [List.mem_singleton.1 ht, hfails] at hfail
        cases hfail
    · rw [heq] at htold
      rcases htold with hplace | ⟨t, ht, hfail⟩
      · cases hplace
      · rw [List.mem_singleton.1 ht] at hfail
        cases hfail
  · rcases Pass.complete_cases w item s with ⟨i, hrun, hi⟩ | ⟨loc, kind, values, ts, heq, hencoded, hrun⟩
    · rw [run_through_last hrun, Trail.stopped_add, ht, Bool.false_or] at hstopped
      rcases hi with heq | ⟨hmessage, -⟩
      · rw [← heq]
        exact Or.inl hstopped
      · refine Or.inr ⟨i.token, ?_, Token.fails_of_isFatal ?_⟩
        · rw [run_through_last hrun, Trail.tokens, Trail.items_add, List.map_append]
          exact List.mem_append_right _ List.mem_cons_self
        · exact (Token.isTerminal_of_isMessage hmessage inMacro).symm.trans hstopped
    · have hopen : ((Output.empty inMacro).pushAll (ts.map .settled)).closed = false := by
        refine (Output.items_pushAll rfl fun i hi => ?_).2
        obtain ⟨t, ht, rfl⟩ := List.mem_map.1 hi
        exact isTerminal_of_data hencoded t ht
      rw [run_through_last hrun, Trail.stopped_add, ht, hopen] at hstopped
      cases hstopped

/-- The steps after a statement was expanded deliver it. -/
theorem delivers_finish (w : Workbench) : Delivers inMacro
    (through inMacro (.ofToken (Finish.complete w)) [.ofToken Finish.relax, .ofToken (Finish.encode w)]) := by
  have hdispatch : ∀ {item : Item} {d : Dispatch}, item.IsExpanded → item.token ≠ .dispatch d := by
    intro item d hitem heq
    rw [Item.IsExpanded, heq] at hitem
    cases hitem
  refine .step (fun item s hitem hmessage => ?_) (.step (fun item s hitem hmessage => ?_) (delivers_complete w))
  · refine ⟨.settled item.token, { s with bankSwitched := false }, Pass.run_handle_of_ok hmessage ?_, rfl⟩
    obtain ⟨token, pending⟩ := item
    cases token with
    | dispatch d => exact absurd rfl (hdispatch hitem)
    | _ => rfl
  · refine ⟨.settled item.token, s, Pass.run_handle_of_ok hmessage ?_, rfl⟩
    obtain ⟨token, pending⟩ := item
    cases token with
    | dispatch d => exact absurd rfl (hdispatch hitem)
    | _ => rfl

/-- What is expanded already is not expanded by the step that expands the rest, and is delivered. -/
theorem delivers_expandRest (w : Workbench) : Delivers inMacro
    (through inMacro (.ofToken (Finish.complete w))
      [.expandRest w, .ofToken Finish.relax, .ofToken (Finish.encode w)]) := by
  refine .step (fun item s hitem hmessage => ⟨item, s, Pass.run_handle_of_ok hmessage ?_, rfl⟩) (delivers_finish w)
  obtain ⟨token, pending⟩ := item
  cases token with
  | dispatch | dup => cases hitem
  | _ => rfl

/-- Taking an item to the end of a stage places its labels and new ones, and refers to what is placed, unless a
failure is reported. -/
def Carries (naming : Naming) (A : (Text → Prop) → Prop) (f : Item → Trail → StateM State Trail) : Prop :=
  ∀ item t s, t.stopped = false → Leads naming item.token.places (fun D => A D ∧ item.token.Within D) (fun _ => True)
    (t.tokens, s) (((f item t).run s).1.tokens, ((f item t).run s).2)

/-- The items of a list are carried to the end, up to where the stage stops. -/
theorem Carries.feed (hf : Carries naming A f) (items : List Item) (t : Trail) (s : State) :
    Leads naming (Token.allPlaces (items.map Item.token)) (fun D => A D ∧ ∀ i ∈ items, i.token.Within D) (fun _ => True)
      (t.tokens, s) (((feed f items t).run s).1.tokens, ((feed f items t).run s).2) := by
  induction items generalizing t s with
  | nil => exact .refl (fun _ _ => trivial) _
  | cons i rest ih =>
    cases hstopped : t.stopped with
    | true =>
      rw [run_feed_of_stopped hstopped]
      exact (Leads.refl (fun _ _ => trivial) _).spare _
    | false =>
      rw [run_feed_cons hstopped rfl]
      have hfirst : Leads naming i.token.places (fun D => A D ∧ ∀ i' ∈ i :: rest, i'.token.Within D)
          (fun _ => True) _ _ :=
        (hf i t s hstopped).imp (fun D h => ⟨h.1, h.2 i List.mem_cons_self⟩) fun _ h => h
      refine hfirst.trans ((ih _ _).imp (fun D h => ⟨h.1.1, fun i' hi' => ?_⟩) fun _ h => h)
      exact h.1.2 i' (List.mem_cons_of_mem i hi')

/-- What the last step emits is at the end. -/
theorem carries_last (hp : ∀ item s, Leads naming item.token.places (fun D => A D ∧ item.token.Within D) (fun _ => True)
      ([], s) (((last.handle inMacro item).run s).1.tokens, ((last.handle inMacro item).run s).2)) :
    Carries naming A (through inMacro last []) := by
  intro item t s _
  have hleads := hp item s
  rcases hrun : (last.handle inMacro item).run s with ⟨out, s'⟩
  rw [hrun] at hleads
  have htokens : (t.add ⟨out.items, out.closed, s'⟩).tokens = t.tokens ++ out.tokens := by
    rw [Trail.tokens, Trail.items_add, List.map_append]
    rfl
  rw [run_through_last hrun]
  dsimp only
  rw [htokens]
  exact hleads.after rfl (fun _ h => h) (fun _ h _ => h) _

/-- What a step emits before the end is carried on by the steps that follow, if the step keeps what it is given, or
if all that it makes is delivered. -/
theorem carries_step (hp : ∀ item s, p.Makes naming A inMacro item s)
    (hdelivers : (∀ item s, p.Keeps A inMacro item s) ∨ Delivers inMacro (through inMacro last passes))
    (hrest : Carries naming A (through inMacro last passes)) :
    Carries naming A (through inMacro last (p :: passes)) := by
  intro item t s ht
  have hleads := (hp item s).leads
  rcases hrun : (p.handle inMacro item).run s with ⟨out, s'⟩
  have hmakes : (∀ D, A D → item.token.Within D → s.scope.Within D → Snapshot.Within D (out.tokens, s')) ∨
      Delivers inMacro (through inMacro last passes) ∧ out.Ordered inMacro Item.IsExpanded := by
    have hkept : p.Keeps A inMacro item s → ∀ D, A D → item.token.Within D → s.scope.Within D →
        Snapshot.Within D (out.tokens, s') := by
      intro hkeeps D hA hitem hs
      have hstep := (hkeeps.step D hA hitem hs).2
      rwa [hrun] at hstep
    rcases hdelivers with hkeeps | hdelivers
    · exact Or.inl (hkept (hkeeps item s))
    · refine (hp item s).imp hkept fun h => ⟨hdelivers, ?_⟩
      have hordered := h.2
      rwa [hrun] at hordered
  rw [hrun] at hleads
  rw [run_through_cons hrun]
  have hfeed : Leads naming _ (fun D => (A D ∧ item.token.Within D) ∧ ∀ t ∈ out.tokens, t.Within D) _ _ _ :=
    (hrest.feed out.items t s').imp (fun D h => ⟨h.1.1, fun i hi => h.2 i.token (List.mem_map_of_mem hi)⟩) fun _ h => h
  refine hleads.relay hfeed fun D hP hs => hmakes.imp (fun h => h D hP.1 hP.2 hs) ?_
  rintro ⟨hdelivers, hordered⟩
  refine hdelivers.feed (fun i hi => hordered.holds i (List.mem_reverse.1 hi)) (fun i hi => ?_) ht s'
  have hi : i ∈ out.reversed.reverse.dropLast := hi
  rw [List.dropLast_reverse, List.mem_reverse] at hi
  exact hordered.before i hi

end Stage

end MacroAsm
