import MacroAsm.Proofs.Assembly.Depth
import MacroAsm.Proofs.Assembly.Ledger

/-!
# What steps say that begin no block

A step that begins no block fails with nothing emitted, or it emits a single item, or items that are not to be
expanded (`Emission.Direct`). All diagnostics that it emits are produced by it, so it keeps account of them
(`Told.Accounts.ofDirect`). What a step emits for a statement does so if its handling does: a failure is reported
(`Told.Accounts.output`).
-/

namespace MacroAsm

variable {inMacro : Bool}

namespace Emission

variable {α β : Type}

section Sure

/-- A handling that goes on with the result of another. -/
theorem Sure.bind {e : Emission α} {k : α → Emission β} (he : Sure e) (hk : ∀ a, Sure (k a)) :
    Sure (e >>= k) := by
  intro p
  obtain ⟨a, ha⟩ := he p
  rw [exec_bind_of_ok (q := (e.exec p).2) (Prod.ext ha rfl)]
  exact hk a _

/-- Handlings for the elements of a list. -/
theorem Sure.forM {xs : List β} {step : β → Emission PUnit} (hstep : ∀ x, Sure (step x)) :
    Sure (xs.forM step) := by
  induction xs with
  | nil => exact fun _ => ⟨_, rfl⟩
  | cons x rest ih => exact (hstep x).bind fun _ => ih

end Sure

section Prompt

/-- A handling fails with nothing emitted. -/
def Prompt (e : Emission α) : Prop := ∀ p f q, e.exec p = (.error f, q) → q.1 = p.1

/-- A handling that emits nothing. -/
theorem Prompt.silent {e : Emission α} (h : Silent e) : Prompt e := by
  intro p f q hq
  have hsame := h p
  rwa [hq] at hsame

/-- A handling that gives a result. -/
theorem Prompt.of_sure {e : Emission α} (h : Sure e) : Prompt e := by
  intro p f q hq
  obtain ⟨a, ha⟩ := h p
  rw [hq] at ha
  cases ha

/-- A handling that goes on after one that emits nothing. -/
theorem Prompt.silent_bind {e : Emission α} {k : α → Emission β} (he : Silent e) (hk : ∀ a, Prompt (k a)) :
    Prompt (e >>= k) := by
  intro p f q hq
  have hsame := he p
  rcases hexec : e.exec p with ⟨r, q'⟩
  rw [hexec] at hsame
  cases r with
  | ok a =>
    rw [exec_bind_of_ok hexec] at hq
    exact (hk a q' f q hq).trans hsame
  | error f' =>
    rw [exec_bind_of_error hexec] at hq
    cases hq
    exact hsame

end Prompt

section Direct

/-- A handling fails with nothing emitted. Else what it emits has a property, or it is a single item. -/
structure Direct (inMacro : Bool) (Q : Output → Prop) (e : Emission PUnit) : Prop where
  /-- It fails with nothing emitted. -/
  prompt : Prompt e
  /-- What it emits. -/
  shape : ∀ s, Q (e.exec (Output.empty inMacro, s)).2.1 ∨
    ∃ i, (e.exec (Output.empty inMacro, s)).2.1 = (Output.empty inMacro).push i

variable {Q : Output → Prop}

theorem Direct.emitItem (i : Item) : Direct inMacro Q (Emission.emitItem i) :=
  ⟨.of_sure fun _ => ⟨_, rfl⟩, fun _ => Or.inr ⟨i, rfl⟩⟩

theorem Direct.of_emits {e : Emission PUnit} (hprompt : Prompt e) (h : Emits inMacro Item.IsExpanded e) :
    Direct inMacro (·.Ordered inMacro Item.IsExpanded) e :=
  ⟨hprompt, fun _ => Or.inl (h _ .empty)⟩

theorem Direct.silent {e : Emission PUnit} (h : Silent e) (hQ : Q (Output.empty inMacro)) : Direct inMacro Q e :=
  ⟨.silent h, fun _ => Or.inl (by rwa [h])⟩

/-- A handling that goes on after one that emits nothing. -/
theorem Direct.silent_bind {e : Emission α} {k : α → Emission PUnit} (hQ : Q (Output.empty inMacro))
    (he : Silent e) (hk : ∀ a, Direct inMacro Q (k a)) : Direct inMacro Q (e >>= k) := by
  refine ⟨.silent_bind he fun a => (hk a).prompt, fun s => ?_⟩
  have hsame := he (Output.empty inMacro, s)
  rcases hexec : e.exec (Output.empty inMacro, s) with ⟨r, out, s'⟩
  rw [hexec] at hsame
  cases hsame
  cases r with
  | ok a =>
    rw [exec_bind_of_ok hexec]
    exact (hk a).shape s'
  | error f =>
    rw [exec_bind_of_error hexec]
    exact Or.inl hQ

theorem Direct.imp {Q' : Output → Prop} {e : Emission PUnit} (h : Direct inMacro Q e) (hQ : ∀ o, Q o → Q' o) :
    Direct inMacro Q' e :=
  ⟨h.prompt, fun s => (h.shape s).imp (hQ _) id⟩

end Direct

end Emission

open Emission (Direct Prompt Sure Silent Emits)

/-- What a step emits that begins no block: nothing that is to be expanded, or a single item. -/
abbrev Pass.Plain (inMacro : Bool) (p : Pass) : Prop :=
  ∀ item, Direct inMacro (·.Ordered inMacro Item.IsExpanded) (p item)

/-- A step emits one item at most. -/
abbrev Pass.Single (inMacro : Bool) (p : Pass) : Prop := ∀ item, Direct inMacro (· = Output.empty inMacro) (p item)

namespace Pass

variable {w : Workbench} {p : Pass}

theorem Single.plain (h : p.Single inMacro) : p.Plain inMacro :=
  fun item => (h item).imp fun _ ho => ho ▸ .empty

theorem single_reduceFirst : (reduceFirst w).Single inMacro := fun _ =>
  .silent_bind rfl (fun _ => rfl) fun _ => .silent_bind rfl (.act _) fun _ =>
    .silent_bind rfl (fun _ => rfl) fun _ => .emitItem _

/-- Evaluating again emits one item at most. -/
theorem single_reduceAgain : (reduceAgain w).Single inMacro := by
  intro item
  rw [reduceAgain]
  split
  · exact .silent_bind rfl (.act _) fun t => .emitItem _
  · exact .emitItem item

/-- A relative jump becomes one branch. -/
theorem single_relax : (ofToken Finish.relax).Single inMacro := by
  intro item
  obtain ⟨token, pending⟩ := item
  have hmodify : ∀ (change : State → State) (t : Token), Direct inMacro (· = Output.empty inMacro)
      (do modifyThe State change; Emission.emit t) :=
    fun change t => .silent_bind rfl (fun _ => rfl) fun _ => .emitItem _
  cases token with
  | dispatch d => exact .silent_bind rfl (fun _ => rfl) fun s => hmodify _ _
  | _ => exact hmodify _ _

/-- GLOBAL and EXTERN emit diagnostics, and everything else is passed on. -/
theorem plain_declareGlobals : (ofToken (Declare.declareGlobals w)).Plain inMacro := by
  intro item
  obtain ⟨token, pending⟩ := item
  have hglobal : ∀ (loc : Location) (change : Symbol → Symbol) (name : Text),
      Sure (Declare.globalName loc change name) := by
    intro loc change name
    refine .bind (fun _ => ⟨_, rfl⟩) fun scope => ?_
    split <;> exact fun _ => ⟨_, rfl⟩
  cases token with
  | declare loc how names =>
    have hemits : Emits inMacro Item.IsExpanded
        (ofToken (Declare.declareGlobals w) ⟨.declare loc how names, pending⟩) :=
      Declare.emits_declareGlobals (fun i hi => Token.isExpanded_of_isMessage hi) fun _ => by cases how <;> rfl
    refine .of_emits ?_ hemits
    cases how with
    | locally => exact .of_sure fun _ => ⟨_, rfl⟩
    | globally weak =>
      refine .silent_bind (.act _) fun names => .of_sure (.forM fun name => ?_)
      exact (hglobal loc _ name).bind fun _ _ => ⟨_, rfl⟩
    | externally attributes =>
      refine .silent_bind (.act _) fun names => .of_sure (.forM fun name => (hglobal loc _ name).bind fun made => ?_)
      split
      · refine .bind (fun _ => ⟨_, rfl⟩) fun scope => .bind (fun _ => ⟨_, rfl⟩) fun _ => ?_
        split <;> exact fun _ => ⟨_, rfl⟩
      · exact fun _ => ⟨_, rfl⟩
  | _ => exact .emitItem _

/-- Instructions are encoded, and everything else is passed on. -/
theorem plain_encode : (ofToken (Finish.encode w)).Plain inMacro := by
  intro item
  obtain ⟨token, pending⟩ := item
  cases token with
  | dispatch d =>
    refine .silent_bind .empty (.act _) fun mnemonic => ?_
    cases hr : Encode.instruction w.assembler.table mnemonic d with
    | error d => exact .silent (.report d) .empty
    | ok ts =>
      refine .of_emits (.of_sure fun _ => ⟨_, rfl⟩) (.emitAll fun t ht => ?_)
      exact Token.isExpanded_of_isOutput (Encode.isEncoded_of_instruction hr t ht).1
  | _ => exact .emitItem _

/-- Data are encoded and texts are shown, and everything else is passed on. -/
theorem plain_complete : (ofToken (Finish.complete w)).Plain inMacro := by
  intro item
  obtain ⟨token, pending⟩ := item
  cases token with
  | data loc kind values =>
    rw [ofToken, Finish.complete]
    cases hr : Encode.data kind values with
    | error d => exact .silent (.report d) .empty
    | ok ts =>
      refine .of_emits (.of_sure fun _ => ⟨_, rfl⟩) (.emitAll fun t ht => ?_)
      exact Token.isExpanded_of_isOutput (Encode.isEncoded_of_data hr t ht).1
  | display loc kind text =>
    rw [ofToken, Finish.complete]
    split
    · exact .silent_bind .empty (.require _) fun shown => .emitItem _
    · exact .emitItem _
  | exitMacro loc =>
    rw [ofToken, Finish.complete]
    split
    · exact .emitItem _
    · exact .silent (.report _) .empty
  | _ => exact .emitItem _

end Pass

namespace Bind

variable {w : Workbench}

/-- LOCAL emits diagnostics. -/
theorem direct_declareLocals (loc : Location) (names : List Expr) :
    Direct inMacro (·.Ordered inMacro Item.IsExpanded) (declareLocals w loc names) := by
  refine .of_emits (.silent_bind (.act _) fun ns => .of_sure (.forM fun name => ?_))
    (emits_declareLocals (fun _ h => h) loc names)
  refine .bind (fun _ => ⟨_, rfl⟩) fun scope => ?_
  split <;> exact fun _ => ⟨_, rfl⟩

/-- A label emits its place. -/
theorem direct_label (loc : Location) (name : Expr) :
    Direct inMacro (·.Ordered inMacro Item.IsExpanded) (label w loc name) := by
  refine .silent_bind .empty (.act _) fun name => .silent_bind .empty (.act _) fun sym => ?_
  split
  · exact .silent (.report _) .empty
  · exact .silent_bind .empty (.act _) fun id => .silent_bind .empty (.act _) fun _ => .emitItem _

/-- UNDEF and PMACRO emit diagnostics. -/
theorem direct_retract (loc : Location) (what : Retraction) (names : List Expr) :
    Direct inMacro (·.Ordered inMacro Item.IsExpanded) (retract w loc what names) := by
  refine .of_emits (.silent_bind (.act _) fun ns => .of_sure (.forM fun name => ?_))
    (emits_retract (fun _ h => h) loc what names)
  refine .bind (fun _ => ⟨_, rfl⟩) fun scope => ?_
  split <;> exact fun _ => ⟨_, rfl⟩

/-- MACRO emits a diagnostic if it keeps a value. -/
theorem direct_defineMacro (loc : Location) (name : Expr) (parameters : List Expr) (body : List Token) :
    Direct inMacro (·.Ordered inMacro Item.IsExpanded) (defineMacro w loc name parameters body) := by
  refine .silent_bind .empty (.act _) fun name => .silent_bind .empty (.act _) fun ps =>
    .silent_bind .empty (.act _) fun scope => .silent_bind .empty (.act _) fun scope =>
      .silent_bind .empty (.act _) fun _ => ?_
  dsimp only
  split
  · exact .emitItem _
  · exact .silent_bind .empty (.act _) fun id => .silent (.act _) .empty

end Bind

theorem Item.diagnostics_cons (i : Item) (items : List Item) :
    diagnostics (i :: items) = diagnostics [i] ++ diagnostics items :=
  diagnostics_append [i] items

theorem Item.mem_diagnostics {items : List Item} {d : Diagnostic} :
    d ∈ diagnostics items ↔ ∃ i ∈ items, i.token = .message d := by
  rw [diagnostics, Token.mem_diagnostics, List.mem_map]

/-- A fatal diagnostic ends an output in which nothing is to be expanded. -/
theorem Output.Ordered.overrun {o : Output} (ho : o.Ordered inMacro Item.IsExpanded) {i : Item}
    (hi : i ∈ o.reversed) (hsaid : i.Says Diagnostic.IsFatal) : o.Overrun Diagnostic.IsFatal inMacro := by
  have hterminal : i.token.isTerminal inMacro = true := by
    obtain ⟨d, hd, hfatal⟩ := hsaid
    rw [hd]
    exact hfatal
  refine ⟨ho, ?_, ?_⟩
  · by_contra hopen
    rw [ho.isOpen (Bool.eq_false_of_not_eq_true hopen) i hi] at hterminal
    cases hterminal
  · have hbefore := ho.before
    cases hreversed : o.reversed with
    | nil =>
      rw [hreversed] at hi
      cases hi
    | cons j rest =>
      rw [hreversed] at hi hbefore
      rcases List.mem_cons.1 hi with rfl | hrest
      · exact ⟨i, rest, rfl, hsaid⟩
      · rw [hbefore i hrest] at hterminal
        cases hterminal

namespace Told

variable {whole : Prop} {s : State}

/-- What a handling emits that produces all of it. -/
theorem diagnostics_own (e : Emission PUnit) (s : State) :
    Event.diagnostics ((own e).log (Output.empty inMacro, s)) =
      Item.diagnostics (e.exec (Output.empty inMacro, s)).2.1.items :=
  Event.diagnostics_said _

/-- A handling that begins no block keeps account of what it emits, if nothing that it emits but a diagnostic ends
the output. -/
theorem Accounts.ofDirect {e : Emission PUnit} (he : Direct inMacro (·.Ordered inMacro Item.IsExpanded) e)
    (hopen : whole → ∀ q, e.exec (Output.empty inMacro, s) = (.ok ⟨⟩, q) →
      ∀ i ∈ q.1.reversed, i.token.isTerminal inMacro = true → i.token.isMessage = true) :
    (own e).Settles whole inMacro true (Output.empty inMacro, s) := by
  have hempty : (Output.empty inMacro).Calm inMacro := ⟨.empty, rfl⟩
  have hlog : Event.diagnostics ((Told.own e).log (Output.empty inMacro, s)) = _ := diagnostics_own e s
  have hshape := he.shape s
  rcases hexec : e.exec (Output.empty inMacro, s) with ⟨r, q⟩
  rw [hexec] at hlog hshape
  dsimp only at hlog hshape
  cases r with
  | error f =>
    have hnone : q.1 = Output.empty inMacro := he.prompt _ f q hexec
    rw [hnone] at hlog
    refine .silent hempty ?_ hlog
    rw [act_own, hexec]
    exact hnone
  | ok x =>
    refine ⟨fun f q' h => (by rw [act_own, hexec] at h; cases h), ?_⟩
    by_cases hfatal : ∃ i ∈ q.1.reversed, i.Says Diagnostic.IsFatal
    · -- it ends with a fatal diagnostic
      obtain ⟨i, hi, hsaid⟩ := hfatal
      refine Or.inl (Or.inr ⟨rfl, ?_, fun _ hsafe => ?_⟩)
      swap
      · obtain ⟨d, hd, hisFatal⟩ := hsaid
        have hmild := hsafe d (hlog ▸ Item.mem_diagnostics.2 ⟨i, List.mem_reverse.2 hi, hd⟩)
        exact Bool.false_ne_true (hmild.symm.trans hisFatal)
      rw [act_own, hexec]
      refine Output.Ordered.overrun ?_ hi hsaid
      rcases hshape with hordered | ⟨j, hsingle⟩
      · exact hordered
      · obtain ⟨d, hd, -⟩ := hsaid
        rw [hsingle] at hi ⊢
        cases List.mem_singleton.1 hi
        exact .push .empty (by rw [Item.IsExpanded, hd]; rfl)
    · have hsafe : Event.Safe ((own e).log (Output.empty inMacro, s)) := by
        intro d hd
        rw [hlog] at hd
        obtain ⟨i, hi, hmessage⟩ := Item.mem_diagnostics.1 hd
        exact Bool.eq_false_of_not_eq_true fun h => hfatal ⟨i, List.mem_reverse.1 hi, d, hmessage, h⟩
      refine Or.inr ⟨hsafe, fun hwhole => ⟨fun a q' h => ?_, fun f q' h => (by rw [act_own, hexec] at h; cases h)⟩⟩
      rw [act_own, hexec] at h
      cases h
      have hterminal : ∀ i ∈ q.1.reversed, i.token.isTerminal inMacro = false := by
        intro i hi
        refine Bool.eq_false_of_not_eq_true fun h => ?_
        have hmessage := hopen hwhole q hexec i hi h
        cases htoken : i.token with
        | message d =>
          rw [htoken] at h
          exact hfatal ⟨i, hi, d, htoken, h⟩
        | _ =>
          rw [htoken] at hmessage
          cases hmessage
      refine ⟨?_, fun d => ?_⟩
      · refine Bool.eq_false_of_not_eq_true fun hclosed => ?_
        obtain ⟨i, hi, h⟩ : ∃ i ∈ q.1.reversed, i.token.isTerminal inMacro = true := by
          rcases hshape with hordered | ⟨j, hsingle⟩
          · exact hordered.isClosed hclosed
          · rw [hsingle] at hclosed ⊢
            exact ⟨j, List.mem_singleton.2 rfl, hclosed⟩
        rw [hterminal i hi] at h
        cases h
      · rw [hlog]
        simp [Output.tally, Output.empty, Output.items]

end Told

namespace Recorded

/-- What is emitted for an item keeps account of diagnostics: it ends with a fatal one, or none was produced, and
those that are emitted are the ones that were produced, now or before. -/
def Accounts (whole : Prop) (inMacro : Bool) (before : List Diagnostic) (x : Recorded Output) (s : State) : Prop :=
  ((x.act.run s).1.Overrun Diagnostic.IsFatal inMacro ∧
    (whole → Diagnostic.AnyFatal (before ++ Event.diagnostics (x.log s)))) ∨ Event.Safe (x.log s) ∧ (whole →
    (x.act.run s).1.closed = false ∧ ∀ d,
      (x.act.run s).1.tally d = before.count d + (Event.diagnostics (x.log s)).count d)

end Recorded

namespace Told

variable {whole : Prop} {s : State} {e : Told PUnit} {q : Output × State}

/-- The events of a step, with the diagnostic of a failure. -/
theorem log_output (e : Told PUnit) (inMacro : Bool) (loc : Location) (s : State) :
    (e.output inMacro loc).log s = e.log (Output.empty inMacro, s) ++
      match (e.act.exec (Output.empty inMacro, s)).1 with
      | .ok _ => []
      | .error f => [Event.said (f.toDiagnostic loc)] := rfl

/-- What a step emits for a statement if its handling gives a result. -/
theorem output_of_ok {x : PUnit} (h : e.act.exec (Output.empty inMacro, s) = (.ok x, q)) (loc : Location) :
    ((e.output inMacro loc).act.run s).1 = q.1 ∧
      (e.output inMacro loc).log s = e.log (Output.empty inMacro, s) := by
  refine ⟨?_, ?_⟩
  · change ((e.act.output inMacro loc).run s).1 = q.1
    rw [Emission.run_output, h]
  · rw [log_output, h, List.append_nil]

/-- What a step emits for a statement if its handling fails. -/
theorem output_of_error {f : Failure} (h : e.act.exec (Output.empty inMacro, s) = (.error f, q))
    (loc : Location) :
    ((e.output inMacro loc).act.run s).1 = q.1.push (.message (f.toDiagnostic loc)) ∧
      (e.output inMacro loc).log s = e.log (Output.empty inMacro, s) ++ [.said (f.toDiagnostic loc)] := by
  refine ⟨?_, ?_⟩
  · change ((e.act.output inMacro loc).run s).1 = _
    rw [Emission.run_output, h]
  · rw [log_output, h]

/-- A statement whose handling keeps account does so, if a failure of it is reported. -/
theorem Accounts.output (he : e.Settles whole inMacro true (Output.empty inMacro, s)) (loc : Location) :
    (e.output inMacro loc).Accounts whole inMacro [] s := by
  have hnone : ∀ d, (Output.empty inMacro).tally d = 0 := fun _ => rfl
  have houtcome := he.outcome
  rcases hexec : e.act.exec (Output.empty inMacro, s) with ⟨r, q⟩
  cases r with
  | ok x =>
    obtain ⟨hrun, hlog⟩ := output_of_ok hexec loc
    rw [Recorded.Accounts, hrun, hlog]
    rcases houtcome with (⟨d, hd, -⟩ | ⟨-, hover, hthere⟩) | ⟨hsafe, hbalances⟩
    · rw [hexec] at hd
      cases hd
    · rw [hexec] at hover
      exact Or.inl ⟨hover, fun hwhole => Event.anyFatal_of_not_safe (hthere hwhole)⟩
    · refine Or.inr ⟨hsafe, fun hwhole => ?_⟩
      obtain ⟨hopen, hcount⟩ := (hbalances hwhole).result x q hexec
      refine ⟨hopen, fun d => ?_⟩
      have hd := hcount d
      simp only [hnone, List.count_nil] at hd ⊢
      omega
  | error f =>
    obtain ⟨hrun, hlog⟩ := output_of_error hexec loc
    have hcalm := he.failure f q hexec
    rw [Recorded.Accounts, hrun, hlog]
    cases hfatal : (f.toDiagnostic loc).isFatal with
    | true =>
      refine Or.inl ⟨hcalm.overrun hfatal hfatal, fun _ => ⟨f.toDiagnostic loc, ?_, hfatal⟩⟩
      rw [List.nil_append, Event.diagnostics_append]
      exact List.mem_append_right _ (List.mem_singleton.2 rfl)
    | false =>
      rcases houtcome with (⟨d, hd, hisFatal, -⟩ | ⟨-, hover, -⟩) | ⟨hsafe, hbalances⟩
      · -- it would be fatal
        rw [hexec] at hd
        cases hd
        exact absurd (hfatal.symm.trans hisFatal) Bool.false_ne_true
      · rw [hexec] at hover
        exact absurd (hcalm.isOpen.symm.trans hover.isClosed) Bool.false_ne_true
      · refine Or.inr ⟨Event.safe_append hsafe fun d hd => ?_,
          fun hwhole => ⟨(hcalm.report hfatal).isOpen, fun d => ?_⟩⟩
        · cases List.mem_singleton.1 hd
          exact hfatal
        · rcases (hbalances hwhole).failure f q hexec with h | hcount
          · exact absurd (hfatal.symm.trans (h loc)) Bool.false_ne_true
          · have hd := hcount d
            have hsaid : Event.diagnostics [.said (f.toDiagnostic loc)] = [f.toDiagnostic loc] := rfl
            rw [Output.tally_push hcalm.isOpen, Item.diagnostics_message, Event.diagnostics_append, hsaid,
              List.count_append]
            simp only [hnone, List.count_nil] at hd ⊢
            omega

end Told

end MacroAsm
