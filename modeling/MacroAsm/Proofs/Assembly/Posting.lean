import MacroAsm.Proofs.Assembly.Auditing
import MacroAsm.Proofs.Assembly.Depth
import MacroAsm.Proofs.Assembly.Reachable
import MacroAsm.Proofs.Assembly.Reporting

/-!
# Reporting through the stages of a block

Items on their way through the steps of a stage keep account of diagnostics (`Telling.Posts`), as every step does,
whether it begins blocks or not. A fatal diagnostic ends the stage: what was emitted ahead of it does not, as the
steps that follow carry it. The next stage sees diagnostics first, and so ends with it as well. Where no block is
cut short every diagnostic is passed on from stage to stage (`Telling.reports_block`).
-/

namespace MacroAsm

variable {inMacro : Bool}

open Emission (Direct)

namespace Recorded

variable {α β : Type}

theorem run_bind (x : Recorded α) (k : α → Recorded β) (s : State) :
    (x >>= k).act.run s = (k (x.act.run s).1).act.run (x.act.run s).2 := rfl

theorem log_bind (x : Recorded α) (k : α → Recorded β) (s : State) :
    (x >>= k).log s = x.log s ++ (k (x.act.run s).1).log (x.act.run s).2 := rfl

/-- What is added to a trail keeps account of diagnostics: it ends with a fatal one, or none was produced, and
those that are added are the ones that were produced, now or before. -/
def Reports (whole : Prop) (before : List Diagnostic) (t : Trail) (x : Recorded Trail) (s : State) : Prop :=
  (Stage.Ends Diagnostic.IsFatal (x.act.run s).1 ∧
    (whole → Diagnostic.AnyFatal (before ++ Event.diagnostics (x.log s)))) ∨ Event.Safe (x.log s) ∧ (whole →
    (x.act.run s).1.stopped = false ∧ ∀ d, (Item.diagnostics (x.act.run s).1.items).count d =
      (Item.diagnostics t.items).count d + before.count d + (Event.diagnostics (x.log s)).count d)

/-- A stage after another, which takes what that one gives. -/
theorem Reports.andThen {whole : Prop} {before : List Diagnostic} {x : Recorded Trail}
    {k : Trail → Recorded Trail} {s : State} (hx : x.Reports whole before Trail.empty s)
    (hends : Stage.Ends Diagnostic.IsFatal (x.act.run s).1 →
      Stage.Ends Diagnostic.IsFatal ((k (x.act.run s).1).act.run (x.act.run s).2).1)
    (hk : (k (x.act.run s).1).Reports whole (Item.diagnostics (x.act.run s).1.items) Trail.empty
      (x.act.run s).2) :
    (x >>= k).Reports whole before Trail.empty s := by
  rw [Reports, run_bind, log_bind]
  have hnone : ∀ d, (Item.diagnostics Trail.empty.items).count d = 0 := fun _ => rfl
  rcases hx with ⟨hx, hproduced⟩ | ⟨hsafe, hcount⟩
  · refine Or.inl ⟨hends hx, fun hwhole => (hproduced hwhole).of_count_le fun d => ?_⟩
    simp only [Event.diagnostics_append, List.count_append]
    omega
  · -- what the first stage gives was produced in it, or before
    rcases hk with ⟨hends', hproduced⟩ | ⟨hsafe', hcount'⟩
    · refine Or.inl ⟨hends', fun hwhole => (hproduced hwhole).of_count_le fun d => ?_⟩
      have h1 := (hcount hwhole).2 d
      have h2 := hnone d
      simp only [Event.diagnostics_append, List.count_append]
      omega
    · refine Or.inr ⟨Event.safe_append hsafe hsafe', fun hwhole => ⟨(hcount' hwhole).1, fun d => ?_⟩⟩
      have h1 := (hcount hwhole).2 d
      have h2 := (hcount' hwhole).2 d
      have h3 := hnone d
      rw [Event.diagnostics_append, List.count_append]
      omega

end Recorded

namespace Telling

variable {whole : Prop} {R : State → State → Prop} {K : State → Item → Prop} {reading : Bool}

/-- The diagnostics among items that were produced before. Those that are read are produced now. -/
def produced (reading : Bool) (items : List Item) : List Diagnostic :=
  if reading then [] else Item.diagnostics items

/-- The diagnostics of items are produced one after the other. -/
theorem produced_cons (reading : Bool) (item : Item) (items : List Item) :
    produced reading (item :: items) = produced reading [item] ++ produced reading items := by
  cases reading with
  | true => rfl
  | false => exact Item.diagnostics_cons item items

/-- What a step emits for an item keeps account if its handling does. -/
theorem accounts_handle (reading : Bool) {p : Step} {item : Item} {s : State}
    (h : item.token.isMessage = false → (p item).Settles whole inMacro true (Output.empty inMacro, s)) :
    (handle inMacro reading p item).Accounts whole inMacro (produced reading [item]) s := by
  cases hmessage : item.token.isMessage with
  | false =>
    have hnone : produced reading [item] = [] := by
      rw [produced, Item.diagnostics_of_not_isMessage hmessage, ite_self]
    rw [handle, hmessage, if_neg Bool.false_ne_true, hnone]
    exact (h hmessage).output _
  | true =>
    obtain ⟨token, pending⟩ := item
    cases token with
    | message d =>
      have hrun : ((handle inMacro reading p ⟨.message d, pending⟩).act.run s).1 =
          (Output.empty inMacro).push ⟨.message d, pending⟩ := by cases reading <;> rfl
      have hlog : Event.diagnostics ((handle inMacro reading p ⟨.message d, pending⟩).log s) =
          if reading then [d] else [] := by cases reading <;> rfl
      have hordered : ((Output.empty inMacro).push ⟨.message d, pending⟩).Ordered inMacro Item.IsExpanded :=
        .push .empty rfl
      rw [Recorded.Accounts, hrun]
      cases hfatal : d.isFatal with
      | true =>
        refine Or.inl ⟨hordered.overrun (List.mem_singleton.2 rfl) ⟨d, rfl, hfatal⟩, fun _ => ⟨d, ?_, hfatal⟩⟩
        rw [hlog]
        cases reading <;> exact List.mem_singleton.2 rfl
      | false =>
        refine Or.inr ⟨fun d' hd' => ?_, fun _ => ⟨hfatal, fun d' => ?_⟩⟩
        · rw [hlog] at hd'
          cases reading with
          | true =>
            cases List.mem_singleton.1 hd'
            exact hfatal
          | false => cases hd'
        · rw [hlog]
          cases reading <;> simp [produced, Output.tally, Output.push, Output.empty, Output.items, Item.diagnostics,
            Token.diagnostics, Token.diagnostic?]
    | _ => cases hmessage

/-- A step keeps account of diagnostics, for items of which something is known. -/
structure Step.Accounts (whole : Prop) (inMacro : Bool) (R : State → State → Prop) (K : State → Item → Prop)
    (p : Step) : Prop where
  /-- What is known of an item is known of what is emitted for it. -/
  maps : p.pass.Maps R inMacro K K
  /-- The handling keeps account. -/
  settles : ∀ item s, K s item → item.token.isMessage = false →
    (p item).Settles whole inMacro true (Output.empty inMacro, s)

/-- Items that are taken through the steps of a stage keep account. -/
def Posts (whole : Prop) (R : State → State → Prop) (K : State → Item → Prop) (reading : Bool)
    (f : Item → Trail → Recorded Trail) : Prop :=
  ∀ item t s, K s item → t.stopped = false →
    R s ((f item t).act.run s).2 ∧ (f item t).Reports whole (produced reading [item]) t s

variable {f : Item → Trail → Recorded Trail} {p last : Step} {passes : List Step}

/-- A trail that is stopped takes no more items. -/
theorem feed_of_stopped {t : Trail} (ht : t.stopped = true) (items : List Item) :
    feed f items t = pure t := by
  cases items with
  | nil => rfl
  | cons item rest => rw [feed, if_pos ht]

/-- Items are taken one after the other. -/
theorem Posts.feed (hR : Progress R) (hK : Stable R K) (hf : Posts whole R K reading f) (items : List Item)
    {t : Trail} (ht : t.stopped = false) {s : State} (hitems : ∀ i ∈ items, K s i) :
    R s ((feed f items t).act.run s).2 ∧ (feed f items t).Reports whole (produced reading items) t s := by
  induction items generalizing t s with
  | nil =>
    refine ⟨hR.refl s, Or.inr ⟨Event.safe_nil, fun _ => ⟨ht, fun d => ?_⟩⟩⟩
    rw [produced, Item.diagnostics_nil, ite_self]
    rfl
  | cons item rest ih =>
    rw [List.forall_mem_cons] at hitems
    have hcons : Telling.feed f (item :: rest) t = f item t >>= Telling.feed f rest := by
      rw [Telling.feed, ht, if_neg Bool.false_ne_true]
    obtain ⟨hrel, hreports⟩ := hf item t s hitems.1 ht
    rw [hcons, Recorded.Reports, Recorded.run_bind, Recorded.log_bind]
    rw [Recorded.Reports] at hreports
    generalize (f item t).act.run s = r at hrel hreports ⊢
    obtain ⟨t', s'⟩ := r
    dsimp only at hrel hreports ⊢
    cases ht' : t'.stopped with
    | true =>
      -- what is left is not touched
      rw [feed_of_stopped ht']
      refine ⟨hrel, ?_⟩
      rcases hreports with ⟨hends, hproduced⟩ | ⟨hsafe, hcount⟩
      · refine Or.inl ⟨hends, fun hwhole => (hproduced hwhole).of_count_le fun d => ?_⟩
        rw [produced_cons reading item rest, Event.diagnostics_append]
        simp only [List.count_append]
        omega
      · refine Or.inr ⟨Event.safe_append hsafe Event.safe_nil, fun hwhole => ?_⟩
        exact absurd (ht'.symm.trans (hcount hwhole).1) Bool.noConfusion
    | false =>
      obtain ⟨hrel', hreports'⟩ := ih ht' fun i hi => hK s s' i hrel (hitems.2 i hi)
      refine ⟨hR.trans _ _ _ hrel hrel', ?_⟩
      rw [produced_cons, Event.diagnostics_append]
      rcases hreports with ⟨hends, -⟩ | ⟨hsafe, hcount⟩
      · exact absurd (ht'.symm.trans hends.1) Bool.noConfusion
      · rcases hreports' with ⟨hends, hproduced⟩ | ⟨hsafe', hcount'⟩
        · refine Or.inl ⟨hends, fun hwhole => (hproduced hwhole).of_count_le fun d => ?_⟩
          simp only [List.count_append]
          omega
        · refine Or.inr ⟨Event.safe_append hsafe hsafe', fun hwhole => ⟨(hcount' hwhole).1, fun d => ?_⟩⟩
          have h1 := (hcount hwhole).2 d
          have h2 := (hcount' hwhole).2 d
          rw [List.count_append, List.count_append]
          omega

/-- The last step of a stage. -/
theorem Posts.of_last (reading : Bool) (hlast : last.Accounts whole inMacro R K) :
    Posts whole R K reading (through inMacro reading last []) := by
  intro item t s hitem ht
  have hhandle := accounts_handle reading (hlast.settles item s hitem)
  have hrel := (hlast.maps item s hitem).1
  have hact : (through inMacro reading last [] item t).act.run s =
      (Stage.through inMacro last.pass [] item t).run s :=
    congrArg (·.run s) (act_through inMacro reading last [] item t)
  have hlog : (through inMacro reading last [] item t).log s = (handle inMacro reading last item).log s := by
    change _ ++ ([] ++ []) = _
    simp
  have hsame : (handle inMacro reading last item).act.run s = (last.pass.handle inMacro item).run s :=
    congrArg (·.run s) (act_handle inMacro reading last item)
  rw [Recorded.Accounts, hsame] at hhandle
  rw [Recorded.Reports, hact, hlog]
  rcases hout : (last.pass.handle inMacro item).run s with ⟨out, s'⟩
  rw [hout] at hrel hhandle
  rw [Stage.run_through_last hout]
  refine ⟨hrel, ?_⟩
  rcases hhandle with ⟨hover, hproduced⟩ | ⟨hsafe, hcount⟩
  · refine Or.inl ⟨?_, hproduced⟩
    have hends : Stage.Ends Diagnostic.IsFatal ((Stage.through inMacro last.pass [] item t).run s).1 :=
      Stage.ends_last (by rw [hout]; exact hover) t
    rwa [Stage.run_through_last hout] at hends
  · refine Or.inr ⟨hsafe, fun hwhole => ?_⟩
    obtain ⟨hopen, hd⟩ := hcount hwhole
    refine ⟨by rw [Trail.stopped_add, ht, hopen]; rfl, fun d => ?_⟩
    have h := hd d
    rw [Output.tally] at h
    dsimp only at h
    rw [Trail.items_add, Item.diagnostics_append, List.count_append]
    dsimp only
    omega

/-- An item is taken through a step, and what is emitted for it through the steps that follow. -/
theorem run_through_cons {item : Item} {t t' : Trail} {out : Output} {s s' s'' : State}
    (hout : (p.pass.handle inMacro item).run s = (out, s'))
    (hfeed : (feed (through inMacro false last passes) out.items t).act.run s' = (t', s'')) :
    (through inMacro false last (p :: passes) item t).act.run s =
        ({ t' with stopped := t'.stopped || out.closed }, s'') ∧
      (through inMacro false last (p :: passes) item t).log s =
        (handle inMacro false p item).log s ++ (feed (through inMacro false last passes) out.items t).log s' := by
  have hsame : (handle inMacro false p item).act.run s = (out, s') :=
    (congrArg (·.run s) (act_handle inMacro false p item)).trans hout
  have hthrough : through inMacro false last (p :: passes) item t = (do
      let out ← handle inMacro false p item
      let t ← feed (through inMacro false last passes) out.items t
      return { t with stopped := t.stopped || out.closed } : Recorded Trail) := rfl
  rw [hthrough, Recorded.run_bind, Recorded.log_bind, hsame, Recorded.run_bind, Recorded.log_bind, hfeed]
  exact ⟨rfl, congrArg _ (List.append_nil _)⟩

/-- A step before others. Where its output ends with a fatal diagnostic it is to end the trail. -/
theorem Posts.cons (hR : Progress R) (hK : Stable R K) (hp : p.Accounts whole inMacro R K)
    (hends : ∀ item s t, t.stopped = false →
      ((p.pass.handle inMacro item).run s).1.Overrun Diagnostic.IsFatal inMacro →
      Stage.Ends Diagnostic.IsFatal
        ((Stage.through inMacro last.pass (p.pass :: passes.map Step.pass) item t).run s).1)
    (hrest : Posts whole R K false (through inMacro false last passes)) :
    Posts whole R K false (through inMacro false last (p :: passes)) := by
  intro item t s hitem ht
  have hhandle := accounts_handle false (hp.settles item s hitem)
  obtain ⟨hrel, hitems⟩ := hp.maps item s hitem
  have hend := hends item s t ht
  have hsame : (handle inMacro false p item).act.run s = (p.pass.handle inMacro item).run s :=
    congrArg (·.run s) (act_handle inMacro false p item)
  have hact : (through inMacro false last (p :: passes) item t).act.run s =
      (Stage.through inMacro last.pass (p.pass :: passes.map Step.pass) item t).run s :=
    congrArg (·.run s) (act_through inMacro false last (p :: passes) item t)
  rw [Recorded.Accounts, hsame] at hhandle
  rcases hout : (p.pass.handle inMacro item).run s with ⟨out, s'⟩
  rw [hout] at hrel hitems hhandle hend
  obtain ⟨hrel', hreports⟩ := hrest.feed hR hK out.items ht hitems
  rcases hfeed : (Telling.feed (through inMacro false last passes) out.items t).act.run s' with ⟨t', s''⟩
  obtain ⟨hrun, hlog⟩ := run_through_cons (t := t) hout hfeed
  dsimp only at hhandle hrel hrel' hreports hend
  rw [hfeed] at hrel'
  rw [Recorded.Reports, hfeed] at hreports
  rw [← hact, hrun] at hend
  rw [Recorded.Reports, hrun]
  refine ⟨hR.trans _ _ _ hrel hrel', ?_⟩
  rw [hlog, Event.diagnostics_append]
  rcases hhandle with ⟨hover, hproduced⟩ | ⟨hsafe, hcount⟩
  · refine Or.inl ⟨hend hover, fun hwhole => (hproduced hwhole).of_count_le fun d => ?_⟩
    simp only [List.count_append]
    omega
  · rcases hreports with ⟨⟨hstopped, hlast⟩, hproduced⟩ | ⟨hsafe', hcount'⟩
    · refine Or.inl ⟨⟨by rw [hstopped]; rfl, hlast⟩, fun hwhole => (hproduced hwhole).of_count_le fun d => ?_⟩
      have h1 := (hcount hwhole).2 d
      rw [Output.tally] at h1
      rw [produced, if_neg Bool.false_ne_true]
      simp only [List.count_append]
      omega
    · refine Or.inr ⟨Event.safe_append hsafe hsafe', fun hwhole => ?_⟩
      obtain ⟨hopen, hd⟩ := hcount hwhole
      obtain ⟨hgoes, hd'⟩ := hcount' hwhole
      refine ⟨by rw [hgoes, hopen]; rfl, fun d => ?_⟩
      -- what the step emits was produced when the steps that follow take it
      have h1 := hd d
      have h2 := hd' d
      rw [Output.tally] at h1
      rw [produced, if_neg Bool.false_ne_true] at h2
      dsimp only at h2
      rw [List.count_append]
      change (Item.diagnostics t'.items).count d = _
      omega

end Telling

/-- A property of programs of which no block is cut short: only a diagnostic with it ends a block, and no
diagnostic is in the arms of an assembled IF with it. -/
structure Grammar.Uncut (S : Token → Prop) : Prop where
  /-- What ends a block. -/
  terminal : ∀ t, S t → t.isTerminal true = true → t.isMessage = true
  /-- What takes the place of a decided IF. -/
  decision : ∀ t ts, S t → t.decision? = some ts → ∀ t' ∈ ts, t'.isMessage = false

/-- A token that ends a block of any kind ends a block of a macro. -/
theorem Token.isTerminal_of_isTerminal {t : Token} (h : t.isTerminal inMacro = true) :
    t.isTerminal true = true := by
  cases t with
  | message d => exact h
  | stop loc => rfl
  | exitMacro loc => rfl
  | _ => cases h

namespace Telling

section Steps

variable {whole : Prop} {S : Token → Prop} {gone : Text → Prop} {w : Workbench} {hear : Hearing}

/-- A step that begins no block keeps account. -/
theorem settles_own {p : Pass} {item : Item} (hdirect : Direct inMacro (·.Ordered inMacro Item.IsExpanded) (p item))
    (hmaps : p.Maps (Grammar.uniform S gone).Leads inMacro ((Grammar.uniform S gone).Knows (Grammar.Carries S))
      ((Grammar.uniform S gone).Knows (Grammar.Carries S)))
    (hwhole : whole → Grammar.Uncut S) {s : State}
    (hitem : (Grammar.uniform S gone).Knows (Grammar.Carries S) s item) (hmessage : item.token.isMessage = false) :
    (own p item).Settles whole inMacro true (Output.empty inMacro, s) := by
  refine .ofDirect hdirect fun h q hq i hi hterminal => ?_
  have hmem : i ∈ ((p.handle inMacro item).run s).1.items := by
    rw [Pass.run_handle_of_ok hmessage hq]
    exact List.mem_reverse.2 hi
  exact (hwhole h).terminal _ ((hmaps item s hitem).2 i hmem).2 (Token.isTerminal_of_isTerminal hterminal)

/-- What takes the place of a decided IF was said before. -/
theorem settles_decide (hS : Grammar.Closed S gone) (hwhole : whole → Grammar.Uncut S) {loc : Location}
    {clauses : List Clause} {otherwise : Option (List Token)} {pending : Bool}
    (hitem : S (.cond loc clauses otherwise true)) (s : State) :
    (liftM (Conditional.decide ⟨.cond loc clauses otherwise true, pending⟩ clauses otherwise) :
      Told PUnit).Settles whole inMacro true (Output.empty inMacro, s) := by
  have hempty : (Output.empty inMacro).Calm inMacro := ⟨.empty, rfl⟩
  cases hdecide : Conditional.decide? otherwise clauses with
  | error c =>
    refine .silent hempty ?_ rfl
    rw [Told.act_liftEmission, Conditional.decide, hdecide]
    rfl
  | ok taken =>
    cases taken with
    | none =>
      have hemit : (liftM (Emission.emitItem ⟨.cond loc clauses otherwise true, pending⟩) :
          Told PUnit).Settles whole inMacro true (Output.empty inMacro, s) := .emitItem hempty rfl fun _ => rfl
      refine hemit.congr ?_ rfl
      rw [Told.act_liftEmission, Conditional.decide, hdecide]
      rfl
    | some ts =>
      have hts : (Token.cond loc clauses otherwise true).decision? = some ts := by
        rw [Token.decision?, hdecide]
        rfl
      have hquiet : whole → ∀ t ∈ ts, t.isMessage = false := fun h => (hwhole h).decision _ ts hitem hts
      have hopen : whole → ∀ i ∈ ts.map Item.settled, i.token.isTerminal inMacro = false := by
        intro h i hi
        obtain ⟨t, ht, rfl⟩ := List.mem_map.1 hi
        refine Bool.eq_false_of_not_eq_true fun hterminal => ?_
        have hmessage := (hwhole h).terminal t (hS.decision _ ts hitem hts t ht)
          (Token.isTerminal_of_isTerminal hterminal)
        rw [hquiet h t ht] at hmessage
        cases hmessage
      have hnone : whole → Token.diagnostics ts = [] := by
        intro h
        refine List.eq_nil_iff_forall_not_mem.2 fun d hd => ?_
        have hmessage := hquiet h _ (Token.mem_diagnostics.1 hd)
        cases hmessage
      refine (Told.Accounts.emitItems (ts.map .settled) hempty hopen fun h d => ?_).congr ?_ rfl
      · rw [Item.diagnostics_settled, hnone h]
      · rw [Told.act_liftEmission, Conditional.decide, hdecide]
        rfl

/-- A step of a block keeps account, for items of which the tokens have a property. -/
abbrev Step.Balanced (whole : Prop) (S : Token → Prop) (gone : Text → Prop) (w : Workbench) (p : Step) : Prop :=
  p.Accounts whole w.block.inMacro (Grammar.uniform S gone).Leads
    ((Grammar.uniform S gone).Knows (Grammar.Carries S))

variable (hS : Grammar.Closed S gone) (hwhole : whole → Grammar.Uncut S)
  (hw : w.Accounts whole (Grammar.uniform S gone) hear)

include hS hwhole hw

/-- A step that begins no block. -/
theorem balanced_own {p : Pass} (hpass : p ∈ w.passes) (hplain : p.Plain w.block.inMacro) :
    Step.Balanced whole S gone w (own p) :=
  ⟨hS.maps hw.equips hpass, fun item _ hitem hmessage =>
    settles_own (hplain item) (hS.maps hw.equips hpass) hwhole hitem hmessage⟩

/-- Names are bound, and what can be expanded is. -/
theorem balanced_localize : Step.Balanced whole S gone w (localize hear w) := by
  have hmaps : (Pass.localize w).Maps _ w.block.inMacro _ _ := hS.maps hw.equips (by simp [Workbench.passes])
  refine ⟨by rw [pass_localize]; exact hmaps, fun item s hitem hmessage => ?_⟩
  have hcalm : (Output.empty w.block.inMacro).Calm w.block.inMacro := ⟨.empty, rfl⟩
  have hs : (Grammar.uniform S gone).Sound s.scope := hitem.1
  have hbodies := hS.bodies item.token hitem.2
  -- what begins no block
  have hown := fun hdirect => settles_own hdirect hmaps hwhole hitem hmessage
  obtain ⟨token, pending⟩ := item
  cases token with
  | message d => cases hmessage
  | inclusion loc path loader => exact accounts_inclusion (p := (_, s)) hw rfl hcalm hs loc path loader
  | cond loc clauses otherwise assembled =>
    cases assembled with
    | true => exact settles_decide hS hwhole hitem.2 s
    | false =>
      refine accounts_assemble (p := (_, s)) hw rfl hcalm hs loc (fun c hc => ?_) fun body hbody => ?_
      · exact hbodies c.body (List.mem_append_left _ (List.mem_map_of_mem hc))
      · exact hbodies body (List.mem_append_right _ (Option.mem_toList.2 hbody))
  | dispatch d => exact accounts_call (p := (_, s)) hw hcalm hs false rfl rfl d
  | dup loc counter iteration body =>
    exact accounts_dup (p := (_, s)) hw rfl hcalm hs false rfl rfl loc counter iteration
      (hbodies body List.mem_cons_self)
  | radix loc value => exact hown (.silent (.act _) .empty)
  | declare loc how names =>
    cases how with
    | locally => exact hown (Bind.direct_declareLocals loc names)
    | _ => exact hown (.emitItem _)
  | assign loc how name value => cases how <;> exact hown (.silent (.act _) .empty)
  | label loc name => exact hown (Bind.direct_label loc name)
  | retract loc what names => exact hown (Bind.direct_retract loc what names)
  | macroDef loc name parameters body => exact hown (Bind.direct_defineMacro loc name parameters body)
  | _ => exact hown (.emitItem _)

/-- What is left is expanded. -/
theorem balanced_expandRest : Step.Balanced whole S gone w (expandRest hear w) := by
  have hmaps : (Pass.expandRest w).Maps _ w.block.inMacro _ _ := hS.maps hw.equips (by simp [Workbench.passes])
  refine ⟨by rw [pass_expandRest]; exact hmaps, fun item s hitem hmessage => ?_⟩
  have hcalm : (Output.empty w.block.inMacro).Calm w.block.inMacro := ⟨.empty, rfl⟩
  have hs : (Grammar.uniform S gone).Sound s.scope := hitem.1
  have hbodies := hS.bodies item.token hitem.2
  have hown := fun hdirect => settles_own hdirect hmaps hwhole hitem hmessage
  obtain ⟨token, pending⟩ := item
  cases token with
  | message d => cases hmessage
  | dispatch d => exact accounts_call (p := (_, s)) hw hcalm hs true rfl rfl d
  | dup loc counter iteration body =>
    exact accounts_dup (p := (_, s)) hw rfl hcalm hs true rfl rfl loc counter iteration
      (hbodies body List.mem_cons_self)
  | _ => exact hown (.emitItem _)

end Steps

/-- A fatal diagnostic that a step emits ahead of steps that carry on ends the trail. -/
theorem ends_of_carries {p last : Step} {passes : List Step}
    (hcarries : ∀ q ∈ last.pass :: passes.map Step.pass, q.Carries inMacro) (item : Item) (s : State) (t : Trail)
    (ht : t.stopped = false) (hover : ((p.pass.handle inMacro item).run s).1.Overrun Diagnostic.IsFatal inMacro) :
    Stage.Ends Diagnostic.IsFatal
      ((Stage.through inMacro last.pass (p.pass :: passes.map Step.pass) item t).run s).1 :=
  Stage.ends_through (fun _ hd => hd) hover hcarries ht

/-- A step that emits one item at most ends the trail with it if it is fatal. -/
theorem ends_of_single {p : Pass} (hsingle : p.Single inMacro) {last : Pass} {passes : List Pass} (item : Item)
    (s : State) (t : Trail) (ht : t.stopped = false)
    (hover : ((p.handle inMacro item).run s).1.Overrun Diagnostic.IsFatal inMacro) :
    Stage.Ends Diagnostic.IsFatal ((Stage.through inMacro last (p :: passes) item t).run s).1 := by
  have hlength : ((p.handle inMacro item).run s).1.items.length ≤ 1 := by
    cases hmessage : item.token.isMessage with
    | true =>
      rw [Pass.run_handle_message hmessage]
      exact le_rfl
    | false =>
      have hshape := (hsingle item).shape s
      rcases hexec : (p item).exec (Output.empty inMacro, s) with ⟨r, q⟩
      rw [hexec] at hshape
      cases r with
      | ok x =>
        rw [Pass.run_handle_of_ok hmessage hexec]
        rcases hshape with hnone | ⟨i, hone⟩
        · rw [hnone]
          exact Nat.zero_le _
        · rw [hone]
          exact le_rfl
      | error f =>
        have hnone : q.1 = Output.empty inMacro := (hsingle item).prompt _ f q hexec
        rw [Pass.run_handle_of_error hmessage hexec, hnone]
        exact le_rfl
  rw [Stage.through, StateM.run_bind, StateM.run_bind]
  generalize (p.handle inMacro item).run s = out at hover hlength
  obtain ⟨before, i, hitems, hi, -⟩ := hover.items
  have hbefore : before = [] := by
    rw [hitems, List.length_append, List.length_singleton] at hlength
    exact List.length_eq_zero_iff.1 (by omega)
  subst hbefore
  have hends : Stage.Ends Diagnostic.IsFatal
      ((Stage.feed (Stage.through inMacro last passes) ([] ++ [i]) t).run out.2).1 :=
    Stage.ends_feed (fun _ h => absurd h List.not_mem_nil) (fun _ hd => hd) hi [] ht out.2
  rw [hitems]
  exact ⟨by rw [hends.1]; rfl, hends.2⟩

section Stages

variable {whole : Prop} {S : Token → Prop} {gone : Text → Prop} {w : Workbench} {hear : Hearing}
  (hS : Grammar.Closed S gone) (hwhole : whole → Grammar.Uncut S)
  (hw : w.Accounts whole (Grammar.uniform S gone) hear)

/-- Diagnostics that come first are the same. -/
theorem diagnostics_messagesFirst (items : List Item) :
    Item.diagnostics (Stage.messagesFirst items) = Item.diagnostics items := by
  rw [Stage.messagesFirst, Item.diagnostics_append]
  induction items with
  | nil => rfl
  | cons item rest ih =>
    cases hmessage : item.token.isMessage with
    | true =>
      rw [List.filter_cons, List.filter_cons, hmessage, Bool.not_true, if_pos rfl, if_neg Bool.false_ne_true,
        Item.diagnostics_cons, Item.diagnostics_cons item rest, List.append_assoc, ih]
    | false =>
      rw [List.filter_cons, List.filter_cons, hmessage, Bool.not_false, if_neg Bool.false_ne_true, if_pos rfl,
        Item.diagnostics_cons, Item.diagnostics_cons item rest,
        Item.diagnostics_of_not_isMessage hmessage, List.nil_append, List.nil_append, ih]

include hS hwhole hw

/-- The first stage of a block, in which its diagnostics are read. -/
theorem reports_declareStage {source : List Token} (hsource : ∀ t ∈ source, S t) {s : State}
    (hs : (Grammar.uniform S gone).Sound s.scope) :
    (declareStage w source).Reports whole [] Trail.empty s := by
  have hR := ((Grammar.uniform S gone).invariant fun _ => True).toProgress
  refine (Posts.feed hR ((Grammar.uniform S gone).stable_knows _)
    (.of_last true (balanced_own hS hwhole hw ?_ ?_)) _ rfl fun i hi => ?_).2
  · simp [Workbench.passes]
  · exact Pass.plain_declareGlobals
  · obtain ⟨t, ht, rfl⟩ := List.mem_map.1 hi
    exact ⟨hs, hsource t ht⟩

/-- The second stage of a block. -/
theorem reports_bindStage {items : List Item} {s : State}
    (hitems : ∀ i ∈ items, (Grammar.uniform S gone).Knows (Grammar.Carries S) s i) :
    (bindStage hear w items).Reports whole (Item.diagnostics items) Trail.empty s := by
  have hR := ((Grammar.uniform S gone).invariant fun _ => True).toProgress
  have hK := (Grammar.uniform S gone).stable_knows (Grammar.Carries S)
  have hfirst : Step.Balanced whole S gone w (own (.reduceFirst w)) :=
    balanced_own hS hwhole hw (by simp [Workbench.passes]) Pass.single_reduceFirst.plain
  have hposts := Posts.cons hR hK hfirst (ends_of_single Pass.single_reduceFirst)
    (.of_last false (balanced_localize hS hwhole hw))
  have hreports := (hposts.feed hR hK (Stage.messagesFirst items) (t := Trail.empty) rfl (s := s)
    fun i hi => hitems i (Stage.mem_messagesFirst.1 hi)).2
  rwa [produced, if_neg Bool.false_ne_true, diagnostics_messagesFirst] at hreports

/-- The third stage of a block. -/
theorem reports_finishStage {items : List Item} {s : State}
    (hitems : ∀ i ∈ items, (Grammar.uniform S gone).Knows (Grammar.Carries S) s i) :
    (finishStage hear w items).Reports whole (Item.diagnostics items) Trail.empty s := by
  have hR := ((Grammar.uniform S gone).invariant fun _ => True).toProgress
  have hK := (Grammar.uniform S gone).stable_knows (Grammar.Carries S)
  have hown : ∀ p ∈ w.passes, p.Plain w.block.inMacro → Step.Balanced whole S gone w (own p) :=
    fun p => balanced_own hS hwhole hw
  -- what the steps after one pass on
  have hcomplete : (Step.pass (own (.ofToken (Finish.complete w)))).Carries w.block.inMacro := Pass.carries_complete w
  have hencode : (Step.pass (own (.ofToken (Finish.encode w)))).Carries w.block.inMacro := Pass.carries_encode w
  have hrelax : (Step.pass (own (.ofToken Finish.relax))).Carries w.block.inMacro := Pass.carries_relax
  have hexpand : (Step.pass (expandRest hear w)).Carries w.block.inMacro := by
    rw [pass_expandRest]
    exact Pass.carries_expandRest w
  -- the steps, from the last one on
  have hlast := Posts.of_last false
    (hown (.ofToken (Finish.complete w)) (by simp [Workbench.passes]) Pass.plain_complete)
  have hencoded := Posts.cons hR hK
    (hown (.ofToken (Finish.encode w)) (by simp [Workbench.passes]) Pass.plain_encode)
    (ends_of_carries (by simpa using hcomplete)) hlast
  have hrelaxed := Posts.cons hR hK
    (hown (.ofToken Finish.relax) (by simp [Workbench.passes]) Pass.single_relax.plain)
    (ends_of_single Pass.single_relax) hencoded
  have hexpanded := Posts.cons hR hK (balanced_expandRest hS hwhole hw)
    (ends_of_carries (by simpa using ⟨hcomplete, hrelax, hencode⟩)) hrelaxed
  have hlocalized := Posts.cons hR hK (balanced_localize hS hwhole hw)
    (ends_of_carries (by simpa using ⟨hcomplete, hexpand, hrelax, hencode⟩)) hexpanded
  have hreduced := Posts.cons hR hK
    (hown (.reduceAgain w) (by simp [Workbench.passes]) Pass.single_reduceAgain.plain)
    (ends_of_single Pass.single_reduceAgain) hlocalized
  have hreports := (hreduced.feed hR hK (Stage.messagesFirst items) (t := Trail.empty) rfl (s := s)
    fun i hi => hitems i (Stage.mem_messagesFirst.1 hi)).2
  rwa [produced, if_neg Bool.false_ne_true, diagnostics_messagesFirst] at hreports

omit hS hwhole hw in
/-- A fatal diagnostic at the end of a stage ends the next one, which sees diagnostics first. -/
theorem ends_next {t : Trail} (hends : Stage.Ends Diagnostic.IsFatal t) (hordered : t.Ordered inMacro)
    {passes : List Pass} {last : Pass} (s : State) :
    Stage.Ends Diagnostic.IsFatal ((Stage.run inMacro passes last (Stage.messagesFirst t.items)).run s).1 := by
  obtain ⟨-, before, i, hitems, hi⟩ := hends
  have hbefore := hordered.before
  rw [hitems, List.dropLast_concat] at hbefore
  rw [hitems]
  exact Workbench.ends_messagesFirst (fun _ hd => hd) hi hbefore s

/-- The last two stages of a block. -/
theorem reports_bound {items : List Item} {s : State}
    (hitems : ∀ i ∈ items, (Grammar.uniform S gone).Knows (Grammar.Carries S) s i) :
    (do
      let bound ← bindStage hear w items
      finishStage hear w bound.items : Recorded Trail).Reports whole (Item.diagnostics items) Trail.empty s := by
  refine (reports_bindStage hS hwhole hw hitems).andThen ?_ ?_
  · rw [act_bindStage, act_finishStage]
    exact fun hends => ends_next hends (w.ordered_bindStage hw.finishes items s) _
  · rw [act_bindStage]
    exact reports_finishStage hS hwhole hw (hS.knows_bindStage hw.equips hitems)

/-- Assembling a block. -/
theorem reports_block {source : List Token} (hsource : ∀ t ∈ source, S t) {s : State}
    (hs : (Grammar.uniform S gone).Sound s.scope) :
    (block hear w source).Reports whole [] Trail.empty s := by
  have hact : (declareStage w source).act = w.declareStage source := by
    rw [declareStage, act_stage]
    rfl
  refine (reports_declareStage hS hwhole hw hsource hs).andThen ?_ ?_
  · -- both stages that follow end with it
    rw [hact]
    intro hends
    have hbound : Stage.Ends Diagnostic.IsFatal
        ((w.bindStage ((w.declareStage source).run s).1.items).run ((w.declareStage source).run s).2).1 :=
      ends_next hends (w.ordered_declareStage source s) _
    rw [Recorded.run_bind, act_bindStage, act_finishStage]
    exact ends_next hbound (w.ordered_bindStage hw.finishes _ _) _
  · rw [hact]
    exact reports_bound hS hwhole hw (hS.knows_declareStage hw.equips hsource hs)

end Stages

end Telling

end MacroAsm
