import MacroAsm.Proofs.Assembly.Limit
import MacroAsm.Proofs.Eval.Termination

/-!
# Nesting ends

Whatever would assemble the blocks beyond the limit of nesting makes no difference, as none is ever begun: a
program is assembled in the same way whichever runner stands there, or else its output ends with the diagnostic
of the limit (`Assembler.until_assemble`). That diagnostic is on its way from a nested block to the end of the
program through every block around. Nothing that was emitted before it ends a stage ahead of it, since the steps
that follow pass it on (`Pass.Carries`).

Blocks that nest by their depth in the program (`Assembler.Nests`) are a recursion that ends at the limit, and
values of names are one that ends as no name is followed twice. Both determine what they compute, and a program
is assembled by them. Its output is delivered in finitely many steps (`Assembler.assemble_ends`).
-/

namespace MacroAsm

variable {inMacro : Bool}

namespace Stage

variable {a : Assembler} {p p' last last' : Pass} {passes passes' : List Pass}

/-- A trail that ends with a diagnostic with a property. -/
def Ends (D : Diagnostic → Prop) (t : Trail) : Prop :=
  t.stopped = true ∧ ∃ before i, t.items = before ++ [i] ∧ i.Says D

/-- Two ways to handle an item do the same, unless the first one meets the limit. -/
def Until (a : Assembler) (f f' : Item → Trail → StateM State Trail) : Prop :=
  ∀ item t s, t.stopped = false → (f' item t).run s = (f item t).run s ∨
    Ends a.IsLimit ((f item t).run s).1

/-- The items of a list are handled one after the other. -/
theorem Until.feed {f f' : Item → Trail → StateM State Trail} (h : Until a f f') (items : List Item)
    (t : Trail) (s : State) :
    (feed f' items t).run s = (feed f items t).run s ∨ Ends a.IsLimit ((feed f items t).run s).1 := by
  induction items generalizing t s with
  | nil => exact Or.inl rfl
  | cons item rest ih =>
    cases hstopped : t.stopped with
    | true =>
      refine Or.inl ?_
      rw [run_feed_of_stopped hstopped, run_feed_of_stopped hstopped]
    | false =>
      rcases hf : (f item t).run s with ⟨t', s'⟩
      rw [run_feed_cons hstopped hf]
      rcases h item t s hstopped with heq | hends
      · rw [run_feed_cons hstopped (heq.trans hf)]
        exact ih t' s'
      · rw [hf] at hends
        rw [run_feed_of_stopped hends.1]
        exact Or.inr hends

/-- The last step ends a trail with the diagnostic with which its output ends. -/
theorem ends_last {D : Diagnostic → Prop} {item : Item} {s : State}
    (h : ((last.handle inMacro item).run s).1.Overrun D inMacro) (t : Trail) :
    Ends D ((through inMacro last [] item t).run s).1 := by
  rcases hout : (last.handle inMacro item).run s with ⟨out, s'⟩
  rw [hout] at h
  rw [run_through_last hout]
  obtain ⟨before, i, hitems, hd, -⟩ := h.items
  refine ⟨?_, t.items ++ before, i, ?_, hd⟩
  · rw [Trail.stopped_add, h.isClosed, Bool.or_true]
  · rw [Trail.items_add, hitems, List.append_assoc]

/-- The last step. -/
theorem until_last (h : last.Until a inMacro last') :
    Until a (through inMacro last []) (through inMacro last' []) := by
  intro item t s _
  rcases h item s with heq | hover
  · refine Or.inl ?_
    rcases hout : (last.handle inMacro item).run s with ⟨out, s'⟩
    rw [run_through_last hout, run_through_last (heq.trans hout)]
  · exact Or.inr (ends_last hover t)

/-- The same step before others. -/
theorem until_same (h : Until a (through inMacro last passes) (through inMacro last' passes')) :
    Until a (through inMacro last (p :: passes)) (through inMacro last' (p :: passes')) := by
  intro item t s _
  rw [through, through, StateM.run_bind, StateM.run_bind, StateM.run_bind, StateM.run_bind]
  generalize (p.handle inMacro item).run s = out
  rcases h.feed out.1.items t out.2 with heq | ⟨hstopped, hlast⟩
  · exact Or.inl (by rw [heq])
  · exact Or.inr ⟨by rw [hstopped]; rfl, hlast⟩

end Stage

/-- A step passes on what is neither terminal nor to be expanded as such. -/
def Pass.Carries (inMacro : Bool) (p : Pass) : Prop :=
  ∀ item s, item.IsExpanded → item.token.isTerminal inMacro = false →
    ((p.handle inMacro item).run s).1.Calm inMacro

namespace Stage

variable {a : Assembler} {D : Diagnostic → Prop} {p p' last last' : Pass} {passes passes' : List Pass}

/-- What is neither terminal nor to be expanded does not stop a stage. -/
theorem stopped_feed {f : Item → Trail → StateM State Trail} {items : List Item}
    (hf : ∀ item ∈ items, ∀ t s, t.stopped = false → ((f item t).run s).1.stopped = false) {t : Trail}
    (ht : t.stopped = false) (s : State) : ((feed f items t).run s).1.stopped = false := by
  induction items generalizing t s with
  | nil => exact ht
  | cons item rest ih =>
    rw [List.forall_mem_cons] at hf
    rw [run_feed_cons ht rfl]
    exact ih hf.2 (hf.1 t s ht) _

/-- What is neither terminal nor to be expanded goes through steps that carry it. -/
theorem stopped_through (hcarries : ∀ q ∈ last :: passes, q.Carries inMacro) {item : Item}
    (hitem : item.IsExpanded) (hterminal : item.token.isTerminal inMacro = false) {t : Trail}
    (ht : t.stopped = false) (s : State) :
    ((through inMacro last passes item t).run s).1.stopped = false := by
  induction passes generalizing item t s with
  | nil =>
    have hcalm := hcarries last List.mem_cons_self item s hitem hterminal
    rcases hout : (last.handle inMacro item).run s with ⟨out, s'⟩
    rw [hout] at hcalm
    rw [run_through_last hout, Trail.stopped_add, ht]
    exact hcalm.isOpen
  | cons p passes ih =>
    have hcalm := hcarries p (List.mem_cons_of_mem _ List.mem_cons_self) item s hitem hterminal
    have hrest : ∀ q ∈ last :: passes, q.Carries inMacro := fun q hq => hcarries q (by
      rcases List.mem_cons.1 hq with rfl | hq
      · exact List.mem_cons_self
      · exact List.mem_cons_of_mem _ (List.mem_cons_of_mem _ hq))
    rw [through, StateM.run_bind, StateM.run_bind]
    generalize (p.handle inMacro item).run s = out at hcalm
    have hfeed : ((feed (through inMacro last passes) out.1.items t).run out.2).1.stopped = false := by
      refine stopped_feed (fun i hi t s ht => ?_) ht out.2
      exact ih hrest (hcalm.ordered.holds i (List.mem_reverse.1 hi))
        (hcalm.ordered.isOpen hcalm.isOpen i (List.mem_reverse.1 hi)) ht s
    exact Bool.or_eq_false_iff.2 ⟨hfeed, hcalm.isOpen⟩

/-- Items before a fatal diagnostic do not end a stage ahead of it. -/
theorem ends_feed {passes : List Pass} {before : List Item}
    (hbefore : ∀ item ∈ before, ∀ t s, t.stopped = false →
      ((through inMacro last passes item t).run s).1.stopped = false) (hD : ∀ d, D d → d.isFatal = true)
    {i : Item} (hi : i.Says D) (rest : List Item) {t : Trail} (ht : t.stopped = false)
    (s : State) : Ends D ((feed (through inMacro last passes) (before ++ i :: rest) t).run s).1 := by
  induction before generalizing t s with
  | nil =>
    obtain ⟨d, hmessage, hd⟩ := hi
    have hstopped : (t.add ⟨[i], i.token.isTerminal inMacro, s⟩).stopped = true := by
      rw [Trail.stopped_add, hmessage]
      exact Bool.or_eq_true_iff.2 (Or.inr (hD d hd))
    have hthrough : (through inMacro last passes i t).run s =
      (t.add ⟨[i], i.token.isTerminal inMacro, s⟩, s) := run_through_message ht (by rw [hmessage]; rfl)
    rw [List.nil_append, run_feed_cons ht hthrough, run_feed_of_stopped hstopped]
    exact ⟨hstopped, t.items, i, Trail.items_add _ _, d, hmessage, hd⟩
  | cons item before ih =>
    rw [List.forall_mem_cons] at hbefore
    rw [List.cons_append, run_feed_cons ht rfl]
    exact ih hbefore.2 (hbefore.1 t s ht) _

/-- A step whose output ends with a fatal diagnostic ends a trail with it, if the steps that follow carry what
was emitted ahead of it. -/
theorem ends_through (hD : ∀ d, D d → d.isFatal = true) {item : Item} {s : State}
    (h : ((p.handle inMacro item).run s).1.Overrun D inMacro)
    (hcarries : ∀ q ∈ last :: passes, q.Carries inMacro) {t : Trail} (ht : t.stopped = false) :
    Ends D ((through inMacro last (p :: passes) item t).run s).1 := by
  rw [through, StateM.run_bind, StateM.run_bind]
  generalize (p.handle inMacro item).run s = out at h
  obtain ⟨before, i, hitems, hd, hbefore⟩ := h.items
  have hcarried : ∀ i ∈ before, ∀ (t : Trail) s, t.stopped = false →
      ((through inMacro last passes i t).run s).1.stopped = false :=
    fun i hi t s ht => stopped_through hcarries (hbefore i hi).1 (hbefore i hi).2 ht s
  obtain ⟨hstopped, hlast⟩ := ends_feed hcarried hD hd [] ht out.2
  rw [hitems]
  exact ⟨by rw [hstopped]; rfl, hlast⟩

/-- A step that may meet the limit, before steps that carry what was emitted ahead of it. -/
theorem until_step (h : p.Until a inMacro p') (hcarries : ∀ q ∈ last :: passes, q.Carries inMacro)
    (hrest : Until a (through inMacro last passes) (through inMacro last' passes')) :
    Until a (through inMacro last (p :: passes)) (through inMacro last' (p' :: passes')) := by
  intro item t s ht
  rcases h item s with heq | hover
  · have hsame := until_same (p := p) hrest item t s ht
    rw [through, StateM.run_bind, heq]
    rwa [through, StateM.run_bind] at hsame
  · exact Or.inr (ends_through (fun _ hd => hd.isFatal) hover hcarries ht)

end Stage

namespace Encode

/-- An encoded data statement ends nothing. -/
theorem isTerminal_of_data {kind : DataKind} {values : List Expr} {ts : List Token}
    (h : data kind values = .ok ts) : ∀ t ∈ ts, t.isTerminal inMacro = false := by
  intro t ht
  rcases data_cases h ht with ⟨_, _, rfl⟩ | ⟨_, _, rfl⟩ | ⟨_, _, rfl, -⟩ <;> rfl

/-- An element that cannot be encoded is not fatal. -/
theorem mild_elementBytes (kind : DataKind) (e : Expr) : Mild (elementBytes kind e) := by
  cases kind with
  | ascii | asciz => exact e.mild_asText.bind fun t => .ok _
  | bytes | words => exact e.mild_asNumber.bind fun n => .ok _

/-- Data fails with the cause of an element that cannot be encoded. -/
theorem exists_of_data_eq_error {kind : DataKind} {values : List Expr} {d : Diagnostic}
    (h : data kind values = .error d) : ∃ e c, elementBytes kind e = .error c ∧ d = .ofCause c e.loc := by
  have hpieces : ∀ {waiting values : List Expr}, dataPieces kind waiting values = .error d →
      ∃ e c, elementBytes kind e = .error c ∧ d = .ofCause c e.loc := by
    intro waiting values
    induction values generalizing waiting with
    | nil => exact fun h => by cases h
    | cons e rest ih =>
      intro h
      rw [dataPieces] at h
      split at h
      · split at h
        · rename_i c hc
          cases h
          exact ⟨e, c, hc, rfl⟩
        · cases hrest : dataPieces kind [] rest with
          | error d' =>
            rw [hrest] at h
            cases h
            exact ih hrest
          | ok ps =>
            rw [hrest] at h
            cases h
      · exact ih h
  cases hps : dataPieces kind [] values with
  | error d' =>
    rw [data, hps] at h
    cases h
    exact hpieces hps
  | ok ps =>
    rw [data, hps] at h
    cases h

/-- A data statement that cannot be encoded is not fatal. -/
theorem isFatal_of_data {kind : DataKind} {values : List Expr} {d : Diagnostic}
    (h : data kind values = .error d) : d.isFatal = false := by
  obtain ⟨e, c, hc, rfl⟩ := exists_of_data_eq_error h
  rw [Diagnostic.isFatal, Diagnostic.ofCause, mild_elementBytes kind e c hc]
  rfl

end Encode

namespace Finish

/-- A text that cannot be shown is not fatal. -/
theorem mild_displayText (text : List Expr) : Mild (displayText text) := by
  induction text with
  | nil => exact .ok _
  | cons e rest ih => exact e.mild_asText.bind fun t => ih.bind fun ts => .ok _

end Finish

namespace Output

variable {o : Output}

/-- An item that is neither terminal nor to be expanded leaves an output as calm as it was. -/
theorem Calm.push (ho : o.Calm inMacro) {i : Item} (hi : i.IsExpanded)
    (hterminal : i.token.isTerminal inMacro = false) : (o.push i).Calm inMacro := by
  have hitem : ∀ j ∈ [i], j.IsExpanded ∧ j.token.isTerminal inMacro = false :=
    List.forall_mem_singleton.2 ⟨hi, hterminal⟩
  exact ho.pushAll hitem

theorem Calm.report (ho : o.Calm inMacro) {d : Diagnostic} (hd : d.isFatal = false) :
    (o.push (.message d)).Calm inMacro :=
  ho.push rfl hd

end Output

namespace Emission

variable {α β : Type}

/-- A handling keeps an output calm, and does not end the run if it fails. -/
def Calms (inMacro : Bool) (e : Emission α) : Prop :=
  ∀ p : Output × State, p.1.Calm inMacro → (e.exec p).2.1.Calm inMacro ∧
    ∀ f, (e.exec p).1 = .error f → ∀ loc, (f.toDiagnostic loc).isFatal = false

theorem Calms.emitItem {i : Item} (hi : i.IsExpanded) (hterminal : i.token.isTerminal inMacro = false) :
    Calms inMacro (Emission.emitItem i) := fun _ hp => ⟨hp.push hi hterminal, fun _ h => by cases h⟩

/-- Tokens that are neither terminal nor to be expanded are emitted. -/
theorem Calms.emitAll {ts : List Token}
    (h : ∀ t ∈ ts, t.isExpanded = true ∧ t.isTerminal inMacro = false) :
    Calms inMacro (Emission.emitAll ts) := by
  refine fun p hp => ⟨hp.pushAll fun i hi => ?_, fun _ h => by cases h⟩
  obtain ⟨t, ht, rfl⟩ := List.mem_map.1 hi
  exact h t ht

/-- A failure that is not fatal. -/
theorem Calms.report {d : Diagnostic} (hd : d.isFatal = false) :
    Calms inMacro (Emission.report d : Emission α) := by
  refine fun p hp => ⟨hp, fun f hf loc => ?_⟩
  cases hf
  exact hd

/-- A handling that goes on with the result of a computation that does not end the run. -/
theorem Calms.require {x : Except Cause α} (hx : Mild x) {k : α → Emission β}
    (hk : ∀ a, Calms inMacro (k a)) : Calms inMacro (Emission.require x >>= k) := by
  cases x with
  | ok a => exact hk a
  | error c =>
    refine fun p hp => ⟨hp, fun f hf loc => ?_⟩
    cases hf
    rw [Failure.toDiagnostic, Diagnostic.isFatal, Diagnostic.ofCause, hx c rfl]
    rfl

theorem Calms.modifyThe {change : State → State} {e : Emission PUnit} (he : Calms inMacro e) :
    Calms inMacro (do MonadStateOf.modifyGet fun s => ((), change s); e) :=
  fun p hp => he (p.1, change p.2) hp

end Emission

namespace Pass

open Emission (Calms)

variable {p : Pass}

/-- A step carries what its handling keeps calm. -/
theorem carries_of_calms (h : ∀ item : Item, item.IsExpanded → item.token.isTerminal inMacro = false →
    Calms inMacro (p item)) : p.Carries inMacro := by
  intro item s hitem hterminal
  have hempty : (Output.empty inMacro).Calm inMacro := ⟨.empty, rfl⟩
  cases hmessage : item.token.isMessage with
  | true =>
    rw [run_handle_message hmessage]
    exact hempty.push hitem hterminal
  | false =>
    obtain ⟨hcalm, hfails⟩ := h item hitem hterminal (Output.empty inMacro, s) hempty
    rcases hexec : (p item).exec (Output.empty inMacro, s) with ⟨r, q⟩
    rw [hexec] at hcalm hfails
    cases r with
    | ok _ =>
      rw [run_handle_of_ok hmessage hexec]
      exact hcalm
    | error f =>
      rw [run_handle_of_error hmessage hexec]
      exact hcalm.report (hfails f rfl _)

/-- What is not expanded is passed on by the step that expands. -/
theorem carries_expandRest (w : Workbench) : (expandRest w).Carries inMacro := by
  refine carries_of_calms fun item hitem hterminal => ?_
  obtain ⟨token, pending⟩ := item
  cases token with
  | dispatch d => cases hitem
  | dup => cases hitem
  | _ => exact .emitItem hitem hterminal

/-- What is no instruction is passed on by the step that relaxes jumps. -/
theorem carries_relax : (ofToken Finish.relax).Carries inMacro := by
  refine carries_of_calms fun item hitem hterminal => ?_
  obtain ⟨token, pending⟩ := item
  cases token with
  | dispatch d => cases hitem
  | _ => exact .modifyThe (.emitItem hitem hterminal)

/-- What is no instruction is passed on by the step that encodes them. -/
theorem carries_encode (w : Workbench) : (ofToken (Finish.encode w)).Carries inMacro := by
  refine carries_of_calms fun item hitem hterminal => ?_
  obtain ⟨token, pending⟩ := item
  cases token with
  | dispatch d => cases hitem
  | _ => exact .emitItem hitem hterminal

/-- The last step ends nothing that has not ended. -/
theorem carries_complete (w : Workbench) :
    (ofToken (Finish.complete w)).Carries w.block.inMacro := by
  refine carries_of_calms fun item hitem hterminal => ?_
  obtain ⟨token, pending⟩ := item
  cases token with
  | data loc kind values =>
    rw [ofToken, Finish.complete]
    cases hr : Encode.data kind values with
    | error d => exact .report (Encode.isFatal_of_data hr)
    | ok ts =>
      exact .emitAll fun t ht => ⟨Token.isExpanded_of_isOutput (Encode.isEncoded_of_data hr t ht).1,
        Encode.isTerminal_of_data hr t ht⟩
  | display loc kind text =>
    rw [ofToken, Finish.complete]
    split
    · exact .require (Finish.mild_displayText text) fun shown =>
        .emitItem rfl (by cases kind <;> rfl)
    · exact .emitItem hitem hterminal
  | exitMacro loc =>
    have hout : w.block.inMacro = false := hterminal
    rw [ofToken, Finish.complete, hout, if_neg Bool.false_ne_true]
    exact .report rfl
  | _ => exact .emitItem hitem hterminal

end Pass

namespace Workbench

variable {w : Workbench} {other : Option Runner}

/-- The second stage of a block. -/
theorem until_bindStage (hw : w.Until other) (items : List Item) (s : State) :
    (Workbench.bindStage { w with runner := other } items).run s = (w.bindStage items).run s ∨
      Stage.Ends w.assembler.IsLimit ((w.bindStage items).run s).1 := by
  have hstage : Stage.Until w.assembler
      (Stage.through w.block.inMacro (.localize w) [.reduceFirst w])
      (Stage.through w.block.inMacro (.localize { w with runner := other }) [.reduceFirst w]) :=
    Stage.until_same (Stage.until_last (Pass.until_localize hw))
  exact hstage.feed _ Trail.empty s

/-- The third stage of a block. -/
theorem until_finishStage (hw : w.Until other) (items : List Item) (s : State) :
    (Workbench.finishStage { w with runner := other } items).run s = (w.finishStage items).run s ∨
      Stage.Ends w.assembler.IsLimit ((w.finishStage items).run s).1 := by
  have hcarries : ∀ q ∈ [Pass.ofToken (Finish.complete w), .expandRest w, .ofToken Finish.relax,
      .ofToken (Finish.encode w)], q.Carries w.block.inMacro := by
    refine List.forall_mem_cons.2 ⟨Pass.carries_complete w, List.forall_mem_cons.2
      ⟨Pass.carries_expandRest w, List.forall_mem_cons.2 ⟨Pass.carries_relax, ?_⟩⟩⟩
    exact List.forall_mem_singleton.2 (Pass.carries_encode w)
  have hrest : Stage.Until w.assembler
      (Stage.through w.block.inMacro (.ofToken (Finish.complete w))
        [.expandRest w, .ofToken Finish.relax, .ofToken (Finish.encode w)])
      (Stage.through w.block.inMacro (.ofToken (Finish.complete w))
        [.expandRest { w with runner := other }, .ofToken Finish.relax, .ofToken (Finish.encode w)]) :=
    Stage.until_step (Pass.until_expandRest hw)
      (fun q hq => hcarries q (by
        rcases List.mem_cons.1 hq with rfl | hq
        · exact List.mem_cons_self
        · exact List.mem_cons_of_mem _ (List.mem_cons_of_mem _ hq)))
      fun _ _ _ _ => Or.inl rfl
  exact (Stage.until_same (Stage.until_step (Pass.until_localize hw) hcarries hrest)).feed _ Trail.empty s

/-- What is left to a stage ends with a fatal diagnostic, and so does what that gives. -/
theorem ends_messagesFirst {D : Diagnostic → Prop} {inMacro : Bool} {passes : List Pass} {last : Pass}
    {before : List Item} {i : Item} (hD : ∀ d, D d → d.isFatal = true) (hi : i.Says D)
    (hbefore : ∀ i ∈ before, i.token.isTerminal inMacro = false) (s : State) :
    Stage.Ends D ((Stage.run inMacro passes last (Stage.messagesFirst (before ++ [i]))).run s).1 := by
  have hmessage : i.token.isMessage = true := by
    obtain ⟨d, hd, -⟩ := hi
    rw [hd]
    rfl
  have hfirst : Stage.messagesFirst (before ++ [i]) =
      before.filter (fun i => i.token.isMessage) ++ i :: before.filter fun i => !i.token.isMessage := by
    simp [Stage.messagesFirst, hmessage]
  rw [hfirst, Stage.run]
  refine Stage.ends_feed (fun i hi t s ht => ?_) hD hi _ rfl s
  obtain ⟨hmem, hmessage⟩ := List.mem_filter.1 hi
  rw [Stage.run_through_message ht hmessage, Trail.stopped_add, ht]
  exact hbefore i hmem

/-- The workbench with another runner. -/
def withRunner (w : Workbench) (run : Runner) : Workbench := { w with runner := some run }

/-- A block begins another one in a state: it matters to it what is given for that one. What is given may be anything,
a fatal diagnostic too, so that it matters wherever a block is assembled on the way. -/
def Begins (w : Workbench) (source : List Token) (s : State) (b : Block) (body : List Token) (t : State) : Prop :=
  ∃ run run', w.runner = some run ∧
    (∀ b' body' t', (b', body', t') ≠ (b, body, t) → (run' b' body').run t' = (run b' body').run t') ∧
    ((w.withRunner run').run source).run s ≠ (w.run source).run s

/-- A block attempts an expansion where there is no runner: it would matter to it if there was one. -/
def Attempts (w : Workbench) (source : List Token) (s : State) : Prop :=
  ∃ run, ((w.withRunner run).run source).run s ≠ (w.run source).run s

/-- Assembling a block. -/
theorem until_run (hw : w.Until other) (source : List Token) (s : State) :
    (Workbench.run { w with runner := other } source).run s = (w.run source).run s ∨
      Stage.Ends w.assembler.IsLimit ((w.run source).run s).1 := by
  rw [run, run, StateM.run_bind, StateM.run_bind, StateM.run_bind, StateM.run_bind]
  have hdeclare : (Workbench.declareStage { w with runner := other } source).run s =
      (w.declareStage source).run s := rfl
  rw [hdeclare]
  generalize (w.declareStage source).run s = declared
  have hordered := ordered_bindStage hw.finishes declared.1.items declared.2
  rcases until_bindStage hw declared.1.items declared.2 with heq | ⟨-, before, i, hitems, hd⟩
  · rw [heq]
    exact until_finishStage hw _ _
  · refine Or.inr ?_
    have hbefore := hordered.before
    rw [hitems, List.dropLast_concat] at hbefore
    rw [hitems]
    exact ends_messagesFirst (fun _ hd => hd.isFatal) hd hbefore _

end Workbench

namespace Assembler

/-- Assembles nested blocks up to some depth, and by `bottom` beyond it. -/
def runnerOver (a : Assembler) (bottom : Option Runner) : Nat → Option Runner
  | 0 => bottom
  | depth + 1 => some fun b source => shield (Workbench.run ⟨a, b, a.runnerOver bottom depth⟩ source)

/-- A nested block that meets the limit hands its diagnostic to the block around. -/
theorem overruns_shield {w : Workbench} {body : List Token} {s : State}
    (h : Stage.Ends w.assembler.IsLimit ((w.run body).run { s with bankSwitched := false }).1) :
    ∃ before d, ((shield (w.run body)).run s).1 = before ++ [.message d] ∧ w.assembler.IsLimit d ∧
      ∀ t ∈ before, t.isTerminal w.block.inMacro = false := by
  have hordered := w.ordered_run body { s with bankSwitched := false }
  rcases hr : (w.run body).run { s with bankSwitched := false } with ⟨t, s'⟩
  rw [hr] at h hordered
  obtain ⟨-, before, i, hitems, d, hmessage, hd⟩ := h
  rw [run_shield hr]
  refine ⟨before.map Item.token, d, ?_, hd, fun t ht => ?_⟩
  · rw [Trail.tokens, hitems, List.map_append, List.map_singleton, hmessage]
  · obtain ⟨i, hi, rfl⟩ := List.mem_map.1 ht
    refine hordered.before i ?_
    rwa [hitems, List.dropLast_concat]

/-- Whatever is beyond the limit, nested blocks are assembled in the same way unless they meet it. -/
theorem until_runner (a : Assembler) (bottom : Option Runner) (depth : Nat) (b : Block) :
    Workbench.Until ⟨a, b, a.runner depth⟩ (a.runnerOver bottom depth) := by
  induction depth generalizing b with
  | zero => exact ⟨nofun, nofun⟩
  | succ depth ih =>
    refine ⟨a.finishes_runner (depth + 1), fun run hrun => ⟨_, rfl, ?_⟩⟩
    rw [runner_succ, Option.some.injEq] at hrun
    subst hrun
    intro b body s
    have huntil := Workbench.until_run (ih b) body { s with bankSwitched := false }
    rcases hr : (Workbench.run ⟨a, b, a.runner depth⟩ body).run { s with bankSwitched := false } with ⟨t, s'⟩
    rcases huntil with heq | hends
    · exact Or.inl ((run_shield (heq.trans hr)).trans (run_shield hr).symm)
    · exact Or.inr (overruns_shield hends)

/-- Assembles a program over a root scope, given how nested blocks are. -/
def assembleOver (a : Assembler) (nested : Option Runner) (scope : Scope) (source : List Token) :
    Assembly :=
  let start := Assembler.start scope
  let (trail, s) := (Workbench.run ⟨a, a.outermost, nested⟩ source).run start
  let (closing, final) :=
    if trail.tokens.any Token.isFatal then ([], s) else (account false).run s
  ⟨start, trail.batches, closing, final⟩

/-- A program is assembled with nested blocks up to the limit. -/
theorem assemble_eq_assembleOver (a : Assembler) (scope : Scope) (source : List Token) :
    a.assemble scope source = a.assembleOver (a.runner a.maxDepth) scope source := by
  rewrite [assemble, assembleOver]
  rcases (Workbench.run ⟨a, a.outermost, a.runner a.maxDepth⟩ source).run (Assembler.start scope) with
    ⟨trail, s⟩
  rfl

/-- The output of a program ends with the diagnostic of the limit if its block meets it. -/
theorem tokens_of_ends {a : Assembler} {scope : Scope} {source : List Token}
    (h : Stage.Ends a.IsLimit
      ((Workbench.run ⟨a, a.outermost, a.runner a.maxDepth⟩ source).run (start scope)).1) :
    ∃ before d, (a.assemble scope source).tokens = before ++ [.message d] ∧ a.IsLimit d := by
  rcases hr : (Workbench.run ⟨a, a.outermost, a.runner a.maxDepth⟩ source).run (start scope) with ⟨trail, s⟩
  rw [hr] at h
  obtain ⟨-, before, i, hitems, d, hmessage, hd⟩ := h
  have htokens : trail.tokens = before.map Item.token ++ [.message d] := by
    rw [Trail.tokens, hitems, List.map_append, List.map_singleton, hmessage]
  have hfatal : trail.tokens.any Token.isFatal = true := by
    rw [htokens, List.any_append, List.any_cons, Token.isFatal, hd.isFatal, Bool.true_or, Bool.or_true]
  refine ⟨before.map Item.token, d, ?_, hd⟩
  rw [tokens_assemble hr, if_pos hfatal, List.append_nil, htokens]

/-- Whatever is beyond the limit, a program is assembled in the same way unless its output ends with the
limit. -/
theorem until_assemble (a : Assembler) (bottom : Option Runner) (scope : Scope) (source : List Token) :
    a.assembleOver (a.runnerOver bottom a.maxDepth) scope source = a.assemble scope source ∨
      ∃ before d, (a.assemble scope source).tokens = before ++ [.message d] ∧ a.IsLimit d := by
  rcases Workbench.until_run (a.until_runner bottom a.maxDepth a.outermost) source (start scope) with
    heq | hends
  · left
    rw [assemble_eq_assembleOver, assembleOver, assembleOver, heq]
  · exact Or.inr (tokens_of_ends hends)

/-- A run of a program assembles the statements of a block from a state on, and blocks may be nested to some depth
in it. -/
inductive Reaches (a : Assembler) (scope : Scope) (source : List Token) :
    Nat → Block → List Token → State → Prop where
  /-- The block of the program. -/
  | program : Reaches a scope source a.maxDepth a.outermost source (start scope)
  /-- A block that one of them begins. -/
  | nested {depth : Nat} {b b' : Block} {body body' : List Token} {s s' : State}
    (around : Reaches a scope source (depth + 1) b body s)
    (begins : Workbench.Begins ⟨a, b, a.runner (depth + 1)⟩ body s b' body' s') :
    Reaches a scope source depth b' body' { s' with bankSwitched := false }

/-- A block that meets the limit ends the output of the program, however deep it is nested. -/
theorem Reaches.tokens_of_ends {a : Assembler} {scope : Scope} {source : List Token} {depth : Nat} {b : Block}
    {body : List Token} {s : State} (h : a.Reaches scope source depth b body s)
    (hends : Stage.Ends a.IsLimit ((Workbench.run ⟨a, b, a.runner depth⟩ body).run s).1) :
    ∃ before d, (a.assemble scope source).tokens = before ++ [.message d] ∧ a.IsLimit d := by
  induction h with
  | program => exact Assembler.tokens_of_ends hends
  | @nested depth b b' body body' s s' _ begins ih =>
    refine ih ?_
    obtain ⟨run, run', hrun, hothers, hdiffers⟩ := begins
    rw [runner_succ, Option.some.injEq] at hrun
    subst hrun
    -- the block around is assembled as with the other runner, or meets the limit where that one differs
    have huntil : Workbench.Until ⟨a, b, a.runner (depth + 1)⟩ (some run') := by
      refine ⟨a.finishes_runner (depth + 1), fun run hrun => ⟨run', rfl, fun b₁ body₁ s₁ => ?_⟩⟩
      rw [runner_succ, Option.some.injEq] at hrun
      subst hrun
      by_cases hsame : (b₁, body₁, s₁) = (b', body', s')
      · cases hsame
        exact Or.inr (overruns_shield hends)
      · exact Or.inl (hothers b₁ body₁ s₁ hsame)
    exact (Workbench.until_run huntil body s).resolve_left hdiffers

/-- A block at the limit that attempts an expansion ends the output of the program with the diagnostic of the
limit. -/
theorem Reaches.tokens_of_attempts {a : Assembler} {scope : Scope} {source : List Token} {b : Block}
    {body : List Token} {s : State} (h : a.Reaches scope source 0 b body s)
    (hattempts : Workbench.Attempts ⟨a, b, none⟩ body s) :
    ∃ before loc, (a.assemble scope source).tokens = before ++ [.message (.fatal loc
      ("Maximum nesting depth of " ++ Text.ofNat a.maxDepth ++ " exceeded"))] := by
  obtain ⟨run, hdiffers⟩ := hattempts
  have huntil : Workbench.Until ⟨a, b, none⟩ (some run) := ⟨nofun, nofun⟩
  obtain ⟨before, d, htokens, loc, rfl⟩ := h.tokens_of_ends ((Workbench.until_run huntil body s).resolve_left hdiffers)
  exact ⟨before, loc, htokens⟩

/-- The runner of the blocks that are nested in one at some depth, unless that is the limit. -/
def nesting (a : Assembler) (f : Nat → Runner) (depth : Nat) : Option Runner :=
  if depth < a.maxDepth then some (f (depth + 1)) else none

/-- The recursion by which blocks nest: a block is assembled with those that are one deeper. -/
def Nests (a : Assembler) (f : Nat → Runner) : Prop :=
  ∀ depth b source, f depth b source = shield (Workbench.run ⟨a, b, a.nesting f depth⟩ source)

/-- Blocks that nest by the recursion nest as often as the limit leaves. -/
theorem Nests.nesting_eq {a : Assembler} {f : Nat → Runner} (hf : a.Nests f) (depth : Nat) :
    a.nesting f depth = a.runner (a.maxDepth - depth) := by
  obtain ⟨left, hleft⟩ : ∃ left, a.maxDepth - depth = left := ⟨_, rfl⟩
  induction left generalizing depth with
  | zero => rw [nesting, if_neg (by omega), hleft, runner]
  | succ left ih =>
    have hdeeper := ih (depth + 1) (by omega)
    have hrunner : f (depth + 1) = fun b source =>
        shield (Workbench.run ⟨a, b, a.runner left⟩ source) := by
      funext b source
      rw [hf, hdeeper, show a.maxDepth - (depth + 1) = left by omega]
    rw [nesting, if_pos (by omega), hleft, runner_succ, hrunner]

/-- The recursion determines how blocks are assembled. -/
theorem existsUnique_nests (a : Assembler) : ∃! f, a.Nests f := by
  refine ⟨fun depth b source => shield (Workbench.run ⟨a, b, a.runner (a.maxDepth - depth)⟩ source), ?_, ?_⟩
  · intro depth b source
    have hnesting : a.nesting (fun depth b source =>
        shield (Workbench.run ⟨a, b, a.runner (a.maxDepth - depth)⟩ source)) depth =
          a.runner (a.maxDepth - depth) := by
      rw [nesting]
      split
      · rename_i hlt
        rw [show a.maxDepth - depth = a.maxDepth - (depth + 1) + 1 by omega, runner_succ]
      · rename_i hge
        rw [show a.maxDepth - depth = 0 by omega, runner]
    rw [hnesting]
  · intro f hf
    funext depth b source
    rw [hf, hf.nesting_eq]

/-- A program is assembled by the recursion, beginning at depth zero. -/
theorem Nests.assemble_eq {a : Assembler} {f : Nat → Runner} (hf : a.Nests f) (scope : Scope)
    (source : List Token) :
    a.assemble scope source = a.assembleOver (a.nesting f 0) scope source := by
  rw [hf.nesting_eq, Nat.sub_zero, assemble_eq_assembleOver]

end Assembler

namespace Assembly

/-- Batches of which none but the last is closed are delivered whole, if there are fewer tokens in them than
are asked for. -/
theorem deliverFrom_eq {n : Nat} {bs : List Batch} (hclosed : ∀ b ∈ bs.dropLast, b.closed = false)
    (delivered : Nat) (s : State) (hn : delivered + (bs.flatMap Batch.tokens).length < n) :
    deliverFrom n bs delivered s = (bs.flatMap Batch.tokens, none) := by
  induction bs generalizing delivered s with
  | nil =>
    rw [List.flatMap_nil, List.length_nil] at hn
    rw [deliverFrom, if_neg (by omega)]
    rfl
  | cons b rest ih =>
    rw [List.flatMap_cons, List.length_append] at hn
    rw [deliverFrom, if_neg (by omega), List.flatMap_cons]
    have hlength : b.tokens.length = b.items.length := List.length_map ..
    cases rest with
    | nil =>
      split
      · rw [List.flatMap_nil, List.append_nil]
      · rw [ih (fun _ h => absurd h List.not_mem_nil) _ _ (by simp at hn ⊢; omega)]
    | cons c rest =>
      rw [List.dropLast_cons_cons, List.forall_mem_cons] at hclosed
      rw [hclosed.1, if_neg Bool.false_ne_true, ih hclosed.2 _ _ (by omega)]

end Assembly

namespace Assembler

/-- The output of a program comes in batches of which none but the last is closed. -/
theorem closed_batches (a : Assembler) (scope : Scope) (source : List Token) :
    ∀ b ∈ (a.assemble scope source).batches.dropLast, b.closed = false := by
  have hordered := Workbench.ordered_run ⟨a, a.outermost, a.runner a.maxDepth⟩ source (start scope)
  rcases hrun : (Workbench.run ⟨a, a.outermost, a.runner a.maxDepth⟩ source).run (start scope) with ⟨trail, s⟩
  rw [hrun] at hordered
  rw [assemble, hrun]
  dsimp only
  rw [Trail.batches, List.dropLast_reverse]
  exact fun b hb => hordered.batches b (List.mem_reverse.1 hb)

/-- The whole output of a program is delivered once more tokens are asked for than there are. -/
theorem interrupt_assemble (a : Assembler) (scope : Scope) (source : List Token) {n : Nat}
    (hn : (a.assemble scope source).tokens.length < n) :
    (a.assemble scope source).interrupt n = (a.assemble scope source).deliver := by
  rw [Assembly.tokens, List.length_append] at hn
  rw [Assembly.interrupt, Assembly.deliverFrom_eq (a.closed_batches scope source) 0 _ (by omega)]
  rfl

/-- Assembling a program ends. Names are resolved by a recursion that determines what it computes, although it
goes round in the values of names, and blocks are nested by a recursion that determines what it computes, as it
begins no block beyond the limit. Whatever would assemble a block there makes no difference, unless the output
ends with the diagnostic of the limit, and it does where a block at the limit attempts an expansion. The output is
delivered whole in finitely many steps. -/
theorem assemble_ends (a : Assembler) (scope : Scope) (source : List Token) :
    (∀ u, ∃! ρ, Eval.Resolves u ρ) ∧
    (∀ u ρ, Eval.Resolves u ρ → ∀ e guard,
      Eval.flattenGuarded u e guard = Eval.flattenWith u (ρ guard) e true ∧
      Eval.nameOnly u e = Eval.flattenWith u (ρ []) e false) ∧
    (∃! f, a.Nests f) ∧
    (∀ f, a.Nests f → a.assemble scope source = a.assembleOver (a.nesting f 0) scope source) ∧
    (∀ bottom, a.assembleOver (a.runnerOver bottom a.maxDepth) scope source = a.assemble scope source ∨
      ∃ before loc, (a.assemble scope source).tokens = before ++ [.message (.fatal loc
        ("Maximum nesting depth of " ++ Text.ofNat a.maxDepth ++ " exceeded"))]) ∧
    (∀ b body s, a.Reaches scope source 0 b body s → Workbench.Attempts ⟨a, b, none⟩ body s →
      ∃ before loc, (a.assemble scope source).tokens = before ++ [.message (.fatal loc
        ("Maximum nesting depth of " ++ Text.ofNat a.maxDepth ++ " exceeded"))]) ∧
    ∀ n, (a.assemble scope source).tokens.length < n →
      (a.assemble scope source).interrupt n = (a.assemble scope source).deliver := by
  refine ⟨Eval.existsUnique_resolves, fun u ρ hρ e guard => ?_, a.existsUnique_nests, fun f hf => ?_,
    fun bottom => ?_, fun b body s h hattempts => h.tokens_of_attempts hattempts,
    fun n => a.interrupt_assemble scope source⟩
  · exact ⟨hρ.flattenGuarded_eq e guard, hρ.nameOnly_eq e⟩
  · exact hf.assemble_eq scope source
  · rcases a.until_assemble bottom scope source with heq | ⟨before, d, htokens, loc, rfl⟩
    · exact Or.inl heq
    · exact Or.inr ⟨before, loc, htokens⟩

/-- A macro that calls itself is expanded up to the limit. -/
example :
    let call : Token := .dispatch ⟨Location.none, .identifier Location.none "M", []⟩
    (Assembler.assemble (.bare 3) Scope.initial
      [.macroDef Location.none (.identifier Location.none "M") [] [call], call]).tokens.map Token.isFatal =
        [true] := by
  decide +kernel

end Assembler

end MacroAsm
