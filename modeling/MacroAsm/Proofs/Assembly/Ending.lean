import MacroAsm.Proofs.Assembly.Course
import MacroAsm.Proofs.Assembly.DataLoop

/-!
# Ending a block with a loop in it

The third stage of a block of definitions and data in which there is a DUP over data. If the second stage could
expand the DUP, what its turns wrote comes to the third stage like the data of the block: what waits is evaluated
again (`Entry.advances_finish_inert`). If the count was not known in time, the DUP itself comes to the third
stage (`Entry.advances_bind_late`), and what its turns write is not evaluated any more
(`Entry.advances_finish_late`). Either way `Entry.Finishes` tells what is written in the end.
-/

namespace MacroAsm

namespace Entry

open Eval (Leaves)

/-- What the third stage writes for data, for what data is encoded to and for diagnostics. -/
inductive Finishes (u : Surroundings) (radix : Nat) (b : Text → Binding) : Item → List Token → Prop where
  /-- Data. -/
  | data {item : Item} {ts : List Token} (h : Completes u radix b item ts) : Finishes u radix b item ts
  /-- Anything else stays what it is, and is no failure. -/
  | kept {t : Token} {pending : Bool} (hinert : t.isInert = true) (hdata : t.isData = false)
    (hfails : t.fails = false) : Finishes u radix b ⟨t, pending⟩ [t]

section Finishes

variable {u : Surroundings} {radix : Nat} {b : Text → Binding}

/-- Where something is written in the end there was no failure. -/
theorem Finishes.not_fails {item : Item} {ts : List Token} (h : Finishes u radix b item ts) :
    item.token.fails = false := by
  cases h with
  | data h => cases h <;> rfl
  | kept _ _ hfails => exact hfails

/-- Data is completed. -/
theorem Finishes.completes {item : Item} {ts : List Token} (h : Finishes u radix b item ts)
    (hitem : item.token.isData = true) : Completes u radix b item ts := by
  cases h with
  | data h => exact h
  | kept _ hdata _ =>
    rw [hdata] at hitem
    cases hitem

/-- What is neither data nor a diagnostic stays what it is. -/
theorem Finishes.eq_singleton {t : Token} {pending : Bool} {ts : List Token} (h : Finishes u radix b ⟨t, pending⟩ ts)
    (ht : t.isData = false) : ts = [t] := by
  cases h with
  | data h => cases h <;> cases ht
  | kept => rfl

/-- Diagnostics make no difference to the products. -/
theorem Finishes.products {items : List Item} {tss : List (List Token)}
    (h : List.Forall₂ (Finishes u radix b) items tss) :
    ∃ tss', List.Forall₂ (Finishes u radix b) (items.filter fun i => !i.token.isMessage) tss' ∧
      Token.products tss.flatten = Token.products tss'.flatten := by
  induction h with
  | nil => exact ⟨[], .nil, rfl⟩
  | @cons item ts items tss hfirst _ ih =>
    obtain ⟨tss', hrest, hproducts⟩ := ih
    cases hmessage : item.token.isMessage with
    | false =>
      refine ⟨ts :: tss', ?_, ?_⟩
      · rw [List.filter_cons_of_pos (by rw [hmessage]; rfl)]
        exact .cons hfirst hrest
      · rw [List.flatten_cons, List.flatten_cons, Token.products_append, Token.products_append, hproducts]
    | true =>
      refine ⟨tss', ?_, ?_⟩
      · rwa [List.filter_cons_of_neg (by rw [hmessage]; exact Bool.not_eq_true _ ▸ rfl)]
      · obtain ⟨token, pending⟩ := item
        obtain rfl : ts = [token] := hfirst.eq_singleton (by cases token <;> first | rfl | cases hmessage)
        rw [List.flatten_cons, Token.products_append, hproducts, Token.products_eq_nil]
        · rfl
        · exact List.forall_mem_singleton.2 hmessage

end Finishes

section Stages

variable {w : Workbench} {s : State} {t : Trail} {b : Text → Binding}

/-- What the steps after expansion make of an item. -/
def finishRest (w : Workbench) : Item → Trail → StateM State Trail :=
  Stage.through w.block.inMacro (.ofToken (Finish.complete w))
    [.expandRest w, .ofToken Finish.relax, .ofToken (Finish.encode w)]

/-- What data is encoded to goes through the steps after expansion as it is. -/
theorem run_finishRest_bytes (w : Workbench) (ht : t.stopped = false) (loc : Location) (written : List UInt8)
    (pending : Bool) (s : State) :
    (finishRest w ⟨.bytes loc written, pending⟩ t).run s =
      (t.add ⟨[.settled (.bytes loc written)], false, { s with bankSwitched := false }⟩,
        { s with bankSwitched := false }) := by
  have hrelax : ((Pass.ofToken Finish.relax).handle w.block.inMacro ⟨.bytes loc written, pending⟩).run s =
      ((Output.empty w.block.inMacro).push (.settled (.bytes loc written)), { s with bankSwitched := false }) :=
    Pass.run_handle_of_ok rfl rfl
  have hencode : ((Pass.ofToken (Finish.encode w)).handle w.block.inMacro (.settled (.bytes loc written))).run
      { s with bankSwitched := false } =
      ((Output.empty w.block.inMacro).push (.settled (.bytes loc written)), { s with bankSwitched := false }) :=
    Pass.run_handle_of_ok rfl rfl
  have hcomplete : ((Pass.ofToken (Finish.complete w)).handle w.block.inMacro (.settled (.bytes loc written))).run
      { s with bankSwitched := false } =
      ((Output.empty w.block.inMacro).push (.settled (.bytes loc written)), { s with bankSwitched := false }) :=
    Pass.run_handle_of_ok rfl rfl
  have hexpand : ((Pass.expandRest w).handle w.block.inMacro ⟨.bytes loc written, pending⟩).run s =
      ((Output.empty w.block.inMacro).push ⟨.bytes loc written, pending⟩, s) := Pass.run_handle_of_ok rfl rfl
  rw [finishRest, Stage.run_through_step ht hexpand rfl, Stage.run_through_step ht hrelax rfl,
    Stage.run_through_step ht hencode rfl, Stage.run_through_last hcomplete]
  rfl

/-- A diagnostic goes through steps as it is. -/
theorem advances_message (ht : t.stopped = false) {d : Diagnostic} {pending inMacro : Bool} {last : Pass}
    {passes : List Pass} {P : List Item → State → Prop}
    (hP : d.fails = false → P [⟨.message d, pending⟩] s) :
    Advances t P ((Stage.through inMacro last passes ⟨.message d, pending⟩ t).run s) := by
  rw [Stage.run_through_message ht rfl]
  cases hd : d.fails with
  | true =>
    refine Or.inl ⟨⟨.message d, pending⟩, ?_, hd⟩
    rw [Trail.items_add]
    exact List.mem_append_right _ (List.mem_singleton.2 rfl)
  | false =>
    have hterminal : (Token.message d).isTerminal inMacro = false := (Bool.or_eq_false_iff.1 hd).1
    rw [hterminal]
    exact .of_add ht (hP hd)

/-- The steps after expansion finish data, what it is encoded to and diagnostics. Nothing is evaluated again. -/
theorem advances_finishRest (w : Workbench) (radix : Nat) (ht : t.stopped = false) {item : Item}
    (hitem : item.token.isInert = true) (hs : s.scope.binding = b) :
    Advances t (fun added s' => s'.scope.binding = b ∧
        Finishes w.around radix b (.settled item.token) (added.map Item.token))
      ((finishRest w item t).run s) := by
  obtain ⟨token, pending⟩ := item
  cases token with
  | data loc kind vs =>
    have hexpand : ((Pass.expandRest w).handle w.block.inMacro ⟨.data loc kind vs, pending⟩).run s =
        ((Output.empty w.block.inMacro).push ⟨.data loc kind vs, pending⟩, s) := Pass.run_handle_of_ok rfl rfl
    have hrelax : ((Pass.ofToken Finish.relax).handle w.block.inMacro ⟨.data loc kind vs, pending⟩).run s =
        ((Output.empty w.block.inMacro).push (.settled (.data loc kind vs)), { s with bankSwitched := false }) :=
      Pass.run_handle_of_ok rfl rfl
    have hencode : ((Pass.ofToken (Finish.encode w)).handle w.block.inMacro (.settled (.data loc kind vs))).run
        { s with bankSwitched := false } =
        ((Output.empty w.block.inMacro).push (.settled (.data loc kind vs)), { s with bankSwitched := false }) :=
      Pass.run_handle_of_ok rfl rfl
    rw [finishRest, Stage.run_through_step ht hexpand rfl, Stage.run_through_step ht hrelax rfl,
      Stage.run_through_step ht hencode rfl]
    refine advances_complete ht loc kind vs false fun ts hts => ⟨hs, ?_⟩
    rw [Item.map_token_settled]
    exact .data (.settled hts)
  | bytes loc written =>
    rw [run_finishRest_bytes w ht]
    exact .of_add ht ⟨hs, .kept rfl rfl rfl⟩
  | message d => exact advances_message ht fun hd => ⟨hs, .kept rfl rfl hd⟩
  | _ => cases hitem

/-- The third stage completes data, and names stand for the same after it. -/
theorem advances_finish_data (w : Workbench) (ht : t.stopped = false) {item : Item}
    (hitem : item.token.isData = true) (hs : s.scope.binding = b) :
    Advances t (fun added s' => s'.scope.binding = b ∧
        Completes w.around (b Scope.radixName).radix b item (added.map Item.token))
      ((finishOne w item t).run s) := by
  obtain ⟨token, pending⟩ := item
  cases token with
  | data loc kind vs =>
    refine (advances_finish w ht loc kind vs pending s).imp_right ?_
    rintro ⟨added, hadded, hstopped, hbinding, ts, rfl, hcompletes⟩
    refine ⟨_, hadded, hstopped, hbinding.trans hs, ?_⟩
    rw [Scope.radix_eq, hs] at hcompletes
    rwa [Item.map_token_settled]
  | _ => cases hitem

/-- The third stage finishes data, what it is encoded to and diagnostics. -/
theorem advances_finish_inert (w : Workbench) (ht : t.stopped = false) {item : Item}
    (hitem : item.token.isInert = true) (hs : s.scope.binding = b) :
    Advances t (fun added s' => s'.scope.binding = b ∧
        Finishes w.around (b Scope.radixName).radix b item (added.map Item.token))
      ((finishOne w item t).run s) := by
  obtain ⟨token, pending⟩ := item
  cases token with
  | data loc kind vs =>
    refine (advances_finish_data w ht rfl hs).imp_right ?_
    rintro ⟨added, hadded, hstopped, hbinding, hcompletes⟩
    exact ⟨added, hadded, hstopped, hbinding, .data hcompletes⟩
  | bytes loc written =>
    have hagain : ∃ pending', ((Pass.reduceAgain w).handle w.block.inMacro ⟨.bytes loc written, pending⟩).run s =
        ((Output.empty w.block.inMacro).push ⟨.bytes loc written, pending'⟩, s) := by
      cases pending with
      | false => exact ⟨false, Pass.run_handle_of_ok rfl rfl⟩
      | true =>
        have hreduce : (Token.reduce w.around (.bytes loc written)).exec s = (.ok (.bytes loc written), s) := by
          rw [Token.reduce]
          · rfl
          all_goals exact fun _ => nofun
        exact ⟨false, Pass.run_handle_of_ok rfl (Pass.exec_reduceAgain_of_ok rfl hreduce)⟩
    obtain ⟨pending', hagain⟩ := hagain
    have hlocalize : ((Pass.localize w).handle w.block.inMacro ⟨.bytes loc written, pending'⟩).run s =
        ((Output.empty w.block.inMacro).push ⟨.bytes loc written, pending'⟩, s) := Pass.run_handle_of_ok rfl rfl
    rw [finishOne, Stage.run_through_step ht hagain rfl, Stage.run_through_step ht hlocalize rfl, ← finishRest,
      run_finishRest_bytes w ht]
    exact .of_add ht ⟨hs, .kept rfl rfl rfl⟩
  | message d => exact advances_message ht fun hd => ⟨hs, .kept rfl rfl hd⟩
  | _ => cases hitem

end Stages

section Loop

variable {w : Workbench} {s : State} {t : Trail} {b : Text → Binding} {body : List Token} {P : List Item → Prop}

/-- A step that emits data, what it is encoded to and diagnostics emits a failure or all of it. -/
theorem run_handle_of_replays (inMacro : Bool) {pass : Pass} {item : Item}
    (hitem : item.token.isMessage = false) (h : Replay.ReplaysFrom s (pass item) P) :
    ∃ out s', (pass.handle inMacro item).run s = (out, s') ∧ s'.scope.binding = s.scope.binding ∧
      (∀ i ∈ out.items, i.token.isInert = true) ∧
      ((∃ i ∈ out.items, i.token.fails = true) ∨ out.closed = false ∧ P out.items) := by
  obtain ⟨items, s', hexec, hbinding, hinert, hP⟩ := h (Output.empty inMacro) rfl
  have hstart : Emission.Collects Pass.Inert (Output.empty inMacro, s) := fun i hi => absurd hi List.not_mem_nil
  refine ⟨_, s', Pass.run_handle_of_ok hitem hexec, hbinding,
    fun i hi => hstart.pushAll hinert i (List.mem_reverse.1 hi), ?_⟩
  by_cases hfails : ∃ i ∈ items, i.token.fails = true
  · exact Or.inl (Output.fails_pushAll rfl hinert hfails)
  · have hterminal : ∀ i ∈ items, i.token.isTerminal inMacro = false := by
      intro i hi
      refine Token.isTerminal_of_isInert (hinert i hi) ?_ inMacro
      by_contra hi'
      exact hfails ⟨i, hi, by simpa using hi'⟩
    obtain ⟨hitems, hopen⟩ := Output.items_pushAll (o := Output.empty inMacro) rfl hterminal
    refine Or.inr ⟨hopen, ?_⟩
    rw [hitems]
    exact hP.resolve_left hfails

/-- The second stage expands a statement over data in which there is nothing to evaluate. -/
theorem advances_bind_direct (ht : t.stopped = false) {d : Token} (hd : w.IsPassed d) {s1 : State}
    (hreduce : (Token.reduce w.around d).exec s = (.ok d, s1)) (hs : s1.scope = s.scope)
    (hexpand : ∀ pending, Replay.ReplaysFrom s1 (Pass.localize w ⟨d, pending⟩) P) :
    Advances t (fun items s' => s'.scope.binding = s.scope.binding ∧ (∀ i ∈ items, i.token.isInert = true) ∧ P items)
      ((bindOne w (.settled d) t).run s) := by
  rw [bindOne, Stage.run_through_step ht (Pass.run_handle_of_ok hd.2.1 (Pass.exec_reduceFirst_of_ok hreduce))
    (hd.2.2 _)]
  have hmessage : ∀ pending, (Item.mk d pending).token.isMessage = false := fun _ => hd.2.1
  obtain ⟨out, s', hrun, hbinding, hinert, hout⟩ := run_handle_of_replays w.block.inMacro (hmessage _) (hexpand _)
  rw [hs] at hbinding
  rw [Stage.run_through_last hrun]
  rcases hout with ⟨i, hi, hfails⟩ | ⟨hopen, hP⟩
  · refine Or.inl ⟨i, ?_, hfails⟩
    rw [Trail.items_add]
    exact List.mem_append_right _ hi
  · rw [hopen]
    exact .of_add ht ⟨hbinding, hinert, hP⟩

/-- Evaluating a DUP that only counts makes the run fail if it fails. -/
theorem isLoud_reduce_count (u : Surroundings) (loc : Location) (n : Expr) (body : List Token) :
    (Token.reduce u (.dup loc none (.count n) body)).IsLoud := by
  have hreduce : Token.reduce u (.dup loc none (.count n) body) = (do
      let i ← (do return .count (← Eval.evaluate u true n))
      return .dup loc none i body) := by
    rw [Token.reduce]
    rfl
  rw [hreduce]
  exact ((Eval.isLoud_evaluate u true n).bind fun v => .pure _).bind fun i => .pure _

/-- What evaluating a DUP that only counts leaves of it. -/
theorem leaves_of_reduce_count {u : Surroundings} {loc : Location} {n : Expr} {token : Token} {s' : State}
    (h : (Token.reduce u (.dup loc none (.count n) body)).exec s = (.ok token, s')) :
    ∃ v, token = .dup loc none (.count v) body ∧ Leaves u s.scope.radix s.scope.binding n true v ∧
      s'.scope.binding = s.scope.binding ∧ (s'.deferred ≤ s.deferred → v.isResolved = true) := by
  have hreduce : Token.reduce u (.dup loc none (.count n) body) = (do
      let i ← (do return .count (← Eval.evaluate u true n))
      return .dup loc none i body) := by
    rw [Token.reduce]
    rfl
  rw [hreduce] at h
  obtain ⟨i, s1, hcount, hrest⟩ := Act.exists_of_exec_bind h
  obtain ⟨v, s2, hvalue, hpure⟩ := Act.exists_of_exec_bind hcount
  cases hpure
  cases hrest
  obtain ⟨hleaves, hbinding, -, hresolved⟩ := Eval.leaves_of_evaluate hvalue
  exact ⟨v, rfl, hleaves, hbinding, hresolved⟩

/-- A name that stands for nothing is left. -/
theorem eq_of_leaves_unset {u : Surroundings} {radix : Nat} {loc : Location} {name : Text} {v : Expr}
    (hname : (b name).isSet = false) (h : Leaves u radix b (.identifier loc name) true v) :
    v = .identifier loc name := by
  obtain ⟨n, hn⟩ := h
  rw [Eval.outcome, Eval.spell, if_pos rfl] at hn
  cases n <;> rw [Eval.follow, Eval.lookup_of_unset hname] at hn <;> exact (Option.some.inj hn).symm

/-- Of a name that stands for a number, a number is left. -/
theorem exists_of_leaves_number {u : Surroundings} {radix : Nat} {loc l : Location} {name via : Text} {c : Int64}
    {v : Expr} (hname : b name = ⟨some (.number l c via), false⟩)
    (h : Leaves u radix b (.identifier loc name) true v) : ∃ l via, v = .number l c via := by
  obtain ⟨n, hn⟩ := h
  rw [Eval.outcome, Eval.spell, if_pos rfl] at hn
  cases n with
  | zero =>
    rw [Eval.follow, Eval.lookup, hname] at hn
    cases hn
  | succ n =>
    rw [Eval.follow, Eval.lookup, hname] at hn
    simp only [Bool.false_eq_true, if_false, Eval.outcome, Option.map_some, Option.some.injEq] at hn
    subst hn
    exact ⟨_, _, rfl⟩

/-- The second stage passes on a DUP whose count stands for nothing yet. -/
theorem advances_bind_late (w : Workbench) (ht : t.stopped = false) (loc l : Location) {name : Text}
    (body : List Token) (hname : (s.scope.binding name).isSet = false) :
    Advances t (fun items s' => s'.scope.binding = s.scope.binding ∧
        items = [⟨.dup loc none (.count (.identifier l name)) body, true⟩])
      ((bindOne w (.settled (.dup loc none (.count (.identifier l name)) body)) t).run s) := by
  rw [bindOne]
  rcases hexec : (Token.reduce w.around (.dup loc none (.count (.identifier l name)) body)).exec s with ⟨x, s1⟩
  cases x with
  | error f =>
    have hf := isLoud_reduce_count w.around loc (.identifier l name) body s f (by rw [hexec])
    exact advances_of_error ht rfl hf (Pass.exec_reduceFirst_of_error hexec)
  | ok token =>
    obtain ⟨v, rfl, hleaves, hbinding, hresolved⟩ := leaves_of_reduce_count hexec
    obtain rfl := eq_of_leaves_unset hname hleaves
    have hcounted : s.deferred < s1.deferred := by
      by_contra hcounted
      cases hresolved (Nat.le_of_not_lt hcounted)
    have hfirst : (Pass.reduceFirst w (.settled (.dup loc none (.count (.identifier l name)) body))).exec
        (Output.empty w.block.inMacro, s) =
        (.ok ⟨⟩, ((Output.empty w.block.inMacro).push
          ⟨.dup loc none (.count (.identifier l name)) body, true⟩, s1)) := by
      rw [Pass.exec_reduceFirst_of_ok hexec, decide_eq_true hcounted]
    have hlocalize : ((Pass.localize w).handle w.block.inMacro
        ⟨.dup loc none (.count (.identifier l name)) body, true⟩).run s1 =
        ((Output.empty w.block.inMacro).push ⟨.dup loc none (.count (.identifier l name)) body, true⟩, s1) :=
      Pass.run_handle_of_ok rfl rfl
    rw [Stage.run_through_step ht (Pass.run_handle_of_ok rfl hfirst) rfl, Stage.run_through_last hlocalize]
    exact .of_add ht ⟨hbinding, rfl⟩

/-- What a step of the third stage expands over data is finished. None of it is evaluated again. -/
theorem advances_replayed (ht : t.stopped = false) {item : Item} (hitem : item.token.isMessage = false)
    (hexpand : Replay.Replays b (Pass.localize w item) P) (hs : s.scope.binding = b) :
    Advances t (fun added s' => s'.scope.binding = b ∧ ∃ items tss, P items ∧
        List.Forall₂ (fun i ts => Finishes w.around (b Scope.radixName).radix b (.settled i.token) ts) items tss ∧
        added.map Item.token = tss.flatten)
      ((Stage.through w.block.inMacro (.ofToken (Finish.complete w))
        [.localize w, .expandRest w, .ofToken Finish.relax, .ofToken (Finish.encode w)] item t).run s) := by
  obtain ⟨out, s2, hrun, hbinding, hinert, hout⟩ :=
    run_handle_of_replays w.block.inMacro hitem (hexpand.replaysFrom hs)
  rw [hs] at hbinding
  rw [Stage.through, StateM.run_bind, hrun, StateM.run_bind]
  have hfed := advances_feed (f := finishRest w) (Stage.grows_through _ _ _)
    (I := fun s => s.scope.binding = b)
    (E := fun i ts => Finishes w.around (b Scope.radixName).radix b (.settled i.token) ts)
    (fun i hi t s ht hs => advances_finishRest w _ ht (hinert i hi) hs) ht hbinding
  rw [finishRest] at hfed
  rcases hfeed : (Stage.feed (Stage.through w.block.inMacro (.ofToken (Finish.complete w))
    [.expandRest w, .ofToken Finish.relax, .ofToken (Finish.encode w)]) out.items t).run s2 with ⟨t3, s3⟩
  rw [hfeed] at hfed
  rcases hfed with hfails | ⟨added, hadded, hstopped, hs3, tss, htokens, hall⟩
  · exact Or.inl hfails
  · rcases hout with ⟨i, hi, hfails⟩ | ⟨hopen, hP⟩
    · -- a failure among the items would have been reported
      have hnone : ∀ i ∈ out.items, i.token.fails = false :=
        ((List.forall₂_and_left _ _).1 (hall.imp fun i ts h => ⟨h.not_fails, h⟩)).1
      rw [hnone i hi] at hfails
      cases hfails
    · refine Or.inr ⟨added, hadded, ?_, hs3, out.items, tss, hP, hall, htokens⟩
      rw [StateM.run_pure, hopen, Bool.or_false]
      exact hstopped

/-- The third stage expands a DUP over data that had to wait for its count. What its turns write is not evaluated
again. -/
theorem advances_finish_late (ht : t.stopped = false) {loc l l' : Location} {name via' : Text} {c : Int64}
    (hloop : ∀ l via, Replay.Replays b (Replay.dup w false (.settled (.dup loc none (.count (.number l c via)) body))
      loc none (.count (.number l c via)) body) P)
    (hname : b name = ⟨some (.number l' c via'), false⟩) (hs : s.scope.binding = b) :
    Advances t (fun added s' => s'.scope.binding = b ∧ ∃ items tss, P items ∧
        List.Forall₂ (fun i ts => Finishes w.around (b Scope.radixName).radix b (.settled i.token) ts) items tss ∧
        added.map Item.token = tss.flatten)
      ((finishOne w ⟨.dup loc none (.count (.identifier l name)) body, true⟩ t).run s) := by
  rw [finishOne]
  rcases hexec : (Token.reduce w.around (.dup loc none (.count (.identifier l name)) body)).exec s with ⟨x, s1⟩
  cases x with
  | error f =>
    have hf := isLoud_reduce_count w.around loc (.identifier l name) body s f (by rw [hexec])
    exact advances_of_error ht rfl hf (Pass.exec_reduceAgain_of_error rfl hexec)
  | ok token =>
    obtain ⟨v, rfl, hleaves, hbinding, -⟩ := leaves_of_reduce_count hexec
    rw [hs] at hleaves hbinding
    obtain ⟨l1, via1, rfl⟩ := exists_of_leaves_number hname hleaves
    rw [Stage.run_through_step ht (Pass.run_handle_of_ok rfl (Pass.exec_reduceAgain_of_ok rfl hexec)) rfl]
    exact advances_replayed ht rfl (hloop l1 via1) hbinding

end Loop

end Entry

end MacroAsm
