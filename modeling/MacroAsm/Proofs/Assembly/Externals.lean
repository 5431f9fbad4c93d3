import MacroAsm.Proofs.Assembly.Outstanding
import MacroAsm.Proofs.Assembly.Values
import MacroAsm.Proofs.Eval.Waiting

/-!
# Names that are left to the linker

What the output of a program waits for is meant to be external: a name of the root scope that is global and has no
value (`Scope.isExternal`). Tokens that wait are evaluated a second time when all names of the program are bound,
and a name that still waits then is external or local, in which case it is reported.

This is so as long as the third stage binds nothing (`Assembler.assemble_externals`). It does where a macro call or
a DUP is expanded as late as that (`Assembler.expandsLate`): the block of a later call may bind a name that an
earlier one was left with, and an END in the block drops its names before they are accounted for
(`Assembler.exists_not_isExternal`).
-/

namespace MacroAsm

namespace Token

/-- Whether a token is expanded into a block, or may turn out to be a call of a macro. -/
def isLate (bindings : Text → Binding) : Token → Bool
  | .dup .. => true
  | .dispatch ⟨_, .identifier _ name, _⟩ => (bindings name).isMacro
  | .dispatch _ => true
  | _ => false

variable {bindings : Text → Binding} {t t' : Token}

/-- There are no names in a diagnostic. -/
theorem names_of_isMessage {f : Expr → List Text} (h : t.isMessage = true) : t.names f = [] := by
  cases t with
  | message d => rfl
  | _ => cases h

/-- Output is not expanded. -/
theorem isLate_of_isOutput (h : t.isOutput = true) : t.isLate bindings = false := by
  cases t with
  | dup => rcases role_of_isOutput h with hrole | hrole <;> cases hrole
  | dispatch => rcases role_of_isOutput h with hrole | hrole <;> cases hrole
  | _ => rfl

/-- What is neither expanded nor a call of a macro is an instruction or output. -/
theorem IsCarried.cases_of_not_isLate (h : t.IsCarried) (hlate : t.isLate bindings = false) :
    t.isOutput = true ∨ ∃ loc l name operands, t = .dispatch ⟨loc, .identifier l name, operands⟩ ∧
      (bindings name).isMacro = false := by
  rcases h with h | h | ⟨h, -⟩
  · exact Or.inl h
  · obtain ⟨⟨loc, callee, operands⟩, rfl⟩ := exists_dispatch_of_role h
    cases callee with
    | identifier l name => exact Or.inr ⟨loc, l, name, operands, rfl, hlate⟩
    | _ => cases hlate
  · cases t with
    | dup => cases hlate
    | declare _ how _ => cases how <;> cases h
    | cond _ _ _ assembled => cases assembled <;> cases h
    | _ => cases h

/-- The name of an instruction does not change when it is evaluated again. -/
theorem isLate_of_reduces {u : Surroundings} (hcarried : t.IsCarried) (hlate : t.isLate bindings = false)
    (h : t.Reduces u t') : t'.isLate bindings = false := by
  rcases hcarried.cases_of_not_isLate hlate with houtput | ⟨loc, l, name, operands, rfl, hplain⟩
  · exact isLate_of_isOutput (h.rolesFrom.isOutput houtput)
  · obtain ⟨s, s', hexec⟩ := h
    rw [reduce] at hexec
    obtain ⟨callee, s1, hcallee, hexec⟩ := Act.exists_of_exec_bind hexec
    obtain ⟨vs, s2, -, heq⟩ := Act.exists_of_exec_bind hexec
    have hsame : (Eval.nameOnly u (.identifier l name)).exec s = (.ok (.identifier l name), s) := rfl
    rw [hsame] at hcallee
    cases hcallee
    cases heq
    exact hplain

end Token

namespace Grammar

/-- An item that is left when names are bound is marked if it waits for a name. -/
def Outstanding (item : Item) : Prop :=
  item.token.IsCarried ∧ (item.pending = false → item.token.requested = [])

theorem Retried.outstanding {item : Item} (h : Retried item) : Outstanding item :=
  ⟨h.1, fun hpending => Token.requested_of_values (h.2 hpending)⟩

end Grammar

section Finish

/-- The names that a token waits for are those that were asked for and stand for nothing. -/
def Item.Awaits (s : State) (item : Item) : Prop := ∀ name ∈ item.token.requested, s.scope.awaits name = true

/-- An item on its way to the last steps of which nothing is expanded. -/
def Item.Proceeds (s : State) (item : Item) : Prop :=
  item.token.IsCarried ∧ item.token.isLate s.scope.binding = false ∧ item.Awaits s

theorem Item.stable_awaits : Stable State.Continues Item.Awaits :=
  fun _ _ _ h hitem name hname => h.awaits (hitem name hname)

theorem Item.stable_proceeds : Stable State.Continues Item.Proceeds := by
  rintro s s' item h ⟨hcarried, hlate, hawaits⟩
  exact ⟨hcarried, by rwa [h.binding], stable_awaits s s' item h hawaits⟩

variable {w : Workbench} {inMacro : Bool}

/-- Diagnostics wait for nothing. -/
theorem Item.proceeds_of_isMessage (s : State) (item : Item) (h : item.token.isMessage = true) :
    item.Proceeds s := by
  obtain ⟨t, pending⟩ := item
  cases t with
  | message d => exact ⟨Or.inl rfl, rfl, fun name hname => absurd hname List.not_mem_nil⟩
  | _ => cases h

namespace Pass

/-- What waits is evaluated again, and then waits for names only that stand for nothing. -/
theorem maps_reduceAgain_proceeds (hargs : ∀ a ∈ w.around.args, a.requested = []) :
    (reduceAgain w).Maps State.Continues inMacro
      (fun s item => Grammar.Outstanding item ∧ item.token.isLate s.scope.binding = false) Item.Proceeds := by
  have hR := Eval.evaluates_continues (u := w.around) hargs
  have hinv := Emission.invariant_collects hR.toProgress Item.stable_proceeds
  refine maps_of_collects hR.toProgress Item.stable_proceeds Item.proceeds_of_isMessage ?_
  rintro item p ⟨⟨hcarried, hmarked⟩, hlate⟩ hp
  rw [reduceAgain]
  split
  · have hreduce : Act.Yields State.Continues (fun t' s' => Item.Proceeds s' (.settled t'))
        (Token.reduce w.around item.token) p.2 := by
      obtain ⟨hcontinues, hawaits⟩ := Token.reduce_yields hR item.token p.2
      refine ⟨hcontinues, fun t' ht' => ?_⟩
      have hreduces : item.token.Reduces w.around t' := ⟨p.2, _, Prod.ext ht' rfl⟩
      refine ⟨hcarried.rolesFrom hreduces.rolesFrom, ?_, hawaits t' ht'⟩
      rw [hcontinues.binding]
      exact Token.isLate_of_reduces hcarried hlate hreduces
    exact (Emission.Yields.act hinv hp hreduce).bind hinv fun t' q _ hq ht' => hq.emitItem hinv ht'
  · rename_i hpending
    refine hp.emitItem hinv ⟨hcarried, hlate, fun name hname => ?_⟩
    rw [hmarked (by simpa using hpending)] at hname
    cases hname

/-- An instruction is no call of a macro. -/
theorem yields_call {item : Item} {p : Output × State} (strict : Bool) {loc l : Location} {name : Text}
    {operands : List Expr} (hplain : (p.2.scope.binding name).isMacro = false) (hitem : item.Proceeds p.2)
    (hp : Emission.Collects Item.Proceeds p) :
    Emission.Yields State.Continues (Emission.Collects Item.Proceeds) (fun _ _ => True)
      (Expand.call w strict item ⟨loc, .identifier l name, operands⟩) p := by
  have hinv := Emission.invariant_collects Eval.tracks_continues.toProgress Item.stable_proceeds
  have hnone : Expand.macroOf? p.2.scope ⟨loc, .identifier l name, operands⟩ = none := by
    rw [Scope.binding] at hplain
    dsimp only [Expand.macroOf?]
    cases hfind : p.2.scope.find? name with
    | none => rfl
    | some sym =>
      rw [hfind] at hplain
      have htemplate : sym.template = none := by
        rw [← Option.not_isSome_iff_eq_none]
        exact Bool.eq_false_iff.1 hplain
      rw [Option.bind_some, htemplate]
      rfl
  have hexec : (Expand.call w strict item ⟨loc, .identifier l name, operands⟩).exec p =
      (Emission.emitItem item).exec p := by
    rw [Expand.call, Emission.exec_bind_of_ok (Emission.exec_scope p), hnone]
  exact .emit hinv (hexec.trans (Emission.exec_emitItem item p)) (hp.push hitem)

/-- Assembled IFs are decided, and nothing else is carried out. -/
theorem maps_localize_proceeds :
    (localize w).Maps State.Continues inMacro Item.Proceeds Item.Proceeds := by
  have hinv := Emission.invariant_collects Eval.tracks_continues.toProgress Item.stable_proceeds
  refine maps_of_collects Eval.tracks_continues.toProgress Item.stable_proceeds Item.proceeds_of_isMessage ?_
  rintro ⟨t, pending⟩ p hitem hp
  rcases hitem.1.cases_of_not_isLate hitem.2.1 with houtput | ⟨loc, l, name, operands, heq, hplain⟩
  · cases t with
    | cond loc clauses otherwise assembled =>
      cases assembled with
      | false => rcases Token.role_of_isOutput houtput with hrole | hrole <;> cases hrole
      | true =>
        refine (Emission.Yields.require (Q := fun r _ => Conditional.decide? otherwise clauses = .ok r) hinv hp
          fun _ h => h).bind hinv fun r q hpq hq hr => ?_
        split
        · exact hq.emitItem hinv (Item.stable_proceeds _ _ _ hpq hitem)
        · rename_i ts
          -- the tokens of the arm are output, and wait for what the IF waits for
          refine hq.emitAll hinv fun t' ht' => ?_
          have hts : (Token.cond loc clauses otherwise true).decision? = some ts := by
            rw [Token.decision?, hr]
            rfl
          have houtput' := Token.everywhere_of_decision? houtput hts t' ht'
          refine ⟨Or.inl houtput', Token.isLate_of_isOutput houtput', fun name hname => ?_⟩
          exact hpq.awaits (hitem.2.2 name (Token.requested_of_decision? hts ht' hname))
    | dup | dispatch => rcases Token.role_of_isOutput houtput with hrole | hrole <;> cases hrole
    | declare _ how _ =>
      cases how <;> rcases Token.role_of_isOutput houtput with hrole | hrole <;> cases hrole
    | inclusion | radix | assign | label | retract | macroDef =>
      rcases Token.role_of_isOutput houtput with hrole | hrole <;> cases hrole
    | _ => exact hp.emitItem hinv hitem
  · cases heq
    exact yields_call false hplain hitem hp

/-- There is nothing left to be expanded. -/
theorem maps_expandRest_proceeds :
    (expandRest w).Maps State.Continues inMacro Item.Proceeds Item.Proceeds := by
  have hinv := Emission.invariant_collects Eval.tracks_continues.toProgress Item.stable_proceeds
  refine maps_of_collects Eval.tracks_continues.toProgress Item.stable_proceeds Item.proceeds_of_isMessage ?_
  rintro ⟨t, pending⟩ p hitem hp
  rcases hitem.1.cases_of_not_isLate hitem.2.1 with houtput | ⟨loc, l, name, operands, heq, hplain⟩
  · cases t with
    | dup | dispatch => rcases Token.role_of_isOutput houtput with hrole | hrole <;> cases hrole
    | _ => exact hp.emitItem hinv hitem
  · cases heq
    exact yields_call true hplain hitem hp

/-- A jump that is left to the linker waits for names only that the instruction waits for. -/
theorem maps_relax_awaits :
    (ofToken Finish.relax).Maps State.Continues inMacro Item.Proceeds Item.Awaits := by
  have hinv := Emission.invariant_collects Eval.tracks_continues.toProgress Item.stable_awaits
  refine maps_of_collects Eval.tracks_continues.toProgress Item.stable_awaits
    (fun s item h => (Item.proceeds_of_isMessage s item h).2.2) ?_
  rintro ⟨t, pending⟩ p ⟨-, -, hawaits⟩ hp
  -- the state changes beside the scope
  have hemit : ∀ (bankSwitched : Bool) (t' : Token), t'.requested ⊆ t.requested →
      Emission.Yields State.Continues (Emission.Collects Item.Awaits) (fun _ _ => True)
        (do modifyThe State fun s => { s with bankSwitched }
            Emission.emit t') p := by
    intro bankSwitched t' ht'
    have hcontinues : p.2.Continues { p.2 with bankSwitched } := .of_scope_eq rfl
    have hmodify : Emission.Yields State.Continues (Emission.Collects Item.Awaits) (fun _ _ => True)
        (modifyThe State fun s => { s with bankSwitched }) p :=
      ⟨hcontinues, hinv.stable _ _ _ hcontinues hp, fun _ _ => trivial⟩
    refine hmodify.bind hinv fun _ q hpq hq _ => hq.emitItem hinv ?_
    exact Item.stable_awaits _ _ _ hpq fun name hname => hawaits name (ht' hname)
  cases t with
  | dispatch d =>
    exact Emission.yields_getThe (hemit _ _ (Finish.requested_relaxDispatch p.2.bankSwitched d))
  | _ => exact hemit false _ (List.Subset.refl _)

/-- What is encoded of an instruction waits for names only that the instruction waits for. -/
theorem maps_encode_awaits (hargs : ∀ a ∈ w.around.args, a.requested = []) :
    (ofToken (Finish.encode w)).Maps State.Continues inMacro Item.Awaits Item.Awaits := by
  have hR := Eval.evaluates_continues (u := w.around) hargs
  have hinv := Emission.invariant_collects hR.toProgress Item.stable_awaits
  refine maps_of_collects hR.toProgress Item.stable_awaits
    (fun s item h => (Item.proceeds_of_isMessage s item h).2.2) ?_
  rintro ⟨t, pending⟩ p hawaits hp
  cases t with
  | dispatch d =>
    refine (Emission.Yields.act hinv hp (Eval.nameOf_yields hR d.callee p.2)).bind hinv
      fun mnemonic q hpq hq _ => ?_
    cases hencoded : Encode.instruction w.assembler.table mnemonic d with
    | error d => exact .report hinv hq d
    | ok ts =>
      refine hq.emitAll hinv fun t' ht' name hname => ?_
      exact hpq.awaits (hawaits name (Encode.requested_of_instruction hencoded ht' hname))
  | _ => exact hp.emitItem hinv hawaits

/-- What is encoded of data waits for names only that its elements wait for. -/
theorem maps_complete_awaits :
    (ofToken (Finish.complete w)).Maps State.Continues inMacro Item.Awaits Item.Awaits := by
  have hinv := Emission.invariant_collects Eval.tracks_continues.toProgress Item.stable_awaits
  refine maps_of_collects Eval.tracks_continues.toProgress Item.stable_awaits
    (fun s item h => (Item.proceeds_of_isMessage s item h).2.2) ?_
  rintro ⟨t, pending⟩ p hawaits hp
  cases t with
  | exitMacro loc =>
    rw [ofToken, Finish.complete]
    split
    · exact hp.emitItem hinv hawaits
    · exact .report hinv hp _
  | data loc kind values =>
    rw [ofToken, Finish.complete]
    cases hencoded : Encode.data kind values with
    | error d => exact .report hinv hp d
    | ok ts =>
      exact hp.emitAll hinv fun t' ht' name hname => hawaits name (Encode.requested_of_data hencoded ht' hname)
  | display loc kind text =>
    rw [ofToken, Finish.complete]
    split
    · refine (Emission.Yields.require (Q := fun _ _ => True) hinv hp fun _ _ => trivial).bind hinv
        fun shown q _ hq _ => hq.emitItem hinv ?_
      exact fun name hname => absurd hname List.not_mem_nil
    · exact hp.emitItem hinv hawaits
  | _ => exact hp.emitItem hinv hawaits

end Pass

/-- The third stage binds nothing if nothing is left to be expanded, and what is left then waits for names only
that stand for nothing. -/
theorem Workbench.finishWith_awaits (hargs : ∀ a ∈ w.around.args, a.requested = []) {items : List Item}
    {s : State} (hitems : ∀ item ∈ items, Grammar.Outstanding item ∧ item.token.isLate s.scope.binding = false) :
    s.Continues ((w.finishWith Pass.reduceAgain items).run s).2 ∧
      ∀ item ∈ ((w.finishWith Pass.reduceAgain items).run s).1.items,
        item.Awaits ((w.finishWith Pass.reduceAgain items).run s).2 := by
  have hR := Eval.tracks_continues.toProgress
  -- up to the jumps an item may still be a call; from then on only what it waits for counts
  refine Stage.run_maps hR ?_ Item.stable_awaits (.step (Pass.maps_reduceAgain_proceeds hargs)
    Item.stable_proceeds (.step Pass.maps_localize_proceeds Item.stable_proceeds (.step
      Pass.maps_expandRest_proceeds Item.stable_proceeds (.step Pass.maps_relax_awaits Item.stable_awaits (.step
        (Pass.maps_encode_awaits hargs) Item.stable_awaits (.last Pass.maps_complete_awaits)))))) hitems
  exact fun s s' item h hitem => ⟨hitem.1, by rw [h.binding]; exact hitem.2⟩

end Finish

namespace Scope

/-- Whether a name is left to the linker: it is a global name of the root frame, and has no value. -/
def isExternal (s : Scope) (name : Text) : Bool := (s.root.find? name).any fun sym => sym.global && !sym.isSet

/-- What has no value in the root frame is global. -/
def IsShared (inner : Bool) (sym : Symbol) : Prop := inner = true ∨ sym.isSet = true ∨ sym.global = true

/-- A symbol that declarations are carried into stays global. -/
theorem global_carry {dst : Symbol} (h : dst.global = true) (src : Option Symbol) :
    (carry dst src).global = true := by
  cases src with
  | none => exact h
  | some sym => exact Bool.or_eq_true_iff.2 (Or.inl h)

theorem global_carry_some {src : Symbol} (h : src.global = true) (dst : Symbol) :
    (carry dst (some src)).global = true :=
  Bool.or_eq_true_iff.2 (Or.inr h)

/-- Merging names keeps what has no value global. -/
theorem isShared_merged {test : Expr} {onTrue onFalse here : Frame} {name : Text} {r : Frame × Option Cause}
    (htrue : onTrue.All (IsShared false)) (hfalse : onFalse.All (IsShared false))
    (hhere : here.All (IsShared false)) (h : MergeStep test onTrue onFalse here name r) :
    r.1.All (IsShared false) := by
  -- a symbol of the root frame without a value
  have hglobal : ∀ {f : Frame} {sym : Symbol}, f.All (IsShared false) → f.find? name = some sym →
      f.isSetAt name = false → sym.global = true := by
    intro f sym hf hfind hunset
    rw [Frame.isSetAt, hfind] at hunset
    rcases hf.of_find? hfind with h | h | h
    · cases h
    · exact absurd (hunset.symm.trans h) Bool.false_ne_true
    · exact h
  cases h with
  | reserved | unbalanced | absent => exact hhere
  | removed => exact hhere.erase name
  | both _ _ _ hts hfs hmerge =>
    have hmerged := mergedSymbol_of_mergeSet hts hfs hmerge
    exact hhere.insert name (Or.inr (Or.inl (hmerged.isSet hts)))
  -- what is left after a failed merge is what was there, or the symbol of the first arm
  | @clash ts fs c _ hfind _ hts =>
    refine hhere.insert name ?_
    cases hbase : here.find? name with
    | none => exact Or.inr (Or.inl hts)
    | some sym => exact hhere.of_find? hbase
  | declared _ hunsetTrue hunsetFalse hunset hsome =>
    refine hhere.insert name (Or.inr (Or.inr ?_))
    -- the name is global where it is found first
    cases hbase : here.find? name with
    | some sym => exact global_carry (global_carry (hglobal hhere hbase hunset) _) _
    | none =>
      cases ht : onTrue.find? name with
      | some ts => exact global_carry (global_carry_some (hglobal htrue ht hunsetTrue) _) _
      | none =>
        cases hf : onFalse.find? name with
        | some fs => exact global_carry_some (hglobal hfalse hf hunsetFalse) _
        | none => simp [hbase, ht, hf] at hsome

/-- What has no value in the root frame stays global. -/
theorem lasting_isShared (ok : Macro → Prop) : Lasting ok IsShared where
  changes inner sym sym' h hsym := by
    rcases hsym with hinner | hset | hglobal
    · exact Or.inl hinner
    · exact Or.inr (Or.inl (h.isSet hset))
    · exact Or.inr (Or.inr (h.isGlobal.trans hglobal))
  declared := Or.inl rfl
  promoted _ _ _ := Or.inr (Or.inr rfl)
  defined _ _ _ _ _ := Or.inr (Or.inl rfl)
  template _ _ _ _ _ := Or.inl rfl
  bound _ _ _ _ := Or.inl rfl
  absorbed _ _ _ := Or.inl rfl
  merged inner test onTrue onFalse here name r htrue hfalse hhere hstep := by
    cases inner with
    | true => exact fun _ _ => Or.inl rfl
    | false => exact isShared_merged htrue hfalse hhere hstep

/-- A name that is reported is in the account. -/
theorem mem_accountFor_of_reported {nested : Bool} {name : Text} {sym : Symbol} {d : Diagnostic}
    (h : sym.verdict nested name = .reported d) {entries : List (Text × Symbol)}
    (hmem : (name, sym) ∈ entries) (s : Scope) : .message d ∈ (accountFor nested entries s).2 := by
  induction entries generalizing s with
  | nil => cases hmem
  | cons entry rest ih =>
    obtain ⟨other, sym'⟩ := entry
    rw [accountFor]
    rcases List.mem_cons.1 hmem with heq | hmem
    · cases heq
      rw [h]
      exact List.mem_cons_self
    · cases sym'.verdict nested other with
      | settled => exact ih hmem s
      | hoisted => exact ih hmem _
      | reported d' => exact List.mem_cons_of_mem _ (ih hmem s)

/-- A name of the program that waits at its end is reported. -/
theorem fails_account {s : Scope} (hs : s.WellFormed) {name : Text} {sym : Symbol}
    (hfind : s.top.find? name = some sym) (hused : sym.used = true) (hunset : sym.isSet = false) :
    ∃ t ∈ (s.account false).2, t.fails = true := by
  obtain ⟨f, rest, hinner⟩ := List.exists_cons_of_ne_nil hs.isOpen
  have htop : s.top = f := by rw [top, hinner, List.headD_cons]
  have hmem := Frame.mem_entries_of_find? hfind
  have hreserved : sym.reserved = false :=
    (hs.inner f (by rw [hinner]; exact List.mem_cons_self)).reserved name sym (by rwa [← htop])
  have hverdict : sym.verdict false name =
      .reported (.fail sym.loc ("Local variable " ++ name ++ " is used, but is never defined")) := by
    rw [Symbol.verdict, hused, hunset]
    rfl
  refine ⟨_, mem_accountFor_of_reported hverdict (List.mem_filter.2 ⟨hmem, ?_⟩) s, rfl⟩
  rw [hreserved]
  rfl

/-- What waits while one unit is open is a name of the unit or left to the linker. -/
theorem cases_of_awaits {s : Scope} {f : Frame} (hinner : s.inner = [f]) (hshared : s.Everywhere IsShared)
    {name : Text} (h : s.awaits name = true) :
    (∃ sym, s.top.find? name = some sym ∧ sym.used = true ∧ sym.isSet = false) ∨ s.isExternal name = true := by
  have htop : s.top = f := by rw [top, hinner, List.headD_cons]
  rw [awaits, find?_eq, hinner, findIn, findIn, ← htop] at h
  cases hfind : s.top.find? name with
  | some sym =>
    rw [hfind] at h
    have hwaits : sym.used = true ∧ sym.isSet = false := by simpa using h
    exact Or.inl ⟨sym, rfl, hwaits⟩
  | none =>
    rw [hfind] at h
    cases hroot : s.root.find? name with
    | none =>
      rw [hroot] at h
      cases h
    | some sym =>
      rw [hroot] at h
      have hunset : sym.isSet = false := (show sym.used = true ∧ sym.isSet = false by simpa using h).2
      refine Or.inr ?_
      rw [isExternal, hroot]
      rcases hshared.root.of_find? hroot with hinner | hset | hglobal
      · cases hinner
      · rw [hunset] at hset
        cases hset
      · simp [hglobal, hunset]

end Scope

namespace Assembler

/-- Whether something is left to be expanded when the names of a program are bound. -/
def expandsLate (a : Assembler) (scope : Scope) (source : List Token) : Bool :=
  let (items, s) := (Workbench.bound ⟨a, a.outermost, a.runner a.maxDepth⟩ source).run (start scope)
  items.any fun item => item.token.isLate s.scope.binding

variable {a : Assembler} {scope : Scope} {source : List Token}

/-- The output of the block of a program waits for names only that stand for nothing, if nothing is expanded
late. -/
theorem awaits_run (h : a.Accepts scope source) (hlate : a.expandsLate scope source = false) {trail : Trail}
    {s : State}
    (hrun : (Workbench.run ⟨a, a.outermost, a.runner a.maxDepth⟩ source).run (start scope) = (trail, s)) :
    ∀ t ∈ trail.tokens, ∀ name ∈ t.requested, s.scope.awaits name = true := by
  obtain ⟨-, hbound⟩ := Grammar.leads_bound (Grammar.binds_retried (h.equips a.outermost a.maxDepth)) h.source
    (Grammar.sound_start (fun _ ht => ht) h)
  rw [expandsLate] at hlate
  rw [Workbench.run_eq, Workbench.run_runWith] at hrun
  generalize (Workbench.bound ⟨a, a.outermost, a.runner a.maxDepth⟩ source).run (start scope) = b
    at hbound hlate hrun
  obtain ⟨-, hawaits⟩ := Workbench.finishWith_awaits (w := ⟨a, a.outermost, a.runner a.maxDepth⟩)
    (fun e he => absurd he List.not_mem_nil)
    fun item hitem => ⟨(hbound item hitem).2.outstanding, Bool.eq_false_iff.2 (List.any_eq_false.1 hlate item hitem)⟩
  rw [hrun] at hawaits
  intro t ht
  obtain ⟨item, hitem, rfl⟩ := List.mem_map.1 ht
  exact hawaits item hitem

/-- At the end of a program only its own unit is open, and what has no value in the root frame is global. -/
theorem isShared_assemble (h : a.Accepts scope source) (hroot : scope.IsRoot) :
    (a.assemble scope source).scope.WellFormed ∧ (∃ f, (a.assemble scope source).scope.inner = [f]) ∧
      (a.assemble scope source).scope.Everywhere Scope.IsShared := by
  obtain ⟨hleads, -⟩ := Grammar.leads_assembleWith (g := Grammar.encoding false) (fun _ ht => ht)
    (fun _ ht => Grammar.output_encoding (Encode.isEncoded_of_isMessage ht))
    (fun _ _ hw => Grammar.assembles_reduceAgain hw) h
  rw [← assemble_eq] at hleads
  rw [Assembly.scope]
  generalize a.assemble scope source = out at hleads
  have hstart := (Grammar.sound_start (g := Grammar.encoding false) (fun _ ht => ht) h).wellFormed
  have hinner : (start scope).scope.inner = [Frame.empty] := congrArg (Frame.empty :: ·) hroot.inner
  have hshared : (start scope).scope.Everywhere Scope.IsShared := by
    refine ⟨fun entry hentry => Or.inr (hroot.shared entry hentry), ?_⟩
    rw [hinner]
    exact List.forall_mem_singleton.2 Frame.all_empty
  have hpreserved := hleads.evolves.preserved hstart
  refine ⟨hpreserved.wellFormed, ?_, hleads.evolves.everywhere (Scope.lasting_isShared _) hstart hshared⟩
  -- the frames below the innermost one stay as many
  have hlower := hpreserved.lower.length_eq
  obtain ⟨f, rest, hend⟩ := List.exists_cons_of_ne_nil hpreserved.wellFormed.isOpen
  rw [hinner, hend, List.tail_cons, List.tail_cons] at hlower
  exact ⟨f, hend.trans (by rw [List.length_eq_zero_iff.1 hlower.symm])⟩

/-- No name is left unresolved silently. If no diagnostic fails the run, then what is in the output of a program of
which nothing is expanded late is left to the linker, apart from names that a number is still to be appended to. -/
theorem assemble_externals (h : a.Accepts scope source) (hroot : scope.IsRoot)
    (hlate : a.expandsLate scope source = false)
    (hclean : ∀ t ∈ (a.assemble scope source).tokens, t.fails = false) :
    ∀ t ∈ (a.assemble scope source).tokens, ∀ name ∈ t.names Expr.identifiers,
      name ∈ t.names Expr.joined ∨ (a.assemble scope source).scope.isExternal name = true := by
  obtain ⟨hwellFormed, ⟨f, hinner⟩, hshared⟩ := isShared_assemble h hroot
  generalize hrun : (Workbench.run ⟨a, a.outermost, a.runner a.maxDepth⟩ source).run (start scope) = r
  obtain ⟨trail, s⟩ := r
  rw [scope_assemble hrun] at hwellFormed hinner hshared ⊢
  -- a fatal diagnostic would have failed the run, so names were accounted for
  have hfatal : trail.tokens.any Token.isFatal = false := by
    refine List.any_eq_false.2 fun t ht hfatal => ?_
    have hfails := hclean t (by rw [tokens_assemble hrun]; exact List.mem_append_left _ ht)
    rw [Token.fails_of_isFatal hfatal] at hfails
    cases hfails
  rw [tokens_assemble hrun, hfatal, if_neg Bool.false_ne_true] at hclean ⊢
  intro t ht name hname
  -- a name of the output is asked for, or is the left side of a join
  rcases Token.mem_names_or (fun e => Expr.mem_identifiers e) t hname with hrequested | hjoined
  · refine Or.inr ?_
    rcases List.mem_append.1 ht with ht | ht
    · rcases Scope.cases_of_awaits hinner hshared (awaits_run h hlate hrun t ht name hrequested) with
        ⟨sym, hfind, hused, hunset⟩ | hexternal
      · obtain ⟨d, hd, hfails⟩ := Scope.fails_account hwellFormed hfind hused hunset
        rw [hclean d (List.mem_append_right _ hd)] at hfails
        cases hfails
      · exact hexternal
    · rw [Token.names_of_isMessage (Scope.mem_accountFor ht).1] at hname
      cases hname
  · exact Or.inl hjoined

/-- A macro M with `DW X`, a call of it, and `EXTERN X` after it. -/
def externWord : List Token :=
  [.macroDef Location.none (nameOf "M") [] [.data Location.none .words [nameOf "X"]],
    .dispatch ⟨Location.none, nameOf "M", []⟩, .declare Location.none (.externally none) [nameOf "X"]]

/-- X is in the output, and left to the linker. -/
theorem assemble_externals_externWord :
    (plainAssembler.assemble Scope.initial externWord).tokens.any
        (fun t => (t.names Expr.identifiers).contains "X") = true ∧
      ∀ t ∈ (plainAssembler.assemble Scope.initial externWord).tokens, ∀ name ∈ t.names Expr.identifiers,
        name ∈ t.names Expr.joined ∨
          (plainAssembler.assemble Scope.initial externWord).scope.isExternal name = true := by
  have hsource : ∀ t ∈ externWord, t.isStatement = true := by
    refine List.forall_mem_cons.2 ⟨Source.isStatement_macroDef (List.forall_mem_singleton.2 rfl), ?_⟩
    exact List.forall_mem_cons.2 ⟨rfl, List.forall_mem_singleton.2 rfl⟩
  have hlate : plainAssembler.expandsLate Scope.initial externWord = false := by decide +kernel
  have hclean : (plainAssembler.assemble Scope.initial externWord).tokens.all (fun t => !t.fails) = true := by
    decide +kernel
  refine ⟨by decide +kernel, assemble_externals (accepts_initial hsource) isRoot_initial hlate fun t ht => ?_⟩
  simpa using List.all_eq_true.1 hclean t ht

/-- Macros M with `DW X` and N with `X EQU 5`, a call of each with the argument Y, and `Y EQU 1` after them. -/
def lateCalls : List Token :=
  [.macroDef Location.none (nameOf "M") [nameOf "P"] [.data Location.none .words [nameOf "X"]],
    .macroDef Location.none (nameOf "N") [nameOf "P"]
      [.assign Location.none .equate (nameOf "X") (.literal Location.none 5)],
    .dispatch ⟨Location.none, nameOf "M", [nameOf "Y"]⟩, .dispatch ⟨Location.none, nameOf "N", [nameOf "Y"]⟩,
    .assign Location.none .equate (nameOf "Y") (.literal Location.none 1)]

/-- The calls wait for Y, and are expanded one after the other when it is bound. X is in the output then, which
no diagnostic tells, and is not left to the linker. -/
theorem exists_not_isExternal :
    plainAssembler.Accepts Scope.initial lateCalls ∧ Scope.initial.IsRoot ∧
      (∀ t ∈ (plainAssembler.assemble Scope.initial lateCalls).tokens, t.fails = false) ∧
      ¬ ∀ t ∈ (plainAssembler.assemble Scope.initial lateCalls).tokens, ∀ name ∈ t.names Expr.identifiers,
        (plainAssembler.assemble Scope.initial lateCalls).scope.isExternal name = true := by
  have hsource : ∀ t ∈ lateCalls, t.isStatement = true := by
    refine List.forall_mem_cons.2 ⟨Source.isStatement_macroDef (List.forall_mem_singleton.2 rfl), ?_⟩
    refine List.forall_mem_cons.2 ⟨Source.isStatement_macroDef (List.forall_mem_singleton.2 rfl), ?_⟩
    exact List.forall_mem_cons.2 ⟨rfl, List.forall_mem_cons.2 ⟨rfl, List.forall_mem_singleton.2 rfl⟩⟩
  have hclean : (plainAssembler.assemble Scope.initial lateCalls).tokens.all (fun t => !t.fails) = true := by
    decide +kernel
  have hleft : (plainAssembler.assemble Scope.initial lateCalls).tokens.any
      (fun t => (t.names Expr.identifiers).contains "X") = true := by
    decide +kernel
  have hbound : (plainAssembler.assemble Scope.initial lateCalls).scope.isExternal "X" = false := by
    decide +kernel
  refine ⟨accepts_initial hsource, isRoot_initial, fun t ht => ?_, fun hall => ?_⟩
  · simpa using List.all_eq_true.1 hclean t ht
  · obtain ⟨t, ht, hname⟩ := List.any_eq_true.1 hleft
    rw [hall t ht "X" (List.contains_iff_mem.1 hname)] at hbound
    cases hbound

end Assembler

end MacroAsm
