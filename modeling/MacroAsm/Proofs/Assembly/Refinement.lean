import MacroAsm.Proofs.Assembly.Entry
import MacroAsm.Proofs.Assembly.Sequential

/-!
# Programs that are carried out one statement after the other

A program of SET, EQU, RADIX and data whose names hold values where they are used gives the output of the one-pass
interpreter (`Assembler.assemble_sequential`).

The second stage of the block does what the interpreter does, statement by statement: the scope goes on to mirror
the memory, and what is left of a statement is ripe (`Memory.Sound.reaches_statement`). Ripe data has no name in it that
is asked for, so the third stage encodes it as it is, whatever has become of the scope by then
(`Item.IsRipe.finish`).
-/

namespace MacroAsm

open Eval (outcome outcomeAll asked askedAll spelled Final FinalAll Delivers)

/-- What is left of a statement for the third stage: a diagnostic that does not end the run, or data whose values
are final. -/
inductive Item.IsRipe (u : Surroundings) : Item → Prop where
  /-- A diagnostic. -/
  | message (d : Diagnostic) (hd : d.isFatal = false) : IsRipe u (.message d)
  /-- Data. -/
  | data (loc : Location) (kind : DataKind) {vs : List Expr} (pending : Bool) (hfinal : FinalAll u true vs) :
    IsRipe u ⟨.data loc kind vs, pending⟩

/-- The output of what is left of a statement. -/
def Item.yield : Item → List Token
  | ⟨.data _ kind vs, _⟩ => Memory.encode kind vs
  | _ => []

/-- Putting the diagnostics first does not change the output. -/
theorem Stage.flatMap_messagesFirst (items : List Item) :
    (messagesFirst items).flatMap Item.yield = items.flatMap Item.yield := by
  have hmessages : (items.filter fun i => i.token.isMessage).flatMap Item.yield = [] := by
    rw [List.flatMap_eq_nil_iff]
    intro item hitem
    obtain ⟨token, pending⟩ := item
    cases token with
    | data => cases (List.mem_filter.1 hitem).2
    | _ => rfl
  rw [messagesFirst, List.flatMap_append, hmessages, List.nil_append]
  clear hmessages
  induction items with
  | nil => rfl
  | cons item rest ih =>
    rw [List.filter_cons, List.flatMap_cons, ← ih]
    obtain ⟨token, pending⟩ := item
    cases token <;> rfl

namespace Memory

section Bind

variable {m : Memory} {s s' : State} {name : Text} {sym : Symbol} {scope : Scope} {w : Workbench}

/-- An action came to a result: a failure does not end the run, and the state mirrors the memory. -/
def Leads (m : Memory) (r : Except Failure PUnit × State) : Prop :=
  (∀ f, r.1 = .error f → f.IsMild) ∧ m.Mirrors r.2

theorem Leads.ok (h : m.Mirrors s) : m.Leads (.ok ⟨⟩, s) := by
  refine ⟨fun f hf => ?_, h⟩
  cases hf

/-- An action that failed. -/
theorem Leads.error {f : Failure} (hf : f.IsMild) (h : m.Mirrors s) : m.Leads (.error f, s) := by
  refine ⟨fun f' hf' => ?_, h⟩
  cases hf'
  exact hf

theorem bind_slots (m : Memory) (name : Text) : m.bind name (m.slots name) = m := by
  rw [bind, Function.update_eq_self]

/-- A symbol that is changed after it was found or declared. -/
theorem Mirrors.modify (h : m.Mirrors s) (hname : name ≠ Scope.radixName)
    (hfind : ∀ other, scope.find? other = if other = name then some sym else s.scope.find? other)
    {g : Symbol → Symbol} {slot : Slot} (hslot : Slot.ofSymbol (some (g sym)) = slot)
    (hplain : (g sym).template = none) :
    (m.bind name slot).Mirrors { s with scope := scope.modify name g } := by
  subst hslot
  refine h.update hname (fun other => ?_) hplain
  rw [Scope.find?_modify, hfind]
  by_cases hother : other = name
  · rw [if_pos hother, if_pos hother, if_pos hother]
    rfl
  · rw [if_neg hother, if_neg hother, if_neg hother]

/-- The symbol of a name holds what the memory does, or is a fresh one for a name that holds nothing. -/
theorem Mirrors.exec_symbolOr (h : m.Mirrors s) (hname : name ≠ Scope.radixName)
    (declare : Scope → Except Cause Scope) (fresh : Symbol) (hfresh : fresh.template = none)
    (hdeclare : s.scope.find? name = none → ∃ scope, declare s.scope = .ok scope ∧
      ∀ other, scope.find? other = if other = name then some fresh else s.scope.find? other) :
    ∃ sym scope, (Bind.symbolOr name declare).exec s = (.ok sym, { s with scope }) ∧
      (∀ other, scope.find? other = if other = name then some sym else s.scope.find? other) ∧
      sym.template = none ∧
      (m.slots name = ⟨sym.value, sym.frozen⟩ ∨ m.slots name = ⟨none, false⟩ ∧ sym = fresh) := by
  have hslot := h.slots name hname
  cases hfind : s.scope.find? name with
  | some sym =>
    rw [hfind] at hslot
    refine ⟨sym, s.scope, Bind.exec_symbolOr_of_some hfind declare, fun other => ?_, h.plain name sym hfind,
      Or.inl hslot.symm⟩
    split
    · rename_i heq
      rw [heq, hfind]
    · rfl
  | none =>
    rw [hfind] at hslot
    obtain ⟨scope, hok, hscope⟩ := hdeclare hfind
    refine ⟨fresh, scope, ?_, hscope, hfresh, Or.inr ⟨hslot.symm, rfl⟩⟩
    rw [Bind.exec_symbolOr_of_none hfind hok, hscope, if_pos rfl]
    rfl

theorem isSet_of_plain (h : sym.template = none) : sym.isSet = sym.value.isSome := by
  rw [Symbol.isSet, h]
  exact Bool.or_false _

/-- SET. -/
theorem Mirrors.leads_assign (h : m.Mirrors s') (hname : name ≠ Scope.radixName) {n : Expr}
    (hexec : (Eval.nameOf w.around n).exec s = (.ok name, s')) (loc : Location) (v : Expr) :
    (m.set name v).Leads ((Bind.assign w loc n v).exec s) := by
  obtain ⟨sym, scope, hsym, hfind, hplain, hslot⟩ := h.exec_symbolOr hname (fun s => s.declareLocal name) {} rfl
    fun hnone => ⟨_, Scope.declareLocal_of_find?_eq_none hnone, fun _ => Scope.find?_modifyTop_insert ..⟩
  -- a name that was declared just now is unset and not frozen, which is what the memory holds
  have hslot : m.slots name = ⟨sym.value, sym.frozen⟩ := by
    rcases hslot with hslot | ⟨hslot, rfl⟩
    · exact hslot
    · exact hslot
  rw [Bind.assign, Act.exec_bind_of_ok hexec, Act.exec_bind_of_ok hsym, isSet_of_plain hplain, set, hslot]
  by_cases hfixed : (sym.frozen && sym.value.isSome) = true
  -- a failed SET may leave the name declared, of which the memory knows nothing
  · rw [if_pos hfixed, if_pos hfixed]
    have hsame := h.update hname hfind hplain
    rw [← hslot, bind_slots] at hsame
    exact .error (fun _ => rfl) hsame
  · rw [if_neg hfixed, if_neg hfixed, Act.exec_modifyScope]
    exact .ok (h.modify hname hfind rfl hplain)

/-- EQU. -/
theorem Mirrors.leads_equate (h : m.Mirrors s') (hname : name ≠ Scope.radixName) {n : Expr}
    (hexec : (Eval.nameOf w.around n).exec s = (.ok name, s')) (loc : Location) (v : Expr) :
    (m.equate name v).Leads ((Bind.equate w loc n v).exec s) := by
  obtain ⟨sym, scope, hsym, hfind, hplain, hslot⟩ := h.exec_symbolOr hname (fun s => s.declareGlobal name)
    (Scope.promote {}) rfl fun hnone => Scope.declareGlobal_of_find?_eq_none hnone
  have hvalue : (m.slots name).value = sym.value := by
    rcases hslot with hslot | ⟨hslot, rfl⟩ <;> rw [hslot]
    rfl
  rw [Bind.equate, Act.exec_bind_of_ok hexec, Act.exec_bind_of_ok hsym, isSet_of_plain hplain, equate, hvalue]
  by_cases hset : sym.value.isSome = true
  · rw [if_pos hset, if_pos hset]
    -- a name that holds a value was found, and not declared
    have hslot : m.slots name = ⟨sym.value, sym.frozen⟩ := by
      rcases hslot with hslot | ⟨-, rfl⟩
      · exact hslot
      · cases hset
    have hsame := h.update hname hfind hplain
    rw [← hslot, bind_slots] at hsame
    exact .error (fun _ => rfl) hsame
  · rw [if_neg hset, if_neg hset, Act.exec_modifyScope]
    exact .ok (h.modify hname hfind rfl hplain)

/-- A radix in 2..36 is the radix of the scope from then on. -/
theorem Mirrors.setRadix (h : m.Mirrors s) {radix : Int64} (hrange : ¬(radix < 2 || 36 < radix) = true)
    (loc : Location) :
    { m with radix := radix.toInt.toNat }.Mirrors { s with
      scope := s.scope.modify Scope.radixName fun sym => { sym with value := some (.literal loc radix), loc } } := by
  obtain ⟨sym, hsym⟩ := Option.isSome_iff_exists.1 h.held
  simp only [Bool.or_eq_true, decide_eq_true_eq, not_or, Int64.not_lt] at hrange
  have hfind := Scope.find?_modify_of_find? hsym fun sym => { sym with value := some (.literal loc radix), loc }
  constructor
  · intro name hname
    dsimp only
    rw [hfind, if_neg hname]
    exact h.slots name hname
  · dsimp only
    rw [Scope.radix, hfind, if_pos rfl]
    simp only [Expr.literal, hrange.1, hrange.2, decide_true, Bool.and_self, if_true]
  · intro name sym' hsym'
    dsimp only at hsym'
    rw [hfind] at hsym'
    split at hsym'
    · cases hsym'
      exact h.plain Scope.radixName sym hsym
    · exact h.plain name sym' hsym'
  · dsimp only
    rw [hfind, if_pos rfl]
    rfl

/-- RADIX. -/
theorem Mirrors.leads_setRadix (h : m.Mirrors s) (loc : Location) (v : Expr) :
    (m.setRadix v).Leads ((Bind.setRadix loc v).exec s) := by
  cases v with
  | number l radix via =>
    rw [Bind.setRadix, Act.exec_bind_of_ok (Act.exec_scope s), Scope.setRadix, Memory.setRadix]
    by_cases hrange : (radix < 2 || 36 < radix) = true
    · rw [if_pos hrange, if_pos hrange]
      exact .error (Failure.isMild_raise rfl) h
    · rw [if_neg hrange, if_neg hrange]
      exact .ok (h.setRadix hrange loc)
  | numeral l digits =>
    exact .error (Failure.isMild_raise rfl) h
  | _ =>
    exact .error (fun _ => rfl) h

end Bind

section Statements

variable {m m' : Memory} {s : State} {t : Trail} {w : Workbench} {out : List Token}

/-- From a trail the second stage came to a result: what was added is ripe and yields an output, and the state
mirrors a memory. -/
def Reaches (u : Surroundings) (t : Trail) (m : Memory) (out : List Token) (r : Trail × State) : Prop :=
  ∃ items, r.1 = t.add ⟨items, false, r.2⟩ ∧ m.Mirrors r.2 ∧ (∀ i ∈ items, i.IsRipe u) ∧
    items.flatMap Item.yield = out

/-- A failure was reported that does not end the run. -/
theorem Reaches.report {u : Surroundings} {d : Diagnostic} (hd : d.isFatal = false) (hs : m.Mirrors s) :
    Reaches u t m [] (t.add ⟨[.message d], d.isFatal, s⟩, s) := by
  refine ⟨[.message d], by rw [hd], hs, fun i hi => ?_, rfl⟩
  rw [List.mem_singleton.1 hi]
  exact .message d hd

/-- A statement that binds a name leaves at most a diagnostic. -/
theorem Leads.reaches_localize {item : Item} {act : Act PUnit}
    (hlocalize : Pass.localize w item = liftM act) (hitem : item.token.isMessage = false)
    (h : m.Leads (act.exec s)) :
    Reaches w.around t m [] ((Stage.through w.block.inMacro (.localize w) [] item t).run s) := by
  rcases hexec : act.exec s with ⟨x, s'⟩
  rw [hexec] at h
  cases x with
  | ok a =>
    have hdone : (Pass.localize w item).exec (Output.empty w.block.inMacro, s) =
        (.ok ⟨⟩, (Output.empty w.block.inMacro, s')) := by
      rw [hlocalize, Emission.exec_monadLift_of_ok hexec]
    rw [Stage.run_through_last (Pass.run_handle_of_ok hitem hdone)]
    exact ⟨[], rfl, h.2, fun i hi => absurd hi List.not_mem_nil, rfl⟩
  | error f =>
    have hfailed : (Pass.localize w item).exec (Output.empty w.block.inMacro, s) =
        (.error f, (Output.empty w.block.inMacro, s')) := by
      rw [hlocalize, Emission.exec_monadLift_of_error hexec]
    rw [Stage.run_through_last (Pass.run_handle_of_error hitem hfailed)]
    exact .report (h.1 f rfl item.token.loc) h.2

/-- A statement whose evaluation fails is skipped. Otherwise the second stage goes on with what evaluation
gives. -/
theorem Mirrors.reaches_bindOne (hs : m.Mirrors s) (ht : t.stopped = false) {token : Token} {r : Option Token}
    (htoken : token.isMessage = false)
    (hreduce : Delivers m.Mirrors Failure.IsMild (Token.reduce w.around token) r)
    (hnone : r = none → m' = m ∧ out = [])
    (hsome : ∀ token', r = some token' → token'.isTerminal w.block.inMacro = false ∧
      ∀ pending s', m.Mirrors s' → Reaches w.around t m' out
        ((Stage.through w.block.inMacro (.localize w) [] ⟨token', pending⟩ t).run s')) :
    Reaches w.around t m' out ((Entry.bindOne w (.settled token) t).run s) := by
  -- evaluation marks names as used whether it fails or not, which the memory does not see
  obtain ⟨hresult, hmild, hs'⟩ := hreduce s hs
  rcases hexec : (Token.reduce w.around token).exec s with ⟨x, s'⟩
  rw [hexec] at hresult hmild hs'
  rw [Entry.bindOne]
  cases x with
  | error f =>
    obtain ⟨rfl, rfl⟩ := hnone hresult.symm
    rw [Stage.run_through_report ht (Pass.run_handle_of_error htoken (Pass.exec_reduceFirst_of_error hexec))]
    exact .report (hmild f rfl _) hs'
  | ok token' =>
    obtain ⟨hterminal, hrest⟩ := hsome token' hresult.symm
    rw [Stage.run_through_step ht (Pass.run_handle_of_ok htoken (Pass.exec_reduceFirst_of_ok hexec)) hterminal]
    exact hrest _ s' hs'

/-- The value of a SET or an EQU. -/
theorem Sound.reduceValue {u : Surroundings} (h : m.Sound u) {how : Assignment} (hhow : how ≠ .define)
    (n : Expr) {e : Expr} (hasks : ∀ name ∈ asked u m.radix (m.follow u) e true, m.Knows name)
    (hequate : how = .equate → ∀ name ∈ n.name?, name ∉ asked u m.radix (m.follow u) e true) :
    Delivers m.Mirrors Failure.IsMild (Token.reduceValue u how n e) (m.eval u e) := by
  have hplain : Delivers m.Mirrors Failure.IsMild (Eval.evaluate u true e) (m.eval u e) :=
    (h.provides []).evaluate fun name hname => ⟨hasks name hname, List.not_mem_nil⟩
  cases how with
  | set => exact hplain
  | equate =>
    cases n with
    | identifier loc name =>
      refine (h.provides [name]).definition fun other hother => ⟨hasks other hother, fun hmem => ?_⟩
      rw [List.mem_singleton.1 hmem] at hother
      exact hequate rfl name rfl hother
    | _ => exact hplain
  | define => exact absurd rfl hhow

/-- A statement that goes on with the name that an expression spells fails if that is none. -/
theorem Sound.leads_named {u : Surroundings} (h : m.Sound u) {n : Expr} (hn : Final u false n) (hs : m.Mirrors s)
    {act : Act PUnit} {g : Text → Memory}
    (hfails : ∀ f s', (Eval.nameOf u n).exec s = (.error f, s') → act.exec s = (.error f, s'))
    (hbinds : ∀ name ∈ n.name?, ∀ s', (Eval.nameOf u n).exec s = (.ok name, s') → m.Mirrors s' →
      (g name).Leads (act.exec s)) :
    ((n.name?.map g).getD m).Leads (act.exec s) := by
  have hspelled : spelled u m.radix (m.follow u) n = n.name? := by
    rw [spelled, (hn _ _).1]
    rfl
  have hasked : ∀ name ∈ asked u m.radix (m.follow u) n false, m.Knows name ∧ name ∉ [] := by
    rw [(hn _ _).2]
    exact fun name hname => absurd hname List.not_mem_nil
  obtain ⟨hresult, hmild, hs'⟩ := (h.provides []).nameOf hasked s hs
  rw [hspelled] at hresult
  rcases hexec : (Eval.nameOf u n).exec s with ⟨x, s'⟩
  rw [hexec] at hresult hmild hs'
  cases x with
  | ok name =>
    rw [← hresult]
    exact hbinds name hresult.symm s' hexec hs'
  | error f =>
    rw [← hresult, hfails f s' hexec]
    exact .error (hmild f rfl) hs'

variable (hargs : ∀ a ∈ w.around.args, ∀ p, Final w.around p a)
include hargs

/-- The second stage carries out a SET or an EQU. -/
theorem Sound.reaches_assign (h : m.Sound w.around) (hs : m.Mirrors s) (ht : t.stopped = false)
    {loc : Location} {how : Assignment} (hhow : how ≠ .define) {n e : Expr}
    (hready : m.Ready w.around (.assign loc how n e)) :
    Reaches w.around t (m.step w.around (.assign loc how n e)) []
      ((Entry.bindOne w (.settled (.assign loc how n e)) t).run s) := by
  obtain ⟨hasks, htarget, hequate⟩ := hready
  rw [Memory.asks, List.forall_mem_append] at hasks
  have hreduce : Delivers m.Mirrors Failure.IsMild (Token.reduce w.around (.assign loc how n e))
      ((outcome w.around m.radix (m.follow w.around) n false).bind fun n' =>
        (m.eval w.around e).map (.assign loc how n')) := by
    rw [Token.reduce]
    refine ((h.provides []).nameOnly fun name hname => ⟨hasks.1 name hname, List.not_mem_nil⟩).bind
      fun n' hn' => ((h.reduceValue hhow n' hasks.2 fun hhow name hname => ?_).map _)
    subst hhow
    exact hequate name (by rw [target, nameOf, spelled, hn']; exact hname)
  refine hs.reaches_bindOne ht rfl hreduce (fun hnone => ⟨?_, rfl⟩) fun token htoken => ?_
  · -- the name or the value is missing, and nothing happens
    rw [Memory.step, nameOf, spelled]
    cases hn : outcome w.around m.radix (m.follow w.around) n false with
    | none => rfl
    | some n' =>
      rw [hn] at hnone
      rw [Option.map_eq_none_iff.1 hnone, Option.bind_some]
      cases n'.name? with
      | none => rfl
      | some name => rfl
  · obtain ⟨n', hn', hmap⟩ := Option.bind_eq_some_iff.1 htoken
    obtain ⟨v, hv, rfl⟩ := Option.map_eq_some_iff.1 hmap
    have hname : m.nameOf w.around n = n'.name? := by
      rw [nameOf, spelled, hn']
      rfl
    have hstep : m.step w.around (.assign loc how n e) =
        (n'.name?.map fun name => m.assign how name v).getD m := by
      rw [Memory.step, hname, hv]
      cases n'.name? with
      | none => rfl
      | some name => rfl
    have hradix : ∀ name ∈ n'.name?, name ≠ Scope.radixName := by
      rw [← hname]
      exact htarget
    refine ⟨rfl, fun pending s' hs' => ?_⟩
    rw [hstep]
    have hfinal : Final w.around false n' := h.final hargs hn'
    cases how with
    | set =>
      exact Leads.reaches_localize (show Pass.localize w _ = liftM (Bind.assign w loc n' v) from rfl) rfl
        (h.leads_named hfinal hs' (fun f s1 => Act.exec_bind_of_error) fun name hname s1 hexec hs1 =>
          hs1.leads_assign (hradix name hname) hexec loc v)
    | equate =>
      exact Leads.reaches_localize (show Pass.localize w _ = liftM (Bind.equate w loc n' v) from rfl) rfl
        (h.leads_named hfinal hs' (fun f s1 => Act.exec_bind_of_error) fun name hname s1 hexec hs1 =>
          hs1.leads_equate (hradix name hname) hexec loc v)
    | define => exact absurd rfl hhow

/-- The second stage evaluates data, of which nothing is left to ask for. -/
theorem Sound.reaches_data (h : m.Sound w.around) (hs : m.Mirrors s) (ht : t.stopped = false) {loc : Location}
    {kind : DataKind} {es : List Expr} (hready : m.Ready w.around (.data loc kind es)) :
    Reaches w.around t m (m.output w.around (.data loc kind es))
      ((Entry.bindOne w (.settled (.data loc kind es)) t).run s) := by
  have hreduce : Delivers m.Mirrors Failure.IsMild (Token.reduce w.around (.data loc kind es))
      ((m.evalAll w.around es).map (.data loc kind)) := by
    rw [Token.reduce]
    exact ((h.provides []).evaluateAll fun name hname =>
      ⟨hready.asks name hname, List.not_mem_nil⟩).map _
  refine hs.reaches_bindOne ht rfl hreduce (fun hnone => ⟨rfl, ?_⟩) fun token htoken => ?_
  · rw [Memory.output, Option.map_eq_none_iff.1 hnone]
    rfl
  · obtain ⟨vs, hvs, rfl⟩ := Option.map_eq_some_iff.1 htoken
    refine ⟨rfl, fun pending s' hs' => ?_⟩
    rw [Stage.run_through_last (Entry.run_handle_localize_data w _ loc kind vs pending s'), Memory.output, hvs]
    have hfinal : FinalAll w.around true vs := Eval.finalAll_of_forall
      (Eval.final_of_outcomeAll hargs (fun l _ _ => h.follow l) es true vs hvs)
    refine ⟨[⟨.data loc kind vs, pending⟩], rfl, hs', fun i hi => ?_, List.append_nil _⟩
    rw [List.mem_singleton.1 hi]
    exact .data loc kind pending hfinal

omit hargs in
/-- The second stage carries out a RADIX. -/
theorem Sound.reaches_radix (h : m.Sound w.around) (hs : m.Mirrors s) (ht : t.stopped = false) {loc : Location}
    {e : Expr} (hready : m.Ready w.around (.radix loc e)) :
    Reaches w.around t (m.step w.around (.radix loc e)) []
      ((Entry.bindOne w (.settled (.radix loc e)) t).run s) := by
  have hreduce : Delivers m.Mirrors Failure.IsMild (Token.reduce w.around (.radix loc e))
      ((m.eval w.around e).map (.radix loc)) := by
    rw [Token.reduce]
    exact ((h.provides []).evaluate fun name hname => ⟨hready.asks name hname, List.not_mem_nil⟩).map _
  refine hs.reaches_bindOne ht rfl hreduce (fun hnone => ⟨?_, rfl⟩) fun token htoken => ?_
  · rw [Memory.step, Option.map_eq_none_iff.1 hnone]
    rfl
  · obtain ⟨v, hv, rfl⟩ := Option.map_eq_some_iff.1 htoken
    refine ⟨rfl, fun pending s' hs' => ?_⟩
    rw [Memory.step, hv]
    exact Leads.reaches_localize (show Pass.localize w _ = liftM (Bind.setRadix loc v) from rfl) rfl
      (hs'.leads_setRadix loc v)

/-- The second stage does with a statement what the interpreter does. -/
theorem Sound.reaches_statement (h : m.Sound w.around) (hs : m.Mirrors s) (ht : t.stopped = false) {token : Token}
    (htoken : token.isSequential = true) (hready : m.Ready w.around token) :
    Reaches w.around t (m.step w.around token) (m.output w.around token)
      ((Entry.bindOne w (.settled token) t).run s) := by
  cases token with
  | assign loc how n e =>
    cases how with
    | set => exact h.reaches_assign hargs hs ht (by decide) hready
    | equate => exact h.reaches_assign hargs hs ht (by decide) hready
    | define => cases htoken
  | radix loc e => exact h.reaches_radix hs ht hready
  | data loc kind es => exact h.reaches_data hargs hs ht hready
  | _ => cases htoken

/-- The second stage goes through a program as the interpreter does. -/
theorem Sound.exists_of_feed (h : m.Sound w.around) (hs : m.Mirrors s) (ht : t.stopped = false)
    {source : List Token} (hsource : ∀ token ∈ source, token.isSequential = true)
    (hready : m.ReadyAll w.around source) :
    ∃ items, ((Stage.feed (Entry.bindOne w) (source.map .settled) t).run s).1.items = t.items ++ items ∧
      (∀ i ∈ items, i.IsRipe w.around) ∧ items.flatMap Item.yield = m.run w.around source := by
  -- the memory, the trail and the state change with every statement
  induction source generalizing m t s with
  | nil => exact ⟨[], (List.append_nil _).symm, fun i hi => absurd hi List.not_mem_nil, rfl⟩
  | cons token rest ih =>
    rw [List.forall_mem_cons] at hsource
    rcases hrun : (Entry.bindOne w (.settled token) t).run s with ⟨t', s'⟩
    have hstep := h.reaches_statement hargs hs ht hsource.1 hready.1
    rw [hrun] at hstep
    obtain ⟨items, htrail, hs', hripe, hyield⟩ := hstep
    dsimp only at htrail hs'
    have ht' : t'.stopped = false := by rw [htrail, Trail.stopped_add, ht]; rfl
    obtain ⟨items', hitems', hripe', hyield'⟩ := ih (h.step hargs token) hs' ht' hsource.2 hready.2
    rw [List.map_cons, Stage.run_feed_cons ht hrun]
    refine ⟨items ++ items', ?_, List.forall_mem_append.2 ⟨hripe, hripe'⟩, ?_⟩
    · rw [hitems', htrail, Trail.items_add, List.append_assoc]
    · rw [List.flatMap_append, hyield, hyield', Memory.run]

end Statements

/-- The memory of a root scope whose names hold numbers and strings is sound. -/
theorem sound_memory (u : Surroundings) {scope : Scope}
    (h : ∀ name sym, scope.find? name = some sym → ∀ v ∈ sym.value, v.isConcrete = true) :
    scope.memory.Sound u := by
  intro name v hv
  rw [Scope.memory] at hv
  dsimp only at hv
  cases hfind : scope.find? name with
  | none =>
    rw [hfind] at hv
    cases hv
  | some sym =>
    rw [hfind] at hv
    have hconcrete := h name sym hfind v hv
    cases v with
    | numeral loc digits => exact Or.inl rfl
    | number loc n via => exact Or.inr (Eval.final_number loc n via)
    | string loc text via => exact Or.inr (Eval.final_string loc text via)
    | _ => cases hconcrete

/-- The state at the beginning of a program mirrors the memory of the root scope. -/
theorem mirrors_start {scope : Scope} (hradix : (scope.find? Scope.radixName).isSome = true)
    (hplain : ∀ name sym, scope.find? name = some sym → sym.template = none) :
    scope.memory.Mirrors (Assembler.start scope) where
  slots _ _ := rfl
  radix := rfl
  plain := hplain
  held := hradix

end Memory

section Finish

variable {w : Workbench} {item : Item} {t : Trail}

/-- Data whose values are final is evaluated to itself. -/
theorem Token.exec_reduce_of_final {u : Surroundings} {vs : List Expr} (h : FinalAll u true vs) (loc : Location)
    (kind : DataKind) (s : State) :
    ∃ s', (Token.reduce u (.data loc kind vs)).exec s = (.ok (.data loc kind vs), s') := by
  obtain ⟨s', hexec, -⟩ := Eval.exec_evaluateAll_of_final h s
  exact ⟨s', by rw [Token.reduce, Act.exec_bind_of_ok hexec]; rfl⟩

/-- What the last step emits for data yields what the interpreter puts out. -/
theorem Entry.products_completed (loc : Location) (kind : DataKind) (vs : List Expr) :
    Token.products ((Entry.completed loc kind vs).map Item.token) = Memory.encode kind vs := by
  rw [Entry.completed, Memory.encode]
  cases Encode.data kind vs with
  | error d => rfl
  | ok ts =>
    dsimp only
    rw [List.map_map]
    exact congrArg Token.products (List.map_id ts)

/-- The third stage puts out what a ripe item yields. -/
theorem Item.IsRipe.finish (h : item.IsRipe w.around) (ht : t.stopped = false) (s : State) :
    ∃ items s', (Entry.finishOne w item t).run s = (t.add ⟨items, false, s'⟩, s') ∧
      Token.products (items.map Item.token) = item.yield := by
  cases h with
  | message d hd =>
    refine ⟨[.message d], s, ?_, rfl⟩
    rw [Entry.finishOne, Stage.run_through_message ht rfl]
    exact congrArg (fun closed => (t.add ⟨[.message d], closed, s⟩, s)) hd
  | @data loc kind vs pending hfinal =>
    rw [Entry.finishOne]
    -- the values are the same whether or not they are evaluated again
    have hagain : ∃ s', ((Pass.reduceAgain w).handle w.block.inMacro ⟨.data loc kind vs, pending⟩).run s =
        ((Output.empty w.block.inMacro).push ⟨.data loc kind vs, false⟩, s') := by
      cases pending with
      | false => exact ⟨s, Pass.run_handle_of_ok rfl rfl⟩
      | true =>
        obtain ⟨s', hexec⟩ := Token.exec_reduce_of_final hfinal loc kind s
        exact ⟨s', Pass.run_handle_of_ok rfl (Pass.exec_reduceAgain_of_ok rfl hexec)⟩
    obtain ⟨s', hagain⟩ := hagain
    rw [Stage.run_through_step ht hagain rfl, Entry.run_through_data ht, Entry.run_through_complete]
    exact ⟨_, _, rfl, Entry.products_completed loc kind vs⟩

/-- The third stage puts out what ripe items yield. -/
theorem Stage.products_feed_finish {items : List Item} (hitems : ∀ i ∈ items, i.IsRipe w.around)
    (ht : t.stopped = false) (s : State) :
    Token.products ((feed (Entry.finishOne w) items t).run s).1.tokens =
      Token.products t.tokens ++ items.flatMap Item.yield := by
  induction items generalizing t s with
  | nil => exact (List.append_nil _).symm
  | cons item rest ih =>
    rw [List.forall_mem_cons] at hitems
    obtain ⟨added, s', hrun, hyield⟩ := hitems.1.finish ht s
    rw [run_feed_cons ht hrun, ih hitems.2 (by rw [Trail.stopped_add, ht]; rfl), Trail.tokens, Trail.items_add,
      List.map_append, Token.products_append, hyield, List.flatMap_cons, List.append_assoc]
    rfl

end Finish

/-- A program of SET, EQU, RADIX and data over a root scope that binds names to numbers and strings, in which each
statement can be carried out where it stands, gives the output of the one-pass interpreter. -/
theorem Assembler.assemble_sequential (a : Assembler) (scope : Scope)
    (hradix : (scope.find? Scope.radixName).isSome = true)
    (hscope : ∀ name sym, scope.find? name = some sym →
      sym.template = none ∧ ∀ v ∈ sym.value, v.isConcrete = true) (source : List Token)
    (hsource : ∀ t ∈ source, t.isSequential = true)
    (hready : scope.memory.ReadyAll a.outermost.around source) :
    Token.products (a.assemble scope source).tokens = scope.memory.run a.outermost.around source := by
  let w : Workbench := ⟨a, a.outermost, a.runner a.maxDepth⟩
  have hsound := Memory.sound_memory w.around fun name sym hsym => (hscope name sym hsym).2
  have hstart := Memory.mirrors_start hradix fun name sym hsym => (hscope name sym hsym).1
  have hargs : ∀ arg ∈ w.around.args, ∀ p, Final w.around p arg := fun arg harg => absurd harg List.not_mem_nil
  rcases hbind : (Stage.feed (Entry.bindOne w) (source.map .settled) Trail.empty).run (Assembler.start scope)
    with ⟨t, s⟩
  obtain ⟨items, hitems, hripe, hyield⟩ := hsound.exists_of_feed hargs hstart rfl hsource hready
    (t := Trail.empty)
  rw [hbind] at hitems
  have hitems : t.items = items := hitems
  have hrun := Workbench.run_of_forall w hsource hbind
  rcases hfinish : (w.finishStage t.items).run s with ⟨t', s'⟩
  rw [hfinish] at hrun
  -- the diagnostics come first, and are no products
  have hfirst : ∀ i ∈ Stage.messagesFirst t.items, i.IsRipe w.around := by
    intro i hi
    rw [Stage.mem_messagesFirst, hitems] at hi
    exact hripe i hi
  have hproducts := Stage.products_feed_finish hfirst (t := Trail.empty) rfl s
  rw [← Entry.finishStage_eq, hfinish, Stage.flatMap_messagesFirst, hitems, hyield] at hproducts
  rw [Entry.products_assemble hrun]
  exact hproducts

namespace Memory

/-- `A SET 1`, `DB A`, `A SET A+1`, `RADIX 16`, `DW A,10`, `B EQU A`, `B EQU 7` and `DB B`. -/
def counting : List Token :=
  let name (text : Text) : Expr := .identifier Location.none text
  let number (n : Int64) : Expr := .literal Location.none n
  [.assign Location.none .set (name "A") (number 1),
    .data Location.none .bytes [name "A"],
    .assign Location.none .set (name "A") (.binary Location.none .add (name "A") (number 1)),
    .radix Location.none (number 16),
    .data Location.none .words [name "A", .numeral Location.none "10"],
    .assign Location.none .equate (name "B") (name "A"),
    .assign Location.none .equate (name "B") (number 7),
    .data Location.none .bytes [name "B"]]

end Memory

open Memory in
/-- Values change from statement to statement, and so does the radix. A second EQU is skipped. -/
theorem Assembler.assemble_sequential_counting :
    Token.products (assemble (.bare 0) Scope.initial counting).tokens =
        Scope.initial.memory.run (outermost (.bare 0)).around counting ∧
      Scope.initial.memory.run (outermost (.bare 0)).around counting =
        [.bytes Location.none [1], .bytes Location.none [2, 0, 16, 0], .bytes Location.none [2]] := by
  refine ⟨assemble_sequential _ Scope.initial rfl (fun name sym hsym => ?_) counting (by decide +kernel)
    (by decide +kernel), rfl⟩
  rw [Scope.find?_eq, Scope.initial, Frame.find?_insert] at hsym
  split at hsym
  · cases hsym
    refine ⟨rfl, fun v hv => ?_⟩
    cases hv
    rfl
  · cases hsym

end MacroAsm
