import MacroAsm.Proofs.Assembly.Ordering

/-!
# Meeting the limit of nesting

Blocks nest up to a limit, and a statement that would begin a block beyond it fails. Here the handling of a
statement is compared with its handling by a workbench that nests blocks further: the two are the same until
the first one meets the limit (`Emission.Until`). Where it does, its output ends with the diagnostic of the
limit, and nothing that was emitted before is to be expanded (`Output.Overrun`). This holds of every
statement that begins blocks, and so of the steps that handle them (`Pass.until_localize`,
`Pass.until_expandRest`).
-/

namespace MacroAsm

variable {inMacro : Bool}

/-- The diagnostic of a block that would be nested too deep. -/
def Assembler.IsLimit (a : Assembler) (d : Diagnostic) : Prop :=
  ∃ loc, d = .fatal loc ("Maximum nesting depth of " ++ Text.ofNat a.maxDepth ++ " exceeded")

/-- The limit is fatal. -/
theorem Assembler.IsLimit.isFatal {a : Assembler} {d : Diagnostic} (h : a.IsLimit d) :
    d.isFatal = true := by
  obtain ⟨loc, rfl⟩ := h
  rfl

/-- The diagnostic of the limit gets a location. -/
theorem Assembler.IsLimit.locate {a : Assembler} {d : Diagnostic} (h : a.IsLimit d) (loc : Location) :
    a.IsLimit (d.locate loc) := by
  obtain ⟨l, rfl⟩ := h
  exact ⟨l.orElse loc, rfl⟩

/-- Two runners assemble blocks in the same way, unless the first one meets the limit. -/
def Runner.Until (a : Assembler) (run run' : Runner) : Prop :=
  ∀ b body s, (run' b body).run s = (run b body).run s ∨
    ∃ before d, ((run b body).run s).1 = before ++ [.message d] ∧ a.IsLimit d ∧
      ∀ t ∈ before, t.isTerminal b.inMacro = false

/-- An output that goes on, and in which nothing is to be expanded. -/
structure Output.Calm (inMacro : Bool) (o : Output) : Prop where
  /-- Nothing is to be expanded. -/
  ordered : o.Ordered inMacro Item.IsExpanded
  /-- It goes on. -/
  isOpen : o.closed = false

/-- An item is a diagnostic with a property. -/
def Item.Says (D : Diagnostic → Prop) (i : Item) : Prop := ∃ d, i.token = .message d ∧ D d

/-- An output that ends with a diagnostic with a property. -/
structure Output.Overrun (D : Diagnostic → Prop) (inMacro : Bool) (o : Output) : Prop where
  /-- Nothing is to be expanded. -/
  ordered : o.Ordered inMacro Item.IsExpanded
  /-- It is closed. -/
  isClosed : o.closed = true
  /-- The diagnostic is the last item. -/
  last : ∃ i rest, o.reversed = i :: rest ∧ i.Says D

namespace Output

variable {D : Diagnostic → Prop} {o : Output}

/-- The items of a list are emitted before another one. -/
theorem pushAll_concat (o : Output) (items : List Item) (i : Item) :
    o.pushAll (items ++ [i]) = (o.pushAll items).push i := by
  rw [pushAll, List.foldl_append]
  rfl

/-- A fatal diagnostic ends an output. -/
theorem Calm.overrun (ho : o.Calm inMacro) {d : Diagnostic} (hfatal : d.isFatal = true) (hd : D d) :
    (o.push (.message d)).Overrun D inMacro := by
  refine ⟨ho.ordered.push rfl, ?_, .message d, o.reversed, ?_, d, rfl, hd⟩
  · rw [push, ho.isOpen]
    exact hfatal
  · rw [push, ho.isOpen]
    rfl

/-- Items that are neither terminal nor to be expanded leave an output as calm as it was. -/
theorem Calm.pushAll (ho : o.Calm inMacro) {items : List Item}
    (h : ∀ i ∈ items, i.IsExpanded ∧ i.token.isTerminal inMacro = false) :
    (o.pushAll items).Calm inMacro := by
  refine ⟨ho.ordered.pushAll fun i hi => (h i hi).1, (items_pushAll ho.isOpen ?_).2⟩
  rw [ho.ordered.kind]
  exact fun i hi => (h i hi).2

/-- An output that ends with a diagnostic is made of items before it. -/
theorem Overrun.items (ho : o.Overrun D inMacro) : ∃ before i, o.items = before ++ [i] ∧
    i.Says D ∧ ∀ i ∈ before, i.IsExpanded ∧ i.token.isTerminal inMacro = false := by
  obtain ⟨last, rest, hreversed, hd⟩ := ho.last
  refine ⟨rest.reverse, last, ?_, hd, fun i hi => ⟨ho.ordered.holds i ?_, ho.ordered.before i ?_⟩⟩
  · rw [Output.items, hreversed, List.reverse_cons]
  · rw [hreversed]
    exact List.mem_cons_of_mem _ (List.mem_reverse.1 hi)
  · rw [hreversed]
    exact List.mem_reverse.1 hi

end Output

namespace Emission

variable {α β : Type} {a : Assembler} {p : Output × State} {ends : Bool}

/-- A handling met a diagnostic with a property: it failed with it, or the output of a nested block, which is
the last that a handling emits, ended with it. -/
def Meets (D : Diagnostic → Prop) (inMacro ends : Bool) (r : Except Failure α × (Output × State)) : Prop :=
  (∃ d, r.1 = .error (.report d) ∧ D d ∧ r.2.1.Calm inMacro) ∨
    ends = true ∧ r.2.1.Overrun D inMacro

/-- Two handlings do the same, unless the first one meets the limit. -/
def Until (a : Assembler) (inMacro ends : Bool) (e e' : Emission α) (p : Output × State) : Prop :=
  e'.exec p = e.exec p ∨ Meets a.IsLimit inMacro ends (e.exec p)

theorem Until.refl (e : Emission α) : Until a inMacro ends e e p := Or.inl rfl

/-- Handlings that go on with the results of others. -/
theorem Until.bind {e e' : Emission α} {k k' : α → Emission β} (he : Until a inMacro false e e' p)
    (hk : ∀ x q, e.exec p = (.ok x, q) → Until a inMacro ends (k x) (k' x) q) :
    Until a inMacro ends (e >>= k) (e' >>= k') p := by
  rcases hexec : e.exec p with ⟨r, q⟩
  rcases he with heq | ⟨d, hr, hd, hcalm⟩ | ⟨hends, -⟩
  · rw [hexec] at heq
    cases r with
    | ok x =>
      rw [Until, exec_bind_of_ok hexec, exec_bind_of_ok heq]
      exact hk x q hexec
    | error f =>
      rw [Until, exec_bind_of_error hexec, exec_bind_of_error heq]
      exact Or.inl rfl
  · rw [hexec] at hr hcalm
    cases hr
    rw [Until, exec_bind_of_error hexec]
    exact Or.inr (Or.inl ⟨d, rfl, hd, hcalm⟩)
  · cases hends

/-- Handlings that go on with the result of the same action. -/
theorem Until.act {act : Act α} {k k' : α → Emission β}
    (hk : ∀ x s', act.exec p.2 = (.ok x, s') → Until a inMacro ends (k x) (k' x) (p.1, s')) :
    Until a inMacro ends (liftM act >>= k) (liftM act >>= k') p := by
  refine (Until.refl _).bind fun x q hq => ?_
  rw [exec_monadLift] at hq
  obtain ⟨hx, rfl⟩ := Prod.mk.inj hq
  exact hk x _ (Prod.ext hx rfl)

/-- Handlings that go on with the result of the same computation. -/
theorem Until.require {x : Except Cause α} {k k' : α → Emission β}
    (hk : ∀ y, Until a inMacro ends (k y) (k' y) p) :
    Until a inMacro ends (Emission.require x >>= k) (Emission.require x >>= k') p := by
  refine (Until.refl _).bind fun y q hq => ?_
  rw [exec_require] at hq
  cases x with
  | ok z =>
    cases hq
    exact hk y
  | error c => cases hq

/-- Handlings that go on with the same nested block. -/
theorem Until.fresh {naming : Naming} {args : List Expr} {kind : Bool} {k k' : Block → Emission β}
    (hk : ∀ b s', b.inMacro = kind → Until a inMacro ends (k b) (k' b) (p.1, s')) :
    Until a inMacro ends (liftM (Block.fresh naming args kind) >>= k)
      (liftM (Block.fresh naming args kind) >>= k') p := by
  have hfresh : (Block.fresh naming args kind).exec p.2 =
      (.ok ⟨⟨naming.name p.2.supply, args⟩, kind, true⟩, { p.2 with supply := p.2.supply + 1 }) := rfl
  refine .act fun b s' hb => hk b s' ?_
  rw [hfresh] at hb
  rw [← Except.ok.inj (Prod.mk.inj hb).1]

end Emission

open Emission (Until)

/-- Two ways to assemble nested blocks are the same, unless the first one meets the limit. -/
structure Workbench.Until (w : Workbench) (other : Option Runner) : Prop where
  /-- Nested blocks are expanded. -/
  finishes : w.Finishes
  /-- Where there is a runner the other one does the same. -/
  runner : ∀ run, w.runner = some run → ∃ run', other = some run' ∧ run.Until w.assembler run'

section Expansion

variable {w : Workbench} {other : Option Runner} {p : Output × State} {ends : Bool}

/-- Where no more blocks may be nested the limit is met. -/
theorem Workbench.Until.requireRunner {α : Type} {k k' : Runner → Emission α} (hw : w.Until other)
    (hp : p.1.Calm inMacro)
    (hk : ∀ run run' : Runner, run.Finishes → run.Until w.assembler run' →
      Emission.Until w.assembler inMacro ends (k run) (k' run') p) :
    Emission.Until w.assembler inMacro ends (w.requireRunner >>= k)
      (Workbench.requireRunner { w with runner := other } >>= k') p := by
  cases hrunner : w.runner with
  | none =>
    refine Or.inr (Or.inl ⟨_, ?_, ⟨Location.none, rfl⟩, ?_⟩)
    · rw [Workbench.requireRunner, hrunner]
      rfl
    · rw [Workbench.requireRunner, hrunner]
      exact hp
  | some run =>
    obtain ⟨run', hother, huntil⟩ := hw.runner run hrunner
    have hleft : w.requireRunner = pure run := by rw [Workbench.requireRunner, hrunner]
    have hright : Workbench.requireRunner { w with runner := other } = pure run' := by
      rw [Workbench.requireRunner, hother]
    rw [hleft, hright]
    exact hk run run' (hw.finishes run hrunner) huntil

namespace Expand

/-- No token of a nested block before the limit ends the block around. -/
def Fits (inMacro macroCall : Bool) (b : Block) : Prop :=
  ∀ t : Token, t.isTerminal b.inMacro = false → isDropped macroCall t = false →
    t.isTerminal inMacro = false

theorem fits_same {b : Block} (h : b.inMacro = inMacro) : Fits inMacro false b := by
  intro t ht _
  rwa [h] at ht

/-- A macro call, of which EXITM is dropped. -/
theorem fits_call {b : Block} (h : b.inMacro = true) : Fits inMacro true b := by
  intro t ht hdropped
  rw [h] at ht
  cases t with
  | exitMacro => cases ht
  | _ => exact ht

/-- The output of a nested block that ended with a fatal diagnostic. -/
theorem overrun_splice {D : Diagnostic → Prop} {run : Runner} {b : Block} {body : List Token} {macroCall : Bool}
    (hfits : Fits inMacro macroCall b) (hrun : run.Finishes) {o : Output} (ho : o.Calm inMacro) {s : State}
    {before : List Token} {d : Diagnostic} (hts : ((run b body).run s).1 = before ++ [.message d])
    (hfatal : d.isFatal = true) (hd : D d) (hbefore : ∀ t ∈ before, t.isTerminal b.inMacro = false) :
    (o.pushAll ((((run b body).run s).1.filter fun t => !isDropped macroCall t).map .spliced)).Overrun D
      inMacro := by
  have hlast : [Token.message d].filter (fun t => !isDropped macroCall t) = [.message d] := rfl
  have hexpanded := hrun b body s
  rw [hts] at hexpanded ⊢
  rw [List.filter_append, hlast, List.map_append, List.map_singleton, Output.pushAll_concat]
  refine Output.Calm.overrun (ho.pushAll fun i hi => ?_) hfatal hd
  obtain ⟨t, ht, rfl⟩ := List.mem_map.1 hi
  obtain ⟨hmem, hkept⟩ := List.mem_filter.1 ht
  exact ⟨hexpanded t (List.mem_append_left _ hmem), hfits t (hbefore t hmem) (by simpa using hkept)⟩

/-- The output of a nested block takes its place. -/
theorem until_splice {a : Assembler} {run run' : Runner} (hrun : run.Finishes) (huntil : run.Until a run')
    {b : Block} (hfits : Fits inMacro false b) {o : Output} (ho : o.Calm inMacro) (s : State)
    (body : List Token) :
    Until a inMacro true (do splice false (← Emission.perform (run b body)))
      (do splice false (← Emission.perform (run' b body))) (o, s) := by
  rcases huntil b body s with heq | ⟨before, d, hts, hd, hbefore⟩
  · refine Or.inl ?_
    rw [Emission.exec_bind_of_ok (Emission.exec_perform _ _),
      Emission.exec_bind_of_ok (Emission.exec_perform _ _), heq]
  · refine Or.inr (Or.inr ⟨rfl, ?_⟩)
    rw [Emission.exec_bind_of_ok (Emission.exec_perform _ _)]
    exact overrun_splice hfits hrun ho hts hd.isFatal hd hbefore

/-- A nested block is assembled and accounted for. -/
theorem until_expand {a : Assembler} {run run' : Runner} (hrun : run.Finishes) (huntil : run.Until a run')
    {b : Block} {macroCall : Bool} (hfits : Fits inMacro macroCall b) {o : Output} (ho : o.Calm inMacro)
    (s : State) (scope : Scope) (body : List Token) :
    Until a inMacro true (expand run b scope body macroCall) (expand run' b scope body macroCall)
      (o, s) := by
  -- what follows the statements of the block
  have hexec : ∀ {run : Runner} {ts : List Token} {s' : State},
      (run b body).run { s with scope } = (ts, s') →
      (expand run b scope body macroCall).exec (o, s) = (do
        splice macroCall ts
        if !(← Emission.isClosed) then Emission.emitAll (← Emission.perform (account b.nested))
        Act.modifyScope Scope.unnest : Emission PUnit).exec (o, s') := by
    intro run ts s' h
    have hset : (liftM (Act.setScope scope) : Emission PUnit).exec (o, s) =
      (.ok ⟨⟩, (o, { s with scope })) := rfl
    rw [expand, Emission.exec_bind_of_ok hset, Emission.exec_bind_of_ok (Emission.exec_perform _ _), h]
  rcases hr : (run b body).run { s with scope } with ⟨ts, s'⟩
  rcases huntil b body { s with scope } with heq | ⟨before, d, hts, hd, hbefore⟩
  · refine Or.inl ?_
    rw [hexec hr, hexec (heq.trans hr)]
  · have hover := overrun_splice hfits hrun ho hts hd.isFatal hd hbefore
    rw [hr] at hover
    refine Or.inr (Or.inr ⟨rfl, ?_⟩)
    rw [hexec hr, splice, Emission.exec_bind_of_ok (Emission.exec_emitItems _ _),
      Emission.exec_bind_of_ok (Emission.exec_isClosed _), hover.isClosed]
    exact hover

/-- INCLUDE. -/
theorem until_inclusion (hw : w.Until other) (hkind : w.block.inMacro = inMacro) (hp : p.1.Calm inMacro)
    (loc : Location) (path : Expr) (loader : Option Expr) :
    Until w.assembler inMacro true (inclusion w loc path loader)
      (inclusion { w with runner := other } loc path loader) p := by
  rw [inclusion, inclusion]
  dsimp only
  split
  · exact .refl _
  · rename_i find _
    split
    · exact .refl _
    · refine .require fun path => ?_
      have hfound : ∀ body : List Token, Until w.assembler inMacro true
          (do
            let run ← w.requireRunner
            let b ← Block.fresh w.assembler.naming w.around.args w.block.inMacro
            splice false (← Emission.perform (run b body)))
          (do
            let run ← Workbench.requireRunner { w with runner := other }
            let b ← Block.fresh w.assembler.naming w.around.args w.block.inMacro
            splice false (← Emission.perform (run b body))) p := by
        intro body
        refine hw.requireRunner hp fun run run' hrun huntil => .fresh fun b s' hb => ?_
        exact until_splice hrun huntil (fits_same (hb.trans hkind)) hp s' _
      cases loader with
      | none =>
        refine Until.require (x := .ok Text.empty) fun loader => ?_
        split
        · exact .refl _
        · exact hfound _
      | some e =>
        refine .require fun loader => ?_
        split
        · exact .refl _
        · exact hfound _

/-- A macro call. -/
theorem until_call (hw : w.Until other) (hp : p.1.Calm inMacro) (strict : Bool) (item : Item)
    (d : Dispatch) : Until w.assembler inMacro true (call w strict item d)
      (call { w with runner := other } strict item d) p := by
  refine .act fun scope s hs => ?_
  split
  · exact .refl _
  · split
    · exact .refl _
    · refine .act fun _ s hs => ?_
      split
      · exact .refl _
      · refine hw.requireRunner hp fun run run' hrun huntil => .fresh fun b s' hb => ?_
        refine .act fun scope s hs => .require fun scope => ?_
        exact until_expand hrun huntil (fits_call hb) hp s scope _

end Expand

namespace Replay

/-- One iteration. -/
theorem until_turn (hw : w.Until other) (hkind : w.block.inMacro = inMacro) (hp : p.1.Calm inMacro)
    (l : Loop) (k : Nat) (value : Option Expr) :
    Until w.assembler inMacro true (l.turn w k value) (l.turn { w with runner := other } k value) p := by
  refine hw.requireRunner hp fun run run' hrun huntil => .fresh fun b s' hb => ?_
  refine .act fun scope s hs => .require fun scope => ?_
  exact Expand.until_expand hrun huntil (Expand.fits_same (hb.trans hkind)) hp s scope _

/-- What follows a turn is not done once the output is closed, so that the turns that are left do the same if
each one does. -/
theorem until_step {a : Assembler} {turn turn' rest rest' : Emission PUnit}
    (hp : p.1.Ordered inMacro Item.IsExpanded)
    (hturn : p.1.Calm inMacro → Until a inMacro true turn turn' p)
    (hemits : Emission.Emits inMacro Item.IsExpanded turn)
    (hrest : ∀ q : Output × State, q.1.Ordered inMacro Item.IsExpanded → Until a inMacro true rest rest' q)
    (hclosed : ∀ q : Output × State, q.1.closed = true → rest.exec q = (.ok ⟨⟩, q)) :
    Until a inMacro true
      (do if ← Emission.isClosed then return ⟨⟩ else turn; rest)
      (do if ← Emission.isClosed then return ⟨⟩ else turn'; rest') p := by
  rw [Until, Emission.exec_bind_of_ok (Emission.exec_isClosed p),
    Emission.exec_bind_of_ok (Emission.exec_isClosed p)]
  cases hopen : p.1.closed with
  | true => exact Or.inl rfl
  | false =>
    rw [if_neg Bool.false_ne_true, if_neg Bool.false_ne_true]
    have hordered := hemits p hp
    rcases hexec : turn.exec p with ⟨r, q⟩
    rw [hexec] at hordered
    rcases hturn ⟨hp, hopen⟩ with heq | hmeets
    · exact Emission.Until.bind (Or.inl heq) fun x q' hq' => hrest q' (by
        rw [hexec] at hq'
        cases hq'
        exact hordered)
    · rw [hexec] at hmeets
      cases r with
      | error f =>
        rw [Emission.exec_bind_of_error hexec]
        rcases hmeets with ⟨d, hd, hrest⟩ | hover
        · cases hd
          exact Or.inr (Or.inl ⟨d, rfl, hrest⟩)
        · exact Or.inr (Or.inr hover)
      | ok x =>
        rcases hmeets with ⟨d, hd, -⟩ | ⟨-, hover⟩
        · cases hd
        · rw [Emission.exec_bind_of_ok hexec, hclosed q hover.isClosed]
          exact Or.inr (Or.inr ⟨rfl, hover⟩)

/-- Turns that are counted. -/
theorem until_times {a : Assembler} {turn turn' : Nat → Emission PUnit}
    (hturn : ∀ k (q : Output × State), q.1.Calm inMacro → Until a inMacro true (turn k) (turn' k) q)
    (hemits : ∀ k, Emission.Emits inMacro Item.IsExpanded (turn k)) (n k : Nat) (p : Output × State)
    (hp : p.1.Ordered inMacro Item.IsExpanded) :
    Until a inMacro true (times turn n k) (times turn' n k) p := by
  induction n generalizing k p with
  | zero => exact .refl _
  | succ n ih =>
    refine until_step hp (hturn k p) (hemits k) (ih (k + 1)) fun q hq => ?_
    cases n with
    | zero => rfl
    | succ n =>
      rw [times, Emission.exec_bind_of_ok (Emission.exec_isClosed q), hq]
      rfl

/-- Turns for the elements of a list. -/
theorem until_each {a : Assembler} {turn turn' : Nat → Expr → Emission PUnit}
    (hturn : ∀ k e (q : Output × State), q.1.Calm inMacro →
      Until a inMacro true (turn k e) (turn' k e) q)
    (hemits : ∀ k e, Emission.Emits inMacro Item.IsExpanded (turn k e)) (es : List Expr) (k : Nat)
    (p : Output × State) (hp : p.1.Ordered inMacro Item.IsExpanded) :
    Until a inMacro true (each turn es k) (each turn' es k) p := by
  induction es generalizing k p with
  | nil => exact .refl _
  | cons e rest ih =>
    refine until_step hp (hturn k e p) (hemits k e) (ih (k + 1)) fun q hq => ?_
    cases rest with
    | nil => rfl
    | cons e' rest =>
      rw [each, Emission.exec_bind_of_ok (Emission.exec_isClosed q), hq]
      rfl

/-- DUP, DUPA, DUPC and DUPF. -/
theorem until_dup (hw : w.Until other) (hkind : w.block.inMacro = inMacro) (hp : p.1.Calm inMacro)
    (strict : Bool) (item : Item) (loc : Location) (counter : Option Expr) (iteration : Iteration)
    (body : List Token) :
    Until w.assembler inMacro true (dup w strict item loc counter iteration body)
      (dup { w with runner := other } strict item loc counter iteration body) p := by
  have hemits : ∀ (l : Loop) k value, Emission.Emits inMacro Item.IsExpanded (l.turn w k value) :=
    emits_turn (fun _ h => h) hw.finishes
  have htimes : ∀ (l : Loop) (value : Nat → Option Expr) n s, Until w.assembler inMacro true
      (times (fun k => l.turn w k (value k)) n 0)
      (times (fun k => l.turn { w with runner := other } k (value k)) n 0) (p.1, s) :=
    fun l value n s => until_times (fun k q hq => until_turn hw hkind hq l k (value k))
      (fun k => hemits l k (value k)) n 0 (p.1, s) hp.ordered
  have heach : ∀ (l : Loop) es s, Until w.assembler inMacro true
      (each (fun k e => l.turn w k (some e)) es 0)
      (each (fun k e => l.turn { w with runner := other } k (some e)) es 0) (p.1, s) :=
    fun l es s => until_each (fun k e q hq => until_turn hw hkind hq l k (some e))
      (fun k e => hemits l k (some e)) es 0 (p.1, s) hp.ordered
  cases iteration with
  | count n =>
    rw [dup, dup]
    split
    · exact .require fun n => .act fun counter s _ => htimes _ (fun _ => none) _ s
    · exact .refl _
  | list element items =>
    rw [dup, dup]
    split
    · exact .refl _
    · exact .act fun counter s _ => .act fun element s _ => heach _ items s
  | characters element strings =>
    rw [dup, dup]
    split
    · exact .refl _
    · exact .act fun counter s _ => .act fun element s _ => .require fun items => heach _ items s
  | sequence element first last step =>
    rw [dup, dup, sequence, sequence]
    split
    · exact .refl _
    · refine .require fun start => .require fun stride => ?_
      split
      · exact .refl _
      · refine .require fun stop => ?_
        split
        · exact .refl _
        · refine .act fun counter s _ => .act fun element s _ => ?_
          rw [walk_eq_times, walk_eq_times]
          exact htimes _ _ _ s

end Replay

/-- What does not end a block is not fatal. -/
theorem Token.isFatal_of_isTerminal {t : Token} (h : t.isTerminal inMacro = false) :
    t.isFatal = false := by
  cases t with
  | message d => exact h
  | _ => rfl

namespace Conditional

/-- A fatal diagnostic after others that are not is the first one. -/
theorem firstFatal?_concat {before : List Token} (h : ∀ t ∈ before, t.isFatal = false) {d : Diagnostic}
    (hd : d.isFatal = true) : firstFatal? (before ++ [.message d]) = some d := by
  induction before with
  | nil => rw [List.nil_append, firstFatal?, if_pos hd]
  | cons t rest ih =>
    rw [List.forall_mem_cons] at h
    cases t with
    | message d' =>
      have hd' : d'.isFatal = false := h.1
      rw [List.cons_append, firstFatal?, hd', if_neg Bool.false_ne_true]
      exact ih h.2
    | _ => exact ih h.2

/-- The whole output of a nested block. -/
theorem until_collect {a : Assembler} {run run' : Runner} (huntil : run.Until a run') (b : Block)
    (body : List Token) (s : State) :
    (collect run' b body).run s = (collect run b body).run s ∨
      ∃ d, firstFatal? ((collect run b body).run s).1 = some d ∧ a.IsLimit d := by
  rcases huntil b body s with heq | ⟨before, d, hts, hd, hbefore⟩
  · refine Or.inl ?_
    rw [collect, collect, StateM.run_bind, StateM.run_bind, heq]
  · refine Or.inr ⟨d, ?_, hd⟩
    have hfirst : firstFatal? ((run b body).run s).1 = some d := by
      rw [hts]
      exact firstFatal?_concat (fun t ht => Token.isFatal_of_isTerminal (hbefore t ht)) hd.isFatal
    rw [collect, StateM.run_bind, hfirst]
    exact hfirst

/-- An arm is assembled against a copy of the scope. -/
theorem until_prospect (hw : w.Until other) (hp : p.1.Calm inMacro) (body : List Token) :
    Until w.assembler inMacro false (prospect w body) (prospect { w with runner := other } body) p := by
  refine .act fun scope s _ => hw.requireRunner hp fun run run' hrun huntil => ?_
  refine .fresh fun b s _ => .act fun _ s _ => ?_
  rcases until_collect huntil b body s with heq | ⟨d, hfirst, hd⟩
  · refine Or.inl ?_
    rw [Emission.exec_bind_of_ok (Emission.exec_perform _ _),
      Emission.exec_bind_of_ok (Emission.exec_perform _ _), heq]
  · refine Or.inr (Or.inl ⟨d, ?_, hd, ?_⟩)
    all_goals
      rw [Emission.exec_bind_of_ok (Emission.exec_perform _ _)]
      simp only [hfirst]
    · rfl
    · exact hp

/-- The arms are gone through up to the first that is known to be taken. -/
theorem until_sift (hw : w.Until other) (hp : p.1.Calm inMacro) (otherwise : Option (List Token))
    (clauses : List Clause) :
    Until w.assembler inMacro false (sift w otherwise clauses)
      (sift { w with runner := other } otherwise clauses) p := by
  induction clauses generalizing p with
  | nil => exact .refl _
  | cons c rest ih =>
    obtain ⟨test, body⟩ := c
    rw [sift, sift]
    split
    · refine .require fun truth => ?_
      split
      · exact .refl _
      · exact ih hp
    · refine (until_prospect hw hp body).bind fun fork q hq => ?_
      have hsame : q.1 = p.1 := by
        have hsilent := silent_prospect (w := w) body p
        rwa [hq] at hsilent
      exact (ih (by rwa [hsame])).bind fun arms q' _ => .refl _

/-- The arm that is taken otherwise. -/
theorem until_alternative (hw : w.Until other) (hp : p.1.Calm inMacro) (otherwise : Option (List Token)) :
    Until w.assembler inMacro false (alternative w otherwise)
      (alternative { w with runner := other } otherwise) p := by
  cases otherwise with
  | none => exact .refl _
  | some body =>
    rw [alternative, alternative, map_eq_pure_bind, map_eq_pure_bind]
    exact (until_prospect hw hp body).bind fun _ _ _ => .refl _

/-- The diagnostics of the arms leave the output as calm as it was. -/
theorem calm_messages {forks : List (Expr × Fork)} (h : ∀ fork ∈ forks, fork.2.IsQuiet)
    (hp : p.1.Calm inMacro) {r : Except Failure PUnit} {q : Output × State}
    (hq : (forks.forM fun (_, fork) => Emission.emitAll fork.messages).exec p = (r, q)) :
    q.1.Calm inMacro := by
  induction forks generalizing p with
  | nil =>
    cases hq
    exact hp
  | cons fork rest ih =>
    obtain ⟨test, fork⟩ := fork
    rw [List.forall_mem_cons] at h
    have hcalm : (p.1.pushAll (fork.messages.map .settled)).Calm inMacro := by
      refine hp.pushAll fun i hi => ?_
      obtain ⟨t, ht, rfl⟩ := List.mem_map.1 hi
      obtain ⟨hmessage, hfatal⟩ := h.1 t ht
      exact ⟨Token.isExpanded_of_isMessage hmessage, (Token.isTerminal_of_isMessage hmessage _).trans hfatal⟩
    refine ih h.2 (p := (p.1.pushAll (fork.messages.map .settled), p.2)) hcalm (Eq.trans ?_ hq)
    exact (Emission.exec_bind_of_ok (k := fun _ => rest.forM _)
      (Emission.exec_emitAll fork.messages p)).symm

/-- IF. -/
theorem until_assemble (hw : w.Until other) (hkind : w.block.inMacro = inMacro) (hp : p.1.Calm inMacro)
    (loc : Location) (clauses : List Clause) (otherwise : Option (List Token)) :
    Until w.assembler inMacro true (assemble w loc clauses otherwise)
      (assemble { w with runner := other } loc clauses otherwise) p := by
  refine (until_sift hw hp otherwise clauses).bind fun arms q hq => ?_
  have hquiet : arms.IsQuiet := gives_sift otherwise clauses p arms (by rw [hq])
  have hcalm : q.1.Calm inMacro := by
    have hsilent := silent_sift (w := w) otherwise clauses p
    rw [hq] at hsilent
    rwa [← hsilent] at hp
  split
  · rw [undecided_eq, undecided_eq]
    refine (Until.refl _).bind fun _ q' hq' => ?_
    exact (until_alternative hw (calm_messages hquiet hcalm hq') _).bind fun final q _ => .refl _
  · split
    · exact .refl _
    · refine hw.requireRunner hcalm fun run run' hrun huntil => .fresh fun b s' hb => ?_
      refine .act fun scope s hs => ?_
      exact Expand.until_expand hrun huntil (Expand.fits_same (hb.trans hkind)) hcalm s _ _

end Conditional

namespace Pass

/-- What two steps emit for an item is the same, unless the first one meets the limit. -/
def Until (a : Assembler) (inMacro : Bool) (p p' : Pass) : Prop :=
  ∀ item s, (p'.handle inMacro item).run s = (p.handle inMacro item).run s ∨
    ((p.handle inMacro item).run s).1.Overrun a.IsLimit inMacro

/-- Steps whose handlings do the same do so. -/
theorem until_of_forall {a : Assembler} {p p' : Pass}
    (h : ∀ item s, Emission.Until a inMacro true (p item) (p' item) (Output.empty inMacro, s)) :
    Pass.Until a inMacro p p' := by
  intro item s
  rw [handle, handle]
  split
  · exact Or.inl rfl
  · rw [Emission.run_output, Emission.run_output]
    rcases h item s with heq | hmeets
    · exact Or.inl (by rw [heq])
    · refine Or.inr ?_
      rcases hexec : (p item).exec (Output.empty inMacro, s) with ⟨r, q⟩
      rw [hexec] at hmeets
      rcases hmeets with ⟨d, hr, hd, hcalm⟩ | ⟨-, hover⟩
      · cases hr
        exact hcalm.overrun hd.isFatal (hd.locate item.token.loc)
      · cases r with
        | ok _ => exact hover
        | error f =>
          have hclosed : q.1.closed = true := hover.isClosed
          dsimp only
          rw [Output.push_of_closed hclosed]
          exact hover

/-- Names are bound, and what can be expanded is. -/
theorem until_localize (hw : w.Until other) :
    Pass.Until w.assembler w.block.inMacro (localize w) (localize { w with runner := other }) := by
  refine until_of_forall fun item s => ?_
  have hempty : (Output.empty w.block.inMacro).Calm w.block.inMacro := ⟨.empty, rfl⟩
  obtain ⟨token, pending⟩ := item
  cases token with
  | inclusion loc path loader => exact Expand.until_inclusion hw rfl hempty loc path loader
  | cond loc clauses otherwise assembled =>
    cases assembled with
    | true => exact .refl _
    | false => exact Conditional.until_assemble hw rfl hempty loc clauses otherwise
  | dispatch d => exact Expand.until_call hw hempty false _ d
  | dup loc counter iteration body =>
    exact Replay.until_dup hw rfl hempty false _ loc counter iteration body
  | declare loc how names => cases how <;> exact .refl _
  | assign loc how name value => cases how <;> exact .refl _
  | _ => exact .refl _

/-- What is left is expanded. -/
theorem until_expandRest (hw : w.Until other) :
    Pass.Until w.assembler w.block.inMacro (expandRest w) (expandRest { w with runner := other }) := by
  refine until_of_forall fun item s => ?_
  have hempty : (Output.empty w.block.inMacro).Calm w.block.inMacro := ⟨.empty, rfl⟩
  obtain ⟨token, pending⟩ := item
  cases token with
  | dispatch d => exact Expand.until_call hw hempty true _ d
  | dup loc counter iteration body =>
    exact Replay.until_dup hw rfl hempty true _ loc counter iteration body
  | _ => exact .refl _

end Pass

end Expansion

end MacroAsm
