import MacroAsm.Proofs.Assembly.Linkage
import MacroAsm.Proofs.Assembly.Posting

/-!
# The names of blocks

The operator `^` puts the name of the block around it in front of a name. Blocks are named when they are begun, and
the names are handed out one after the other, so that no two blocks of a program have the same
(`Telling.mints_block`).

Main statement: `Assembler.localNames_apart`. In a block, `^` stands for one and the same name wherever it is in
front of a name, and it stands for another one in every other block: in another macro call, in another turn of a DUP,
in an included file, and in the arms of an IF. As the arms are blocks of their own, what `^` stands for in the arm of
an IF is not what it stands for around the IF (`Assembler.exists_arm_apart`). An expression evaluates in the same way if
what `^` stands for is written out wherever the operator is in it (`Eval.flattenWith_spellLocals`).
-/

namespace MacroAsm

/-- What `^` in front of a name stands for. -/
def Surroundings.localName (u : Surroundings) (name : Text) : Text := u.unit ++ "." ++ name

namespace Expr

mutual

/-- An expression in which what `^` stands for is written out, wherever it is in front of a name. -/
def spellLocals (u : Surroundings) : Expr → Expr
  | .unary loc .macroLocal value =>
    match value.spellLocals u with
    | .identifier _ name => .identifier loc (u.localName name)
    | v => .unary loc .macroLocal v
  | .unary loc op value => .unary loc op (value.spellLocals u)
  | .binary loc op left right => .binary loc op (left.spellLocals u) (right.spellLocals u)
  | .ternary loc test onTrue onFalse =>
    .ternary loc (test.spellLocals u) (onTrue.spellLocals u) (onFalse.spellLocals u)
  | .call loc name params => .call loc name (spellLocalsAll u params)
  | .absolute loc address => .absolute loc (address.spellLocals u)
  | .displaced loc base displace => .displaced loc base (displace.spellLocals u)
  | .offset loc base value => .offset loc base (value.spellLocals u)
  | e => e

/-- The expressions of a list in which what `^` stands for is written out. -/
def spellLocalsAll (u : Surroundings) : List Expr → List Expr
  | [] => []
  | e :: rest => e.spellLocals u :: spellLocalsAll u rest

end

end Expr

namespace Eval

variable {u : Surroundings} {resolve : Location → Text → Act Expr}

/-- `^` in front of something else than a name is left to be evaluated. -/
theorem flattenWith_macroLocal_congr {v w : Expr} (h : flattenWith u resolve v false = flattenWith u resolve w false)
    (loc : Location) (propagate : Bool) :
    flattenWith u resolve (.unary loc .macroLocal v) propagate =
      flattenWith u resolve (.unary loc .macroLocal w) propagate := by
  rw [flattenWith, flattenWith, h]

mutual

/-- Writing out what `^` stands for changes no evaluation. -/
theorem flattenWith_spellLocals : ∀ (e : Expr) (propagate : Bool),
    flattenWith u resolve (e.spellLocals u) propagate = flattenWith u resolve e propagate := by
  intro e propagate
  cases e with
  | unary loc op value =>
    have hvalue := flattenWith_spellLocals value
    by_cases hop : op = .macroLocal
    · subst hop
      rw [Expr.spellLocals]
      split
      · rename_i l name heq
        rw [flattenWith, flattenWith, ← hvalue false, heq, flattenWith, if_neg Bool.false_ne_true, pure_bind]
        rfl
      · exact flattenWith_macroLocal_congr (hvalue false) loc propagate
    · cases op with
      | macroLocal => exact absurd rfl hop
      | _ => simp only [Expr.spellLocals, flattenWith, hvalue]
  | binary loc op left right =>
    have hleft := flattenWith_spellLocals left
    have hright := flattenWith_spellLocals right
    cases op <;> simp only [Expr.spellLocals, flattenWith, hleft, hright]
  | ternary loc test onTrue onFalse =>
    simp only [Expr.spellLocals, flattenWith, flattenWith_spellLocals test, flattenWith_spellLocals onTrue,
      flattenWith_spellLocals onFalse]
  | call loc name params => simp only [Expr.spellLocals, flattenWith, flattenAll_spellLocalsAll params]
  | absolute loc address => simp only [Expr.spellLocals, flattenWith, flattenWith_spellLocals address]
  | displaced loc base displace => simp only [Expr.spellLocals, flattenWith, flattenWith_spellLocals displace]
  | offset loc base value => simp only [Expr.spellLocals, flattenWith, flattenWith_spellLocals value]
  | _ => rfl

/-- The same for the expressions of a list. -/
theorem flattenAll_spellLocalsAll : ∀ (es : List Expr) (propagate : Bool),
    flattenAll u resolve (Expr.spellLocalsAll u es) propagate = flattenAll u resolve es propagate := by
  intro es propagate
  cases es with
  | nil => rfl
  | cons e rest =>
    simp only [Expr.spellLocalsAll, flattenAll, flattenWith_spellLocals e, flattenAll_spellLocalsAll rest]

end

end Eval

/-- Texts without dots in them are the same if what follows a dot behind them makes the same text of them. -/
theorem Text.eq_of_append_dot {s t m n : Text} (hs : 46 ∉ s.bytes) (ht : 46 ∉ t.bytes)
    (h : s ++ "." ++ m = t ++ "." ++ n) : s = t := by
  have hbefore : ∀ {bs : List UInt8} (rest : List UInt8), 46 ∉ bs →
      (bs ++ 46 :: rest).takeWhile (· != 46) = bs := by
    intro bs rest hbs
    rw [List.takeWhile_append_of_pos fun b hb => ?_]
    · simp
    · exact bne_iff_ne.2 fun heq => hbs (heq ▸ hb)
  have hbytes : s.bytes ++ 46 :: m.bytes = t.bytes ++ 46 :: n.bytes := by
    simpa [show (Text.ofString ".").bytes = [46] from rfl] using congrArg Text.bytes h
  have htake := congrArg (List.takeWhile (· != 46)) hbytes
  rw [hbefore _ hs, hbefore _ ht] at htake
  cases s
  cases t
  exact congrArg Text.mk htake

open Emission (Silent Traces)

namespace Event

/-- The names of the blocks that were begun. -/
def units (events : List Event) : List Text := (blocks events).map fun b => b.around.unit

@[simp]
theorem units_append (events events' : List Event) : units (events ++ events') = units events ++ units events' := by
  rw [units, blocks, List.filterMap_append, List.map_append]
  rfl

/-- Diagnostics begin no blocks. -/
@[simp]
theorem units_said (ds : List Diagnostic) : units (ds.map .said) = [] := by
  induction ds with
  | nil => rfl
  | cons d rest ih => exact ih

/-- Names are handed out in order from one state to another, and the blocks that were begun in between have some of
them, each its own. -/
structure Mints (naming : Naming) (s s' : State) (events : List Event) : Prop where
  /-- Names are handed out in order. -/
  supply : s.supply ≤ s'.supply
  /-- Each block has its own. -/
  units : (units events).Sublist (minted naming s.supply s'.supply)

variable {naming : Naming} {s s' s'' : State} {events events' : List Event}

/-- One thing happens after another. -/
theorem Mints.trans (h : Mints naming s s' events) (h' : Mints naming s' s'' events') :
    Mints naming s s'' (events ++ events') where
  supply := h.supply.trans h'.supply
  units := by
    rw [units_append, ← minted_append h.supply h'.supply]
    exact h.units.append h'.units

theorem Mints.of_units_eq_nil (hsupply : s.supply ≤ s'.supply) (h : Event.units events = []) :
    Mints naming s s' events :=
  ⟨hsupply, by rw [h]; exact List.nil_sublist _⟩

end Event

/-- The blocks that are begun in a run have names of their own. -/
def Recorded.Mints {α : Type} (naming : Naming) (x : Recorded α) : Prop :=
  ∀ s, Event.Mints naming s (x.act.run s).2 (x.log s)

/-- The blocks that are begun in a handling have names of their own. -/
def Told.Mints {α : Type} (naming : Naming) (e : Told α) : Prop :=
  ∀ p, Event.Mints naming p.2 (e.act.exec p).2.2 (e.log p)

/-- The blocks that are begun in nested blocks have names of their own. -/
def Hearing.Mints (naming : Naming) (hear : Hearing) (run : Runner) : Prop :=
  ∀ b body, (hear.attend run b body).Mints naming

namespace Recorded.Mints

variable {α β : Type}

theorem bind {x : Recorded α} {k : α → Recorded β} (hx : x.Mints naming) (hk : ∀ a, (k a).Mints naming) :
    (x >>= k).Mints naming :=
  fun s => (hx s).trans (hk _ _)

theorem pure (a : α) : (Pure.pure a : Recorded α).Mints naming :=
  fun _ => .of_units_eq_nil (Nat.le_refl _) rfl

theorem of_units_eq_nil {x : Recorded α} (hsupply : ∀ s, s.supply ≤ (x.act.run s).2.supply)
    (h : ∀ s, Event.units (x.log s) = []) : x.Mints naming :=
  fun s => .of_units_eq_nil (hsupply s) (h s)

theorem account (nested : Bool) : (Recorded.account nested).Mints naming :=
  .of_units_eq_nil (fun _ => Nat.le_refl _) fun _ => Event.units_said _

end Recorded.Mints

namespace Told.Mints

variable {α β : Type}

/-- A handling that goes on with the result of another. -/
theorem bind {e : Told α} {k : α → Told β} (he : e.Mints naming) (hk : ∀ a, (k a).Mints naming) :
    (e >>= k).Mints naming := by
  intro p
  have hp := he p
  rcases hexec : e.act.exec p with ⟨r, q⟩
  rw [hexec] at hp
  cases r with
  | ok a =>
    rw [log_bind_of_ok hexec, act_bind, Emission.exec_bind_of_ok hexec]
    exact hp.trans (hk a q)
  | error f =>
    rw [log_bind_of_error hexec, act_bind, Emission.exec_bind_of_error hexec]
    exact hp

theorem lift {e : Emission α} (h : ∀ p, p.2.supply ≤ (e.exec p).2.2.supply) : (liftM e : Told α).Mints naming :=
  fun p => .of_units_eq_nil (h p) rfl

theorem still {e : Emission α} (h : ∀ p, (e.exec p).2.2 = p.2) : (liftM e : Told α).Mints naming :=
  lift fun p => Nat.le_of_eq (congrArg State.supply (h p)).symm

theorem require (x : Except Cause α) : (liftM (Emission.require x) : Told α).Mints naming := by
  refine still fun p => ?_
  rw [Emission.exec_require]

theorem act {act : Act α} (h : ∀ s, s.supply ≤ (act.exec s).2.supply) : (liftM act : Told α).Mints naming :=
  fun p => .of_units_eq_nil (h p.2) rfl

theorem retells {act : Act α} (h : ∀ s, Act.Yields State.Retells (fun _ _ => True) act s) :
    (liftM act : Told α).Mints naming :=
  Mints.act fun s => Nat.le_of_eq (h s).1.supply.symm

theorem pure (a : α) : (Pure.pure a : Told α).Mints naming :=
  fun _ => .of_units_eq_nil (Nat.le_refl _) rfl

theorem perform {x : Recorded α} (h : x.Mints naming) : (Told.perform x).Mints naming := fun p => h p.2

/-- A block is begun. -/
theorem fresh (args : List Expr) (inMacro : Bool) : (Told.fresh naming args inMacro).Mints naming := by
  intro p
  refine ⟨Nat.le_succ _, ?_⟩
  have hminted : minted naming p.2.supply (p.2.supply + 1) = [naming.name p.2.supply] := by
    rw [minted, Nat.add_sub_cancel_left]
    rfl
  exact hminted ▸ List.Sublist.refl _

/-- What a step emits for a statement. -/
theorem output {e : Told PUnit} (h : e.Mints naming) (inMacro : Bool) (loc : Location) :
    (e.output inMacro loc).Mints naming := by
  intro s
  have hs := h (Output.empty inMacro, s)
  have hrun : (e.output inMacro loc).act.run s = (e.act.output inMacro loc).run s := rfl
  rw [Emission.run_output] at hrun
  rcases hexec : e.act.exec (Output.empty inMacro, s) with ⟨r, q⟩
  rw [hexec] at hs hrun
  cases r with
  | ok x =>
    rw [hrun, (output_of_ok hexec loc).2]
    exact hs
  | error f =>
    rw [hrun, (output_of_error hexec loc).2]
    exact hs.trans (.of_units_eq_nil (Nat.le_refl _) rfl)

/-- Nested blocks are assembled, unless no more may be nested. -/
theorem requireRunner {w : Workbench} {k : Runner → Told α} (hk : ∀ run, w.runner = some run → (k run).Mints naming) :
    ((liftM w.requireRunner : Told Runner) >>= k).Mints naming := by
  intro p
  cases hrunner : w.runner with
  | none =>
    obtain ⟨f, hexec⟩ : ∃ f, (liftM w.requireRunner : Told Runner).act.exec p = (.error f, p) := by
      rw [act_liftEmission, Workbench.requireRunner, hrunner]
      exact ⟨_, rfl⟩
    rw [log_bind_of_error hexec, act_bind, Emission.exec_bind_of_error hexec]
    exact .of_units_eq_nil (Nat.le_refl _) rfl
  | some run =>
    have hexec : (liftM w.requireRunner : Told Runner).act.exec p = (.ok run, p) := by
      rw [act_liftEmission, Workbench.requireRunner, hrunner]
      rfl
    rw [log_bind_of_ok hexec, act_bind, Emission.exec_bind_of_ok hexec]
    exact hk run hrunner p

end Told.Mints

namespace Telling

section Nested

variable {hear : Hearing} {w : Workbench} (hw : ∀ run, w.runner = some run → hear.Mints w.assembler.naming run)

/-- A nested block is assembled and accounted for. -/
theorem mints_expand {run : Runner} (hrun : hear.Mints w.assembler.naming run) (b : Block) (scope : Scope)
    (body : List Token) (macroCall : Bool) : (expand hear run b scope body macroCall).Mints w.assembler.naming := by
  refine .bind (.act fun _ => Nat.le_refl _) fun _ => .bind (.perform (hrun b body)) fun ts => ?_
  refine .bind (.still fun _ => rfl) fun _ => .bind (.still fun _ => rfl) fun closed => ?_
  have hunnest : (liftM (Act.modifyScope Scope.unnest) : Told PUnit).Mints w.assembler.naming :=
    .act fun _ => Nat.le_refl _
  cases closed with
  | true => exact hunnest
  | false => exact .bind (.perform (.account b.nested)) fun ts => .bind (.still fun _ => rfl) fun _ => hunnest

include hw

/-- INCLUDE. -/
theorem mints_inclusion (loc : Location) (path : Expr) (loader : Option Expr) :
    (inclusion hear w loc path loader).Mints w.assembler.naming := by
  rw [inclusion]
  cases w.assembler.includer with
  | none => exact .still fun _ => rfl
  | some find =>
    dsimp only
    split
    · exact .still fun _ => rfl
    · refine .bind (.require _) fun path => ?_
      have hfound : ∀ body : List Token, (do
          let run ← w.requireRunner
          let b ← Told.fresh w.assembler.naming w.around.args w.block.inMacro
          Expand.splice false (← Told.perform (hear.attend run b body)) : Told PUnit).Mints w.assembler.naming := by
        refine fun body => .requireRunner fun run hrun => .bind (.fresh _ _) fun b => ?_
        exact .bind (.perform (hw run hrun b body)) fun ts => .still fun _ => rfl
      cases loader with
      | none =>
        refine .bind (.pure _) fun loader => ?_
        cases find loc path loader with
        | error d => exact .still fun _ => rfl
        | ok body => exact hfound body
      | some e =>
        refine .bind (.require _) fun loader => ?_
        cases find loc path loader with
        | error d => exact .still fun _ => rfl
        | ok body => exact hfound body

/-- A macro call. -/
theorem mints_call (strict : Bool) (item : Item) (d : Dispatch) :
    (call hear w strict item d).Mints w.assembler.naming := by
  refine .bind (.act fun _ => Nat.le_refl _) fun scope => ?_
  cases Expand.macroOf? scope d with
  | none => exact .still fun _ => rfl
  | some found =>
    dsimp only
    split
    · split <;> exact .still fun _ => rfl
    · refine .bind (.act fun _ => Nat.le_refl _) fun _ => ?_
      split
      · exact .still fun _ => rfl
      · refine .requireRunner fun run hrun => .bind (.fresh _ _) fun b => ?_
        refine .bind (.act fun _ => Nat.le_refl _) fun _ => .bind (.require _) fun scope => ?_
        exact mints_expand (hw run hrun) b scope _ true

omit hw in
/-- The turns of a loop. -/
theorem mints_times {turn : Nat → Told PUnit} (hturn : ∀ k, (turn k).Mints w.assembler.naming) (n k : Nat) :
    (times turn n k).Mints w.assembler.naming := by
  induction n generalizing k with
  | zero => exact .pure _
  | succ n ih =>
    refine .bind (.still fun _ => rfl) fun closed => ?_
    cases closed with
    | true => exact .pure _
    | false => exact .bind (hturn k) fun _ => ih (k + 1)

omit hw in
/-- The turns of a loop over expressions. -/
theorem mints_each {turn : Nat → Expr → Told PUnit} (hturn : ∀ k e, (turn k e).Mints w.assembler.naming)
    (es : List Expr) (k : Nat) :
    (each turn es k).Mints w.assembler.naming := by
  induction es generalizing k with
  | nil => exact .pure _
  | cons e rest ih =>
    refine .bind (.still fun _ => rfl) fun closed => ?_
    cases closed with
    | true => exact .pure _
    | false => exact .bind (hturn k e) fun _ => ih (k + 1)

/-- One turn. -/
theorem mints_turn (l : Replay.Loop) (k : Nat) (value : Option Expr) :
    (turn hear w l k value).Mints w.assembler.naming := by
  refine .requireRunner fun run hrun => .bind (.fresh _ _) fun b => ?_
  refine .bind (.act fun _ => Nat.le_refl _) fun _ => .bind (.require _) fun scope => ?_
  exact mints_expand (hw run hrun) b scope _ false

omit hw in
theorem mints_defer (strict : Bool) (item : Item) (e : Expr) :
    (liftM (Replay.defer strict item e) : Told PUnit).Mints w.assembler.naming := by
  cases strict <;> exact .still fun _ => rfl

omit hw in
theorem mints_name (e : Expr) : (liftM (Eval.nameOf w.around e) : Told Text).Mints w.assembler.naming :=
  .retells (Eval.nameOf_yields (Eval.evaluates_retells _) e)

omit hw in
/-- A name is spelled, if there is one. -/
theorem mints_nameOr (e : Option Expr) : (liftM (Replay.nameOr w.around e) : Told Text).Mints w.assembler.naming := by
  cases e with
  | none => exact .act fun _ => Nat.le_refl _
  | some e => exact mints_name e

/-- DUP, DUPA, DUPC and DUPF. -/
theorem mints_dup (strict : Bool) (item : Item) (loc : Location) (counter : Option Expr) (iteration : Iteration)
    (body : List Token) : (dup hear w strict item loc counter iteration body).Mints w.assembler.naming := by
  cases iteration with
  | count n =>
    rw [dup]
    split
    · refine .bind (.require _) fun n => .bind (mints_nameOr counter) fun counter => ?_
      exact mints_times (fun k => mints_turn hw _ k _) _ 0
    · exact mints_defer strict item n
  | list element items =>
    rw [dup]
    split
    · exact mints_defer strict item _
    · refine .bind (mints_nameOr counter) fun counter => .bind (mints_name element) fun element => ?_
      exact mints_each (fun k e => mints_turn hw _ k _) items 0
  | characters element strings =>
    rw [dup]
    split
    · exact mints_defer strict item _
    · refine .bind (mints_nameOr counter) fun counter => .bind (mints_name element) fun element => ?_
      exact .bind (.require _) fun items => mints_each (fun k e => mints_turn hw _ k _) items 0
  | sequence element first last step =>
    rw [dup, sequence]
    split
    · exact mints_defer strict item _
    · refine .bind (.require _) fun start => .bind (.require _) fun stride => ?_
      cases last with
      | none => exact .still fun _ => rfl
      | some e =>
        refine .bind (.require _) fun stop => ?_
        dsimp only
        split
        · exact .still fun _ => rfl
        · refine .bind (mints_nameOr counter) fun counter => .bind (mints_name element) fun element => ?_
          exact mints_times (fun k => mints_turn hw _ k _) _ 0

omit hw in
/-- The whole output of a nested block. -/
theorem mints_collect {run : Runner} (hrun : hear.Mints w.assembler.naming run) (b : Block) (body : List Token) :
    (collect hear run b body).Mints w.assembler.naming := by
  refine .bind (hrun b body) fun out => ?_
  split
  · exact .pure _
  · exact .bind (.account b.nested) fun _ => .pure _

/-- An arm of an IF. -/
theorem mints_prospect (body : List Token) : (prospect hear w body).Mints w.assembler.naming := by
  refine .bind (.act fun _ => Nat.le_refl _) fun scope => .requireRunner fun run hrun => ?_
  refine .bind (.fresh _ _) fun b => .bind (.act fun _ => Nat.le_refl _) fun _ => ?_
  refine .bind (.perform (mints_collect (hw run hrun) b body)) fun out => .lift fun p => ?_
  rw [Conditional.exec_reap]

/-- The arms of an IF. -/
theorem mints_sift (otherwise : Option (List Token)) (clauses : List Clause) :
    (sift hear w otherwise clauses).Mints w.assembler.naming := by
  induction clauses with
  | nil => exact .pure _
  | cons c rest ih =>
    obtain ⟨test, body⟩ := c
    rw [sift]
    split
    · refine .bind (.require _) fun taken => ?_
      cases taken with
      | true => exact .pure _
      | false => exact ih
    · exact .bind (mints_prospect hw body) fun fork => .bind ih fun arms => .pure _

/-- The arm that is taken otherwise. -/
theorem mints_alternative (otherwise : Option (List Token)) :
    (alternative hear w otherwise).Mints w.assembler.naming := by
  cases otherwise with
  | none => exact .pure _
  | some body => exact .bind (mints_prospect hw body) fun fork => .pure _

/-- An IF that only the linker can decide. -/
theorem mints_undecided (loc : Location) (arms : Conditional.Arms) :
    (undecided hear w loc arms).Mints w.assembler.naming := by
  refine .bind (.still fun p => ?_) fun _ => .bind (mints_alternative hw _) fun final => ?_
  · rw [Conditional.exec_forM_messages]
  refine .bind (.still fun p => ?_) fun _ => .lift fun p => ?_
  · cases final <;> rfl
  · rw [show p = (p.1, p.2) from rfl, Conditional.exec_conclude loc arms.forks final p.1 p.2 rfl]
    split <;> exact Nat.le_refl _

/-- IF. -/
theorem mints_assemble (loc : Location) (clauses : List Clause) (otherwise : Option (List Token)) :
    (assemble hear w loc clauses otherwise).Mints w.assembler.naming := by
  refine .bind (mints_sift hw otherwise clauses) fun arms => ?_
  split
  · exact mints_undecided hw loc arms
  · cases arms.otherwise with
    | none => exact .pure _
    | some body =>
      refine .requireRunner fun run hrun => .bind (.fresh _ _) fun b => ?_
      exact .bind (.act fun _ => Nat.le_refl _) fun scope => mints_expand (hw run hrun) b _ body false

end Nested

section Steps

variable {hear : Hearing} {w : Workbench}

/-- A step that begins no block. -/
theorem mints_own {p : Pass} {inMacro : Bool} {item : Item}
    (hp : ∀ s, s.supply ≤ ((p.handle inMacro item).run s).2.supply) (reading : Bool) :
    (handle inMacro reading (own p) item).Mints w.assembler.naming := by
  refine .of_units_eq_nil (fun s => ?_) fun s => ?_
  · rw [act_handle]
    exact hp s
  · rw [handle]
    split
    · split
      · exact Event.units_said _
      · rfl
    · refine (Event.units_append _ _).trans (List.append_eq_nil_iff.2 ⟨Event.units_said _, ?_⟩)
      split <;> rfl

/-- A step that begins blocks, or not. -/
theorem mints_handle {p : Step} {inMacro reading : Bool} {item : Item}
    (hp : item.token.isMessage = false → (p item).Mints w.assembler.naming) :
    (handle inMacro reading p item).Mints w.assembler.naming := by
  cases hmessage : item.token.isMessage with
  | true =>
    rw [handle, hmessage, if_pos rfl]
    split
    · exact .of_units_eq_nil (fun _ => Nat.le_refl _) fun _ => Event.units_said _
    · exact .of_units_eq_nil (fun _ => Nat.le_refl _) fun _ => rfl
  | false =>
    rw [handle, hmessage, if_neg Bool.false_ne_true]
    exact (hp hmessage).output _ _

variable (hw : ∀ run, w.runner = some run → hear.Mints w.assembler.naming run)

include hw

/-- Names are bound, and what can be expanded is. -/
theorem mints_localize (reading : Bool) (item : Item) :
    (handle w.block.inMacro reading (localize hear w) item).Mints w.assembler.naming := by
  obtain ⟨token, pending⟩ := item
  -- what begins no block
  have hbinds : token.isMessage = false →
      (∀ s, Traces w.assembler.naming token.places (fun D => False ∧ token.Within D) (fun _ _ => True)
        (Pass.localize w ⟨token, pending⟩) (Output.empty w.block.inMacro, s)) →
      (handle w.block.inMacro reading (own (.localize w)) ⟨token, pending⟩).Mints w.assembler.naming :=
    fun hmessage htraces => mints_own (fun s => (Pass.leads_of_traces hmessage (htraces s)).supply) reading
  have hpasses : (∀ s, (Pass.localize w ⟨token, pending⟩).exec (Output.empty w.block.inMacro, s) =
      (.ok ⟨⟩, ((Output.empty w.block.inMacro).push ⟨token, pending⟩, s))) →
      (handle w.block.inMacro reading (own (.localize w)) ⟨token, pending⟩).Mints w.assembler.naming :=
    fun hexec => mints_own (fun s => (Pass.Keeps.of_emitItem (A := fun _ => False) (hexec s)).supply) reading
  cases token with
  | inclusion loc path loader => exact mints_handle fun _ => mints_inclusion hw loc path loader
  | cond loc clauses otherwise assembled =>
    cases assembled with
    | true =>
      refine mints_handle fun _ => .still fun p => ?_
      rw [Conditional.decide]
      cases Conditional.decide? otherwise clauses with
      | error c => rfl
      | ok taken => cases taken <;> rfl
    | false => exact mints_handle fun _ => mints_assemble hw loc clauses otherwise
  | dispatch d => exact mints_handle fun _ => mints_call hw false _ d
  | dup loc counter iteration body => exact mints_handle fun _ => mints_dup hw false _ loc counter iteration body
  | radix loc value => exact hbinds rfl fun s => Bind.traces_setRadix loc value
  | declare loc how names =>
    cases how with
    | locally => exact hbinds rfl fun s => Bind.traces_declareLocals loc names
    | _ => exact hpasses fun s => rfl
  | assign loc how name value =>
    cases how with
    | set => exact hbinds rfl fun s => Bind.traces_assign loc name fun D hP => hP.1.elim
    | equate => exact hbinds rfl fun s => Bind.traces_equate loc name fun D hP => hP.1.elim
    | define => exact hbinds rfl fun s => Bind.traces_define loc name fun D hP => hP.1.elim
  | label loc name => exact hbinds rfl fun s => Bind.traces_label rfl loc name
  | retract loc what names => exact hbinds rfl fun s => Bind.traces_retract loc what names
  | macroDef loc name parameters body =>
    exact hbinds rfl fun s => Bind.traces_defineMacro loc name parameters fun D hP => hP.1.elim
  | _ => exact hpasses fun s => rfl

/-- What is left is expanded. -/
theorem mints_expandRest (reading : Bool) (item : Item) :
    (handle w.block.inMacro reading (expandRest hear w) item).Mints w.assembler.naming := by
  obtain ⟨token, pending⟩ := item
  have hpasses : (∀ s, (Pass.expandRest w ⟨token, pending⟩).exec (Output.empty w.block.inMacro, s) =
      (.ok ⟨⟩, ((Output.empty w.block.inMacro).push ⟨token, pending⟩, s))) →
      (handle w.block.inMacro reading (own (.expandRest w)) ⟨token, pending⟩).Mints w.assembler.naming :=
    fun hexec => mints_own (fun s => (Pass.Keeps.of_emitItem (A := fun _ => False) (hexec s)).supply) reading
  cases token with
  | dispatch d => exact mints_handle fun _ => mints_call hw true _ d
  | dup loc counter iteration body => exact mints_handle fun _ => mints_dup hw true _ loc counter iteration body
  | _ => exact hpasses fun s => rfl

omit hw in
/-- Items are taken one after the other. -/
theorem mints_feed {f : Item → Trail → Recorded Trail} (hf : ∀ item t, (f item t).Mints w.assembler.naming)
    (items : List Item) (t : Trail) : (feed f items t).Mints w.assembler.naming := by
  induction items generalizing t with
  | nil => exact .pure t
  | cons item rest ih =>
    rw [feed]
    split
    · exact .pure t
    · exact .bind (hf item t) ih

omit hw in
/-- An item is taken through steps. -/
theorem mints_through {inMacro reading : Bool} {last : Step} {passes : List Step}
    (hlast : ∀ reading item, (handle inMacro reading last item).Mints w.assembler.naming)
    (hpasses : ∀ p ∈ passes, ∀ reading item, (handle inMacro reading p item).Mints w.assembler.naming)
    (item : Item) (t : Trail) :
    (through inMacro reading last passes item t).Mints w.assembler.naming := by
  induction passes generalizing item t with
  | nil => exact .bind (hlast reading item) fun out => fun s => .of_units_eq_nil (Nat.le_refl _) rfl
  | cons p passes ih =>
    rw [List.forall_mem_cons] at hpasses
    refine .bind (hpasses.1 reading item) fun out => .bind (mints_feed (ih hpasses.2) out.items t) fun t' => ?_
    exact .pure _

/-- The blocks that are begun in a block have names of their own, if those in the nested blocks have. -/
theorem mints_block (source : List Token) : (block hear w source).Mints w.assembler.naming := by
  have hown : ∀ {p : Pass}, (∀ item s, p.Keeps (fun _ => False) w.block.inMacro item s) → ∀ reading item,
      (handle w.block.inMacro reading (own p) item).Mints w.assembler.naming :=
    fun hp reading item => mints_own (fun s => (hp item s).supply) reading
  have hglobals : ∀ reading item,
      (handle w.block.inMacro reading (own (.ofToken (Declare.declareGlobals w))) item).Mints w.assembler.naming := by
    refine fun reading item => mints_own (fun s => ?_) reading
    cases hmessage : item.token.isMessage with
    | true => exact (Pass.Keeps.of_isMessage (A := fun _ => False) hmessage).supply
    | false =>
      exact (Pass.leads_of_traces (A := fun _ => False) hmessage (Declare.traces_declareGlobals item.token)).supply
  refine .bind (mints_feed (mints_through hglobals (List.forall_mem_nil _)) _ _) fun declared => ?_
  refine .bind (mints_feed ?_ _ _) fun bound => mints_feed ?_ _ _
  · refine mints_through (mints_localize hw) ?_
    exact List.forall_mem_singleton.2 (hown (Pass.keeps_reduceFirst fun _ h => h.elim))
  · refine mints_through (hown (Pass.keeps_complete w)) ?_
    rw [List.forall_mem_cons, List.forall_mem_cons, List.forall_mem_cons, List.forall_mem_cons]
    exact ⟨hown (Pass.keeps_reduceAgain fun _ h => h.elim), mints_localize hw, mints_expandRest hw,
      hown Pass.keeps_relax, List.forall_mem_singleton.2 (hown (Pass.keeps_encode w))⟩

end Steps

end Telling

namespace Assembler

variable {a : Assembler} {scope : Scope} {source : List Token}

/-- The blocks that are begun in nested blocks have names of their own. -/
theorem mints_runner (a : Assembler) (depth : Nat) (run : Runner) (hrun : a.runner depth = some run) :
    (a.hear depth).Mints a.naming run := by
  induction depth generalizing run with
  | zero => cases hrun
  | succ depth ih =>
    rw [runner_succ, Option.some.injEq] at hrun
    subst hrun
    intro b body s
    have hblock := Telling.mints_block (w := ⟨a, b, a.runner depth⟩) ih body { s with bankSwitched := false }
    rw [Telling.act_block] at hblock
    rcases hr : (Workbench.run ⟨a, b, a.runner depth⟩ body).run { s with bankSwitched := false } with ⟨t, s'⟩
    rw [hr] at hblock
    change Event.Mints a.naming s ((shield (Workbench.run ⟨a, b, a.runner depth⟩ body)).run s).2 _
    rw [run_shield hr]
    exact ⟨hblock.supply, hblock.units⟩

/-- The names of the blocks of a program were handed out one after the other. -/
theorem units_sublist_minted (a : Assembler) (scope : Scope) (source : List Token) :
    ∃ n, (Event.units (a.chronicle scope source)).Sublist (minted a.naming 0 n) := by
  obtain ⟨hsupply, hunits⟩ := Telling.mints_block (w := ⟨a, a.outermost, a.runner a.maxDepth⟩)
    (a.mints_runner a.maxDepth) source (start scope)
  -- the name of the outermost block is the first one
  have hnames := (List.Sublist.refl (minted a.naming 0 1)).append hunits
  rw [show (start scope).supply = 1 from rfl] at hsupply hnames
  rw [minted_append (Nat.zero_le 1) hsupply] at hnames
  rw [chronicle, ← List.singleton_append, Event.units_append, Event.units_append, Event.units_said, List.append_nil]
  exact ⟨_, hnames⟩

/-- Names are local to blocks. In every block that is begun, expressions evaluate as if what `^` stands for were
written out, and what it stands for in two blocks is always different. -/
theorem localNames_apart (a : Assembler) (scope : Scope) (source : List Token) :
    (∀ b ∈ Event.blocks (a.chronicle scope source), ∀ resolve e propagate,
      Eval.flattenWith b.around resolve e propagate =
        Eval.flattenWith b.around resolve (e.spellLocals b.around) propagate) ∧
    (Event.blocks (a.chronicle scope source)).Pairwise fun b b' =>
      ∀ m n, b.around.localName m ≠ b'.around.localName n := by
  refine ⟨fun b _ resolve e propagate => (Eval.flattenWith_spellLocals e propagate).symm, ?_⟩
  obtain ⟨n, hsublist⟩ := a.units_sublist_minted scope source
  have hdot : ∀ b ∈ Event.blocks (a.chronicle scope source), 46 ∉ b.around.unit.bytes := by
    intro b hb
    have hmem : b.around.unit ∈ minted a.naming 0 n := hsublist.subset (List.mem_map_of_mem hb)
    obtain ⟨k, -, hk⟩ := List.mem_map.1 hmem
    rw [← hk]
    exact a.naming.dotless k
  have hapart : (Event.blocks (a.chronicle scope source)).Pairwise fun b b' => b.around.unit ≠ b'.around.unit :=
    List.pairwise_map.1 ((nodup_minted a.naming 0 n).sublist hsublist)
  refine hapart.imp_of_mem fun {b b'} hb hb' hne m m' heq => hne ?_
  exact Text.eq_of_append_dot (hdot b hb) (hdot b' hb') heq

/-- A macro with a label `^L` and other statements, and a call of it. -/
def localLabel (body : List Token) : List Token :=
  [.macroDef Location.none (nameOf "M") []
      (.label Location.none (.unary Location.none .macroLocal (nameOf "L")) :: body),
    .dispatch ⟨Location.none, nameOf "M", []⟩]

/-- `DW ^L`. -/
def localWord : Token := .data Location.none .words [.unary Location.none .macroLocal (nameOf "L")]

/-- What `^L` stands for in the arm of an IF is not what it stands for around the IF: `DW ^L` in the arm of an IF that
is decided at once does not find the label, which it does without the IF. -/
theorem exists_arm_apart :
    (∃ call arm : Text,
      Event.units (plainAssembler.chronicle Scope.initial
        (localLabel [.cond Location.none [.mk (.literal Location.none 1) [localWord]] none false])) =
          [plainAssembler.outermost.around.unit, call, arm] ∧
      Surroundings.localName ⟨call, []⟩ "L" ≠ Surroundings.localName ⟨arm, []⟩ "L") ∧
    (∃ t ∈ (plainAssembler.assemble Scope.initial
      (localLabel [.cond Location.none [.mk (.literal Location.none 1) [localWord]] none false])).tokens,
        t.fails = true) ∧
    ∀ t ∈ (plainAssembler.assemble Scope.initial (localLabel [localWord])).tokens, t.fails = false := by
  refine ⟨⟨Naming.counted.name 2, Naming.counted.name 4, by decide +kernel, by decide⟩, ?_, ?_⟩
  · exact List.any_eq_true.1 (by decide +kernel)
  · have hclean : (plainAssembler.assemble Scope.initial (localLabel [localWord])).tokens.all
        (fun t => !t.fails) = true := by
      decide +kernel
    exact fun t ht => by simpa using List.all_eq_true.1 hclean t ht

end Assembler

end MacroAsm
