import MacroAsm.Proofs.Assembly.Definitions
import MacroAsm.Proofs.Assembly.Encoding

/-!
# What comes last

The handling of a statement emits items one after the other, and nothing after a terminal one
(`Output.Ordered`). So only the last item of an output is terminal, whatever statement is handled
(`Pass.ordered_handle`), and the same holds of the items of a whole stage (`Stage.ordered_run`).

Assembling a block leaves nothing to be expanded: no instruction, macro call or DUP is among its output
(`Workbench.Finishes.isExpanded_of_mem_run`), whatever it was assembled from.
-/

namespace MacroAsm

/-- Whether a token is neither an instruction or a macro call nor a DUP. -/
def Token.isExpanded (t : Token) : Bool := t.role != .calling && t.role != .replaying

/-- Whether an item is neither an instruction or a macro call nor a DUP. -/
def Item.IsExpanded (i : Item) : Prop := i.token.isExpanded = true

/-- A property of all items that are neither instructions or macro calls nor DUPs. -/
def Item.Admits (P : Item → Prop) : Prop := ∀ i : Item, i.IsExpanded → P i

/-- Diagnostics are not expanded. -/
theorem Token.isExpanded_of_isMessage {t : Token} (h : t.isMessage = true) : t.isExpanded = true := by
  cases t with
  | message d => rfl
  | _ => cases h

theorem Token.isExpanded_of_isOutput {t : Token} (h : t.isOutput = true) : t.isExpanded = true := by
  rcases Token.role_of_isOutput h with hrole | hrole <;> rw [Token.isExpanded, hrole] <;> rfl

/-- A diagnostic is terminal if it is fatal. -/
theorem Token.isTerminal_of_isMessage {t : Token} (h : t.isMessage = true) (inMacro : Bool) :
    t.isTerminal inMacro = t.isFatal := by
  cases t with
  | message d => rfl
  | _ => cases h

variable {inMacro : Bool} {P : Item → Prop}

/-- An output in which no item but the last is terminal. It is closed if that is. -/
structure Output.Ordered (inMacro : Bool) (P : Item → Prop) (o : Output) : Prop where
  /-- Which tokens are terminal. -/
  kind : o.inMacro = inMacro
  /-- What holds of the items. -/
  holds : ∀ i ∈ o.reversed, P i
  /-- No item before the last is terminal. -/
  before : ∀ i ∈ o.reversed.tail, i.token.isTerminal inMacro = false
  /-- No item of an open output is terminal. -/
  isOpen : o.closed = false → ∀ i ∈ o.reversed, i.token.isTerminal inMacro = false
  /-- An item of a closed output is terminal. -/
  isClosed : o.closed = true → ∃ i ∈ o.reversed, i.token.isTerminal inMacro = true

namespace Output.Ordered

variable {o : Output}

theorem empty : (Output.empty inMacro).Ordered inMacro P :=
  ⟨rfl, fun _ h => absurd h List.not_mem_nil, fun _ h => absurd h List.not_mem_nil,
    fun _ _ h => absurd h List.not_mem_nil, nofun⟩

/-- An item is emitted, unless the output is closed. -/
theorem push (ho : o.Ordered inMacro P) {i : Item} (hi : P i) : (o.push i).Ordered inMacro P := by
  rw [Output.push]
  split
  · exact ho
  · rename_i hclosed
    have hopen := ho.isOpen (Bool.eq_false_of_not_eq_true hclosed)
    refine ⟨ho.kind, List.forall_mem_cons.2 ⟨hi, ho.holds⟩, hopen, fun hi' => ?_, fun hi' => ?_⟩
    all_goals rw [ho.kind] at hi'
    · exact List.forall_mem_cons.2 ⟨hi', hopen⟩
    · exact ⟨i, List.mem_cons_self, hi'⟩

/-- Items are emitted, up to the first terminal one. -/
theorem pushAll (ho : o.Ordered inMacro P) {items : List Item} (hitems : ∀ i ∈ items, P i) :
    (o.pushAll items).Ordered inMacro P := by
  induction items generalizing o with
  | nil => exact ho
  | cons i rest ih =>
    rw [List.forall_mem_cons] at hitems
    exact ih (ho.push hitems.1) hitems.2

end Output.Ordered

namespace Emission

variable {α β : Type}

section Gives

variable {Q : α → Prop}

/-- Every result that a handling gives satisfies `Q`, wherever it begins. -/
def Gives (Q : α → Prop) (e : Emission α) : Prop := ∀ p a, (e.exec p).1 = .ok a → Q a

/-- A result that is there already. -/
theorem Gives.pure {a : α} (ha : Q a) : Gives Q (Pure.pure a : Emission α) := by
  intro p b hb
  cases hb
  exact ha

theorem Gives.report (d : Diagnostic) : Gives Q (Emission.report d : Emission α) := fun _ _ h => by cases h

/-- What is performed. -/
theorem Gives.perform {x : StateM State α} (hx : ∀ s, Q (x.run s).1) : Gives Q (Emission.perform x) := by
  intro p a ha
  cases ha
  exact hx p.2

/-- A handling that goes on with the result of another. -/
theorem Gives.bind {e : Emission α} {k : α → Emission β} {Q' : β → Prop} (he : Gives Q e)
    (hk : ∀ a, Q a → Gives Q' (k a)) : Gives Q' (e >>= k) := by
  intro p b hb
  rcases hexec : e.exec p with ⟨r, q⟩
  cases r with
  | ok a =>
    rw [exec_bind_of_ok hexec] at hb
    exact hk a (he p a (by rw [hexec])) q b hb
  | error f =>
    rw [exec_bind_of_error hexec] at hb
    cases hb

theorem Gives.andThen {e : Emission α} {k : α → Emission β} {Q' : β → Prop} (hk : ∀ a, Gives Q' (k a)) :
    Gives Q' (e >>= k) :=
  Gives.bind (Q := fun _ => True) (fun _ _ _ => trivial) fun a _ => hk a

end Gives

section Silent

/-- A handling emits nothing. -/
def Silent (e : Emission α) : Prop := ∀ p, (e.exec p).2.1 = p.1

theorem Silent.pure (a : α) : Silent (Pure.pure a : Emission α) := fun _ => rfl

theorem Silent.report (d : Diagnostic) : Silent (Emission.report d : Emission α) := fun _ => rfl

theorem Silent.require (x : Except Cause α) : Silent (Emission.require x) := fun p => by rw [exec_require]

theorem Silent.act (x : Act α) : Silent (liftM x : Emission α) := fun _ => rfl

theorem Silent.perform (x : StateM State α) : Silent (Emission.perform x) := fun _ => rfl

/-- A handling that goes on with the result of another. -/
theorem Silent.bind {e : Emission α} {k : α → Emission β} (he : Silent e) (hk : ∀ a, Silent (k a)) :
    Silent (e >>= k) := by
  intro p
  have hsame := he p
  rcases hexec : e.exec p with ⟨r, q⟩
  rw [hexec] at hsame
  cases r with
  | ok a =>
    rw [exec_bind_of_ok hexec, hk a q]
    exact hsame
  | error f =>
    rw [exec_bind_of_error hexec]
    exact hsame

end Silent

/-- A handling emits items with a property one after the other, and none after a terminal one. -/
def Emits (inMacro : Bool) (P : Item → Prop) (e : Emission α) : Prop :=
  ∀ p : Output × State, p.1.Ordered inMacro P → (e.exec p).2.1.Ordered inMacro P

namespace Emits

theorem silent {e : Emission α} (h : Silent e) : Emits inMacro P e := fun p hp => by rwa [h p]

theorem pure (a : α) : Emits inMacro P (Pure.pure a) := silent (.pure a)

theorem raise (c : Cause) : Emits inMacro P (Emission.raise c : Emission α) := silent fun _ => rfl

theorem report (d : Diagnostic) : Emits inMacro P (Emission.report d : Emission α) := silent (.report d)

theorem require (x : Except Cause α) : Emits inMacro P (Emission.require x) := silent (.require x)

theorem act (x : Act α) : Emits inMacro P (liftM x : Emission α) := silent (.act x)

theorem perform (x : StateM State α) : Emits inMacro P (Emission.perform x) := silent (.perform x)

theorem isClosed : Emits inMacro P Emission.isClosed := silent fun _ => rfl

theorem emitItem {i : Item} (hi : P i) : Emits inMacro P (Emission.emitItem i) := fun _ hp => hp.push hi

theorem emitItems {items : List Item} (h : ∀ i ∈ items, P i) :
    Emits inMacro P (Emission.emitItems items) := fun _ hp => hp.pushAll h

/-- Tokens are emitted. -/
theorem emitAll {ts : List Token} (h : ∀ t ∈ ts, P (.settled t)) :
    Emits inMacro P (Emission.emitAll ts) :=
  emitItems fun i hi => by
    obtain ⟨t, ht, rfl⟩ := List.mem_map.1 hi
    exact h t ht

/-- A handling that goes on with a result of another. -/
theorem bind {e : Emission α} {k : α → Emission β} {Q : α → Prop} (he : Emits inMacro P e)
    (hgives : Gives Q e) (hk : ∀ a, Q a → Emits inMacro P (k a)) : Emits inMacro P (e >>= k) := by
  intro p hp
  have hafter := he p hp
  rcases hexec : e.exec p with ⟨r, q⟩
  rw [hexec] at hafter
  cases r with
  | ok a =>
    rw [exec_bind_of_ok hexec]
    exact hk a (hgives p a (by rw [hexec])) q hafter
  | error f => rwa [exec_bind_of_error hexec]

theorem andThen {e : Emission α} {k : α → Emission β} (he : Emits inMacro P e)
    (hk : ∀ a, Emits inMacro P (k a)) : Emits inMacro P (e >>= k) :=
  he.bind (Q := fun _ => True) (fun _ _ _ => trivial) fun a _ => hk a

theorem messages (hP : Item.Admits P) {ts : List Token}
    (h : ∀ t ∈ ts, t.isMessage = true) : Emits inMacro P (Emission.emitAll ts) :=
  emitAll fun t ht => hP _ (Token.isExpanded_of_isMessage (h t ht))

theorem warn (hP : Item.Admits P) (d : Diagnostic) :
    Emits inMacro P (Emission.warn d) :=
  emitItem (hP _ rfl)

/-- Handlings for the elements of a list. -/
theorem forM {xs : List β} {step : β → Emission PUnit} (hstep : ∀ x ∈ xs, Emits inMacro P (step x)) :
    Emits inMacro P (xs.forM step) := by
  induction xs with
  | nil => exact .pure _
  | cons x rest ih =>
    rw [List.forall_mem_cons] at hstep
    exact hstep.1.andThen fun _ => ih hstep.2

end Emits

end Emission

open Emission (Emits)

/-- Whatever a runner assembles has nothing to be expanded in it. -/
def Runner.Finishes (run : Runner) : Prop :=
  ∀ b body s, ∀ t ∈ ((run b body).run s).1, t.isExpanded = true

theorem mem_account {nested : Bool} {s : State} {t : Token} (h : t ∈ ((account nested).run s).1) :
    t.isMessage = true ∧ t.isFatal = false :=
  Scope.mem_accountFor h

section Expansion

variable {w : Workbench}

namespace Expand

/-- The output of a nested block takes its place. -/
theorem emits_splice (hP : Item.Admits P) (macroCall : Bool) {ts : List Token}
    (h : ∀ t ∈ ts, t.isExpanded = true) : Emits inMacro P (splice macroCall ts) := by
  refine .emitItems fun i hi => ?_
  obtain ⟨t, ht, rfl⟩ := List.mem_map.1 hi
  exact hP _ (h t (List.mem_filter.1 ht).1)

/-- A nested block is assembled and accounted for. -/
theorem emits_expand (hP : Item.Admits P) {run : Runner} (hrun : run.Finishes) (b : Block)
    (scope : Scope) (body : List Token) (macroCall : Bool) :
    Emits inMacro P (expand run b scope body macroCall) := by
  have hunnest : Emits inMacro P (liftM (Act.modifyScope Scope.unnest) : Emission PUnit) := .act _
  refine .andThen (.act _) fun _ => ?_
  refine .bind (Q := fun ts => ∀ t ∈ ts, t.isExpanded = true) (.perform _) (.perform (hrun b body))
    fun ts hts => ?_
  refine .andThen (emits_splice hP macroCall hts) fun _ => .andThen .isClosed fun closed => ?_
  cases closed with
  | true => exact hunnest
  | false =>
    refine .bind (Q := fun ts => ∀ t ∈ ts, t.isMessage = true) (.perform _)
      (.perform fun s t ht => (mem_account ht).1) fun reports hreports => ?_
    exact .andThen (.messages hP hreports) fun _ => hunnest

end Expand

namespace Workbench

/-- The runner of a workbench finishes what it assembles. -/
def Finishes (w : Workbench) : Prop := ∀ run, w.runner = some run → run.Finishes

/-- Looking for the runner emits nothing. -/
theorem silent_requireRunner : Emission.Silent w.requireRunner := by
  rw [requireRunner]
  split
  · exact .pure _
  · exact .report _

/-- The runner of nested blocks, if there is one. -/
theorem gives_requireRunner (hw : w.Finishes) : Emission.Gives Runner.Finishes w.requireRunner := by
  rw [requireRunner]
  split
  · rename_i run hrun
    exact .pure (hw run hrun)
  · exact .report _

/-- A handling that assembles nested blocks. -/
theorem Finishes.emits {α : Type} (hw : w.Finishes) {k : Runner → Emission α}
    (hk : ∀ run : Runner, run.Finishes → Emits inMacro P (k run)) :
    Emits inMacro P (w.requireRunner >>= k) :=
  .bind (.silent silent_requireRunner) (gives_requireRunner hw) hk

end Workbench

namespace Expand

/-- INCLUDE. -/
theorem emits_inclusion (hP : Item.Admits P) (hw : w.Finishes) (loc : Location) (path : Expr)
    (loader : Option Expr) : Emits inMacro P (inclusion w loc path loader) := by
  rw [inclusion]
  split
  · exact .report _
  · rename_i find _
    split
    · exact .raise _
    · refine .andThen (.require _) fun path => ?_
      have hfound : ∀ body : List Token, Emits inMacro P (do
          let run ← w.requireRunner
          let b ← Block.fresh w.assembler.naming w.around.args w.block.inMacro
          splice false (← Emission.perform (run b body))) := by
        intro body
        refine hw.emits fun run hrun => .andThen (.act _) fun b => ?_
        exact .bind (.perform _) (.perform (hrun b _)) fun ts hts => emits_splice hP false hts
      cases loader with
      | none =>
        refine .andThen (.pure _) fun loader => ?_
        dsimp only
        split
        · exact .report _
        · exact hfound _
      | some e =>
        refine .andThen (.require _) fun loader => ?_
        dsimp only
        split
        · exact .report _
        · exact hfound _

/-- A macro call, or what is passed on in its place. -/
theorem emits_call (hP : Item.Admits P) (hw : w.Finishes) (strict : Bool) {item : Item} (hitem : P item)
    (d : Dispatch) : Emits inMacro P (call w strict item d) := by
  refine .andThen (.act _) fun scope => ?_
  split
  · exact .emitItem hitem
  · split
    · split
      · exact .report _
      · exact .emitItem hitem
    · refine .andThen (.act _) fun _ => ?_
      split
      · exact .report _
      · refine hw.emits fun run hrun => .andThen (.act _) fun b => ?_
        refine .andThen (.act _) fun scope => .andThen (.require _) fun scope => ?_
        exact emits_expand hP hrun b scope _ true

end Expand

namespace Replay

/-- One iteration. -/
theorem emits_turn (hP : Item.Admits P) (hw : w.Finishes) (l : Loop) (k : Nat) (value : Option Expr) :
    Emits inMacro P (l.turn w k value) := by
  refine hw.emits fun run hrun => .andThen (.act _) fun b => ?_
  refine .andThen (.act _) fun scope => .andThen (.require _) fun scope => ?_
  exact Expand.emits_expand hP hrun b scope _ false

/-- Turns that are counted. -/
theorem emits_times {turn : Nat → Emission PUnit} (hturn : ∀ k, Emits inMacro P (turn k)) (n k : Nat) :
    Emits inMacro P (times turn n k) := by
  induction n generalizing k with
  | zero => exact .pure _
  | succ n ih =>
    refine .andThen .isClosed fun closed => ?_
    split
    · exact .pure _
    · exact .andThen (hturn k) fun _ => ih (k + 1)

/-- Turns for the elements of a list. -/
theorem emits_each {turn : Nat → Expr → Emission PUnit} (hturn : ∀ k e, Emits inMacro P (turn k e))
    (es : List Expr) (k : Nat) : Emits inMacro P (each turn es k) := by
  induction es generalizing k with
  | nil => exact .pure _
  | cons e rest ih =>
    refine .andThen .isClosed fun closed => ?_
    split
    · exact .pure _
    · exact .andThen (hturn k e) fun _ => ih (k + 1)

/-- A statement that waits for its bounds. -/
theorem emits_defer {strict : Bool} {item : Item} (hitem : strict = false → P item) (e : Expr) :
    Emits inMacro P (defer strict item e) := by
  rw [defer]
  split
  · exact .raise _
  · rename_i hstrict
    exact .emitItem (hitem (Bool.eq_false_of_not_eq_true hstrict))

/-- The integers of DUPF. -/
theorem emits_sequence (hP : Item.Admits P) (hw : w.Finishes) {strict : Bool} {item : Item}
    (hitem : strict = false → P item) (loc : Location) (counter : Option Expr) (element : Expr)
    (first last step : Option Expr) (body : List Token) :
    Emits inMacro P (sequence w item strict loc counter element first last step body) := by
  rw [sequence]
  split
  · exact emits_defer hitem _
  · refine .andThen (.require _) fun start => .andThen (.require _) fun stride => ?_
    split
    · exact .report _
    · refine .andThen (.require _) fun stop => ?_
      split
      · exact .report _
      · refine .andThen (.act _) fun counter => .andThen (.act _) fun element => ?_
        rw [walk_eq_times]
        exact emits_times (fun k => emits_turn hP hw _ k _) _ 0

/-- DUP, DUPA, DUPC and DUPF. The statement itself is passed on only if it may wait. -/
theorem emits_dup (hP : Item.Admits P) (hw : w.Finishes) {strict : Bool} {item : Item}
    (hitem : strict = false → P item) (loc : Location) (counter : Option Expr) (iteration : Iteration)
    (body : List Token) : Emits inMacro P (dup w strict item loc counter iteration body) := by
  cases iteration with
  | count n =>
    rw [dup]
    split
    · refine .andThen (.require _) fun n => .andThen (.act _) fun counter => ?_
      exact emits_times (fun k => emits_turn hP hw _ k none) _ 0
    · exact emits_defer hitem n
  | list element items =>
    rw [dup]
    split
    · exact emits_defer hitem _
    · refine .andThen (.act _) fun counter => .andThen (.act _) fun element => ?_
      exact emits_each (fun k e => emits_turn hP hw _ k (some e)) items 0
  | characters element strings =>
    rw [dup]
    split
    · exact emits_defer hitem _
    · refine .andThen (.act _) fun counter => .andThen (.act _) fun element => ?_
      refine .andThen (.require _) fun items => ?_
      exact emits_each (fun k e => emits_turn hP hw _ k (some e)) items 0
  | sequence element first last step =>
    exact emits_sequence hP hw hitem loc counter element first last step body

end Replay

namespace Conditional

/-- The diagnostics of an arm are diagnostics, none of which is fatal. -/
def Fork.IsQuiet (f : Fork) : Prop := ∀ t ∈ f.messages, t.isMessage = true ∧ t.isFatal = false

/-- An arm is assembled against a copy of the scope. -/
theorem gives_prospect (body : List Token) : Emission.Gives Fork.IsQuiet (prospect w body) := by
  refine .andThen fun scope => .andThen fun run => .andThen fun b => .andThen fun _ => ?_
  refine .andThen fun out => .andThen fun copy => .andThen fun _ => ?_
  split
  · exact .report _
  · rename_i hfatal
    refine .pure fun t ht => ?_
    obtain ⟨hmem, hmessage⟩ := List.mem_filter.1 ht
    exact ⟨hmessage, isFatal_of_firstFatal?_eq_none hfatal t hmem⟩

/-- Assembling an arm emits nothing. -/
theorem silent_prospect (body : List Token) : Emission.Silent (prospect w body) := by
  refine .bind (.act _) fun scope => .bind Workbench.silent_requireRunner fun run => ?_
  refine .bind (.act _) fun b => .bind (.act _) fun _ => .bind (.perform _) fun out => ?_
  refine .bind (.act _) fun copy => .bind (.act _) fun _ => ?_
  split
  · exact .report _
  · exact .pure _

/-- All arms that take part are quiet. -/
def Arms.IsQuiet (arms : Arms) : Prop := ∀ fork ∈ arms.forks, fork.2.IsQuiet

/-- The arms that take part are quiet. -/
theorem gives_sift (otherwise : Option (List Token)) (clauses : List Clause) :
    Emission.Gives Arms.IsQuiet (sift w otherwise clauses) := by
  induction clauses with
  | nil => exact .pure fun fork hfork => absurd hfork List.not_mem_nil
  | cons c rest ih =>
    obtain ⟨test, body⟩ := c
    rw [sift]
    split
    · refine .andThen fun truth => ?_
      split
      · exact .pure fun fork hfork => absurd hfork List.not_mem_nil
      · exact ih
    · refine .bind (gives_prospect body) fun fork hfork => .bind ih fun arms harms => .pure ?_
      exact List.forall_mem_cons.2 ⟨hfork, harms⟩

/-- Going through the arms emits nothing. -/
theorem silent_sift (otherwise : Option (List Token)) (clauses : List Clause) :
    Emission.Silent (sift w otherwise clauses) := by
  induction clauses with
  | nil => exact .pure _
  | cons c rest ih =>
    obtain ⟨test, body⟩ := c
    rw [sift]
    split
    · refine .bind (.require _) fun truth => ?_
      split
      · exact .pure _
      · exact ih
    · exact .bind (silent_prospect body) fun fork => .bind ih fun arms => .pure _

theorem emits_messages (hP : Item.Admits P) {arms : Arms} (h : arms.IsQuiet) :
    Emits inMacro P (arms.forks.forM fun (_, fork) => Emission.emitAll fork.messages) :=
  .forM fun fork hfork => .messages hP fun t ht => (h fork hfork t ht).1

/-- The arm that is taken otherwise, if there is one. -/
def alternative (w : Workbench) (otherwise : Option (List Token)) : Emission (Option Fork) :=
  match otherwise with
  | none => pure none
  | some body => some <$> prospect w body

/-- The diagnostics of the arm that is taken otherwise. -/
def announce (final : Option Fork) : Emission PUnit :=
  match final with
  | none => pure ⟨⟩
  | some fork => Emission.emitAll fork.messages

/-- An IF that only the linker can decide shows the diagnostics of its arms, and what they did is merged. -/
theorem undecided_eq (loc : Location) (arms : Arms) :
    undecided w loc arms = (do
      arms.forks.forM fun (_, fork) => Emission.emitAll fork.messages
      let final ← alternative w arms.otherwise
      announce final
      conclude loc arms.forks final) := by
  rw [undecided, alternative.eq_def]
  cases arms.otherwise with
  | none => rfl
  | some body =>
    refine congrArg (_ >>= ·) (funext fun _ => congrArg (_ >>= ·) (funext fun final => ?_))
    cases final <;> rfl

/-- The arm that is taken otherwise is quiet. -/
theorem gives_alternative (otherwise : Option (List Token)) :
    Emission.Gives (fun final => ∀ fork ∈ final, fork.IsQuiet) (alternative w otherwise) := by
  cases otherwise with
  | none => exact .pure nofun
  | some body =>
    rw [alternative, map_eq_pure_bind]
    refine .bind (gives_prospect body) fun fork hfork => .pure fun f hf => ?_
    cases hf
    exact hfork

/-- Assembling the arm that is taken otherwise emits nothing. -/
theorem silent_alternative (otherwise : Option (List Token)) :
    Emission.Silent (alternative w otherwise) := by
  cases otherwise with
  | none => exact .pure _
  | some body =>
    rw [alternative, map_eq_pure_bind]
    exact .bind (silent_prospect body) fun fork => .pure _

/-- The end of an IF that only the linker can decide. -/
theorem emits_conclude (hP : Item.Admits P) (loc : Location) (forks : List (Expr × Fork))
    {final : Option Fork} (h : ∀ fork ∈ final, fork.IsQuiet) :
    Emits inMacro P (do announce final; conclude loc forks final) := by
  have hannounce : Emits inMacro P (announce final) := by
    cases final with
    | none => exact .pure _
    | some fork => exact .messages hP fun t ht => (h fork rfl t ht).1
  refine .andThen hannounce fun _ => .andThen (.act _) fun scope => .andThen (.act _) fun _ => ?_
  split
  · exact .raise _
  · exact .emitItem (hP _ rfl)

/-- IF. -/
theorem emits_assemble (hP : Item.Admits P) (hw : w.Finishes) (loc : Location) (clauses : List Clause)
    (otherwise : Option (List Token)) : Emits inMacro P (assemble w loc clauses otherwise) := by
  refine .bind (.silent (silent_sift otherwise clauses)) (gives_sift otherwise clauses) fun arms harms => ?_
  split
  · rw [undecided_eq]
    refine .andThen (emits_messages hP harms) fun _ => ?_
    exact .bind (.silent (silent_alternative _)) (gives_alternative _) fun final =>
      emits_conclude hP loc arms.forks
  · split
    · exact .pure _
    · refine hw.emits fun run hrun => .andThen (.act _) fun b => .andThen (.act _) fun scope => ?_
      exact Expand.emits_expand hP hrun b _ _ false

/-- An assembled IF that is decided is replaced by any tokens. -/
theorem emits_decide (item : Item) (clauses : List Clause) (otherwise : Option (List Token)) :
    Emits inMacro (fun _ => True) (decide item clauses otherwise) := by
  refine .andThen (.require _) fun ts => ?_
  split
  · exact .emitItem trivial
  · exact .emitAll fun _ _ => trivial

end Conditional

end Expansion

namespace Bind

variable {w : Workbench}

/-- LOCAL. -/
theorem emits_declareLocals (hP : Item.Admits P) (loc : Location) (names : List Expr) :
    Emits inMacro P (declareLocals w loc names) := by
  refine .andThen (.act _) fun ns => .forM fun name _ => .andThen (.act _) fun scope => ?_
  split
  · exact .warn hP _
  · exact .act _

/-- A label. -/
theorem emits_label (hP : Item.Admits P) (loc : Location) (name : Expr) :
    Emits inMacro P (label w loc name) := by
  refine .andThen (.act _) fun name => .andThen (.act _) fun sym => ?_
  split
  · exact .report _
  · exact .andThen (.act _) fun id => .andThen (.act _) fun _ => .emitItem (hP _ rfl)

/-- UNDEF and PMACRO. -/
theorem emits_retract (hP : Item.Admits P) (loc : Location) (what : Retraction) (names : List Expr) :
    Emits inMacro P (retract w loc what names) := by
  refine .andThen (.act _) fun ns => .forM fun name _ => .andThen (.act _) fun scope => ?_
  split
  · exact .act _
  · exact .warn hP _

/-- MACRO. -/
theorem emits_defineMacro (hP : Item.Admits P) (loc : Location) (name : Expr) (parameters : List Expr)
    (body : List Token) : Emits inMacro P (defineMacro w loc name parameters body) := by
  refine .andThen (.act _) fun name => .andThen (.act _) fun ps => .andThen (.act _) fun scope => ?_
  refine .andThen (.act _) fun scope => .andThen (.act _) fun _ => ?_
  dsimp only
  split
  · exact .warn hP _
  · exact .andThen (.act _) fun id => .act _

end Bind

/-- What GLOBAL and EXTERN leave of a statement: diagnostics, or a statement that is passed on. -/
theorem Declare.emits_declareGlobals {w : Workbench} (hP : ∀ i : Item, i.token.isMessage = true → P i)
    {t : Token} (ht : t.role ≠ .sharing → P (.settled t)) : Emits inMacro P (declareGlobals w t) := by
  have hglobal : ∀ (loc : Location) (change : Symbol → Symbol) (name : Text),
      Emits inMacro P (globalName loc change name) := by
    intro loc change name
    refine .andThen (.act _) fun scope => ?_
    split
    · exact .andThen (.emitItem (hP _ rfl)) fun _ => .pure _
    · exact .andThen (.act _) fun _ => .pure _
  rw [declareGlobals.eq_def]
  split
  · exact .andThen (.act _) fun names => .forM fun name _ => .andThen (hglobal _ _ name) fun _ => .pure _
  · refine .andThen (.act _) fun names => .forM fun name _ => .andThen (hglobal _ _ name) fun made => ?_
    split
    · refine .andThen (.act _) fun scope => .andThen (.act _) fun _ => ?_
      split
      · exact .pure _
      · exact .emitItem (hP _ rfl)
    · exact .pure _
  · rename_i hglobally hexternally
    refine .emitItem (ht fun hrole => ?_)
    cases t with
    | declare loc how names =>
      cases how with
      | globally weak => exact hglobally loc weak names rfl
      | externally attributes => exact hexternally loc attributes names rfl
      | locally => cases hrole
    | cond loc clauses otherwise assembled => cases assembled <;> cases hrole
    | _ => cases hrole

namespace Pass

variable {w : Workbench} {Q : Item → Prop} {p : Pass} {item : Item}

/-- What a step emits for an item, with the diagnostic of a failure. -/
theorem ordered_handle (hQ : ∀ i : Item, i.token.isMessage = true → Q i) (h : Emits inMacro Q (p item)) (s : State) :
    ((p.handle inMacro item).run s).1.Ordered inMacro Q := by
  rw [handle]
  split
  · rename_i hmessage
    exact Output.Ordered.empty.push (hQ _ hmessage)
  · have hafter := h (Output.empty inMacro, s) .empty
    rw [Emission.run_output]
    rcases hexec : (p item).exec (Output.empty inMacro, s) with ⟨r, q⟩
    rw [hexec] at hafter
    cases r with
    | ok _ => exact hafter
    | error f => exact hafter.push (hQ (.message (f.toDiagnostic item.token.loc)) rfl)

/-- What a step emits for items with a property has another one. -/
theorem maps_of_emits {P : Item → Prop} (hQ : Item.Admits Q) (h : ∀ item, P item → Emits inMacro Q (p item)) :
    p.Maps (fun _ _ => True) inMacro (fun _ => P) fun _ => Q :=
  fun item s hitem => ⟨trivial, fun i hi =>
    (ordered_handle (fun _ hmessage => hQ _ (Token.isExpanded_of_isMessage hmessage)) (h item hitem) s).holds i
      (List.mem_reverse.1 hi)⟩

/-- Names are bound, and what can be expanded is. -/
theorem emits_localize (hw : w.Finishes) (item : Item) :
    Emits inMacro (fun _ => True) (localize w item) := by
  have hP : Item.Admits fun _ => True := fun _ _ => trivial
  obtain ⟨token, pending⟩ := item
  cases token with
  | inclusion loc path loader => exact Expand.emits_inclusion hP hw loc path loader
  | radix loc value => exact .act _
  | declare loc how names =>
    cases how with
    | locally => exact Bind.emits_declareLocals hP loc names
    | _ => exact .emitItem trivial
  | assign loc how name value => cases how <;> exact .act _
  | label loc name => exact Bind.emits_label hP loc name
  | retract loc what names => exact Bind.emits_retract hP loc what names
  | macroDef loc name parameters body => exact Bind.emits_defineMacro hP loc name parameters body
  | cond loc clauses otherwise assembled =>
    cases assembled with
    | true => exact Conditional.emits_decide _ clauses otherwise
    | false => exact Conditional.emits_assemble hP hw loc clauses otherwise
  | dispatch d => exact Expand.emits_call hP hw false trivial d
  | dup loc counter iteration body =>
    exact Replay.emits_dup hP hw (fun _ => trivial) loc counter iteration body
  | _ => exact .emitItem trivial

/-- What is left is expanded, so that no DUP is. -/
theorem emits_expandRest (hw : w.Finishes) (item : Item) :
    Emits inMacro (fun i => i.token.role ≠ .replaying) (expandRest w item) := by
  have hP : Item.Admits fun i => i.token.role ≠ .replaying := by
    intro i hi hrole
    rw [Item.IsExpanded, Token.isExpanded, hrole] at hi
    cases hi
  obtain ⟨token, pending⟩ := item
  cases token with
  | dispatch d => exact Expand.emits_call hP hw true (fun h => by cases h) d
  | dup loc counter iteration body =>
    exact Replay.emits_dup hP hw Bool.noConfusion loc counter iteration body
  | declare _ how _ => exact .emitItem (by cases how <;> nofun)
  | cond _ _ _ assembled => exact .emitItem (by cases assembled <;> nofun)
  | _ => exact .emitItem nofun

/-- Relative jumps become branches, and no DUP. -/
theorem emits_relax {t : Token} (ht : t.role ≠ .replaying) :
    Emits inMacro (fun i => i.token.role ≠ .replaying) (Finish.relax t) := by
  have hmodify : ∀ {change : State → State} {t' : Token}, t'.role ≠ .replaying →
      Emits inMacro (fun i => i.token.role ≠ .replaying)
        (do modifyThe State change; Emission.emit t') :=
    fun ht' => .andThen (fun _ hp => hp) fun _ => .emitItem ht'
  cases t with
  | dispatch d =>
    refine .andThen (fun _ hp => hp) fun s => ?_
    have hrole : (Finish.relaxDispatch s.bankSwitched d).1.role ≠ .replaying := by
      rcases Finish.relaxDispatch_cases s.bankSwitched d with heq | ⟨b, heq, -⟩ <;> rw [heq] <;> nofun
    exact hmodify hrole
  | _ => exact hmodify ht

/-- Instructions are encoded, so that none is left. -/
theorem emits_encode {t : Token} (ht : t.role ≠ .replaying) :
    Emits inMacro Item.IsExpanded (Finish.encode w t) := by
  have hpass : ∀ t' : Token, t'.role ≠ .replaying → (∀ d, t' ≠ .dispatch d) →
      Emits inMacro Item.IsExpanded (Emission.emit t') := by
    refine fun t' hreplaying hdispatch => .emitItem ?_
    have hcalling : t'.role ≠ .calling := fun h => by
      obtain ⟨d, rfl⟩ := Token.exists_dispatch_of_role h
      exact hdispatch d rfl
    simp only [Item.IsExpanded, Item.settled, Token.isExpanded, Bool.and_eq_true, bne_iff_ne]
    exact ⟨hcalling, hreplaying⟩
  cases t with
  | dispatch d =>
    refine .andThen (.act _) fun mnemonic => ?_
    cases hr : Encode.instruction w.assembler.table mnemonic d with
    | error d => exact .report d
    | ok ts =>
      exact .emitAll fun t ht => Token.isExpanded_of_isOutput (Encode.isEncoded_of_instruction hr t ht).1
  | _ => exact hpass _ ht fun d hd => by cases hd

/-- Data are encoded, and texts are shown. -/
theorem emits_complete (hQ : Item.Admits Q) {t : Token} (ht : Q (.settled t)) :
    Emits inMacro Q (Finish.complete w t) := by
  cases t with
  | data loc kind values =>
    rw [Finish.complete]
    cases hr : Encode.data kind values with
    | error d => exact .report d
    | ok ts =>
      refine .emitAll fun t ht => hQ _ ?_
      exact Token.isExpanded_of_isOutput (Encode.isEncoded_of_data hr t ht).1
  | display loc kind text =>
    rw [Finish.complete]
    split
    · exact .andThen (.require _) fun shown => .warn hQ _
    · exact .emitItem ht
  | exitMacro loc =>
    rw [Finish.complete]
    split
    · exact .emitItem ht
    · exact .report _
  | _ => exact .emitItem ht

end Pass

/-- A trail in which no item but the last is terminal. It is stopped if that is. -/
structure Trail.Ordered (inMacro : Bool) (t : Trail) : Prop where
  /-- No item before the last is terminal. -/
  before : ∀ i ∈ t.items.dropLast, i.token.isTerminal inMacro = false
  /-- No item of a trail that goes on is terminal. -/
  isOpen : t.stopped = false → ∀ i ∈ t.items, i.token.isTerminal inMacro = false
  /-- No batch before the last is closed. -/
  batches : ∀ b ∈ t.reversed.tail, b.closed = false
  /-- No batch of a trail that goes on is closed. -/
  goesOn : t.stopped = false → ∀ b ∈ t.reversed, b.closed = false

namespace Stage

variable {last : Pass} {passes : List Pass}

/-- The items of an output are a batch of a trail that goes on. -/
theorem ordered_add {t : Trail} (ht : t.Ordered inMacro) (hopen : t.stopped = false) {o : Output}
    (ho : o.Ordered inMacro P) (s : State) : (t.add ⟨o.items, o.closed, s⟩).Ordered inMacro := by
  have hbefore := ht.isOpen hopen
  refine ⟨?_, fun hstopped => ?_, ht.goesOn hopen, fun hstopped => ?_⟩
  · rw [Trail.items_add]
    by_cases hnil : o.items = []
    · rw [hnil, List.append_nil]
      exact fun i hi => hbefore i (List.mem_of_mem_dropLast hi)
    · rw [List.dropLast_append_of_ne_nil hnil]
      intro i hi
      rcases List.mem_append.1 hi with hi | hi
      · exact hbefore i hi
      · refine ho.before i ?_
        rwa [Output.items, List.dropLast_reverse, List.mem_reverse] at hi
  · rw [Trail.stopped_add, Bool.or_eq_false_iff] at hstopped
    rw [Trail.items_add]
    intro i hi
    rcases List.mem_append.1 hi with hi | hi
    · exact hbefore i hi
    · exact ho.isOpen hstopped.2 i (List.mem_reverse.1 hi)
  · rw [Trail.stopped_add, Bool.or_eq_false_iff] at hstopped
    exact List.forall_mem_cons.2 ⟨hstopped.2, ht.goesOn hopen⟩

/-- Handling the items of a list one after the other. -/
theorem ordered_feed {f : Item → Trail → StateM State Trail}
    (hf : ∀ item t s, t.stopped = false → t.Ordered inMacro → ((f item t).run s).1.Ordered inMacro)
    (items : List Item) {t : Trail} (ht : t.Ordered inMacro) (s : State) :
    ((feed f items t).run s).1.Ordered inMacro := by
  induction items generalizing t s with
  | nil => exact ht
  | cons item rest ih =>
    cases hstopped : t.stopped with
    | true =>
      rw [run_feed_of_stopped hstopped]
      exact ht
    | false =>
      rw [run_feed_cons hstopped rfl]
      exact ih (hf item t s hstopped ht) _

/-- Taking an item through the steps of a stage. -/
theorem ordered_through (hlast : ∀ item s, ∃ P, ((last.handle inMacro item).run s).1.Ordered inMacro P)
    (item : Item) (t : Trail) (s : State) (hopen : t.stopped = false) (ht : t.Ordered inMacro) :
    ((through inMacro last passes item t).run s).1.Ordered inMacro := by
  induction passes generalizing item t s with
  | nil =>
    obtain ⟨P, hP⟩ := hlast item s
    rw [run_through_last rfl]
    exact ordered_add ht hopen hP _
  | cons p passes ih =>
    have hfeed := ordered_feed ih ((p.handle inMacro item).run s).1.items ht
      ((p.handle inMacro item).run s).2
    refine ⟨hfeed.before, fun hstopped => hfeed.isOpen ?_, hfeed.batches, fun hstopped => hfeed.goesOn ?_⟩
    all_goals exact (Bool.or_eq_false_iff.1 hstopped).1

/-- Taking the items of a list through the steps of a stage. -/
theorem ordered_run (hlast : ∀ item s, ∃ P, ((last.handle inMacro item).run s).1.Ordered inMacro P)
    (items : List Item) (s : State) : ((run inMacro passes last items).run s).1.Ordered inMacro :=
  ordered_feed (fun item t s => ordered_through hlast item t s) items
    ⟨fun _ h => absurd h List.not_mem_nil, fun _ _ h => absurd h List.not_mem_nil,
      fun _ h => absurd h List.not_mem_nil, fun _ _ h => absurd h List.not_mem_nil⟩ s

end Stage

namespace Workbench

variable {w : Workbench}

/-- The first stage of a block leaves no item before the last that is terminal. -/
theorem ordered_declareStage (w : Workbench) (source : List Token) (s : State) :
    ((w.declareStage source).run s).1.Ordered w.block.inMacro :=
  Stage.ordered_run (fun _ s => ⟨_, Pass.ordered_handle (fun _ _ => trivial)
    (Declare.emits_declareGlobals (fun _ _ => trivial) fun _ => trivial) s⟩) _ s

/-- The first two stages of a block leave no item before the last that is terminal. -/
theorem ordered_bindStage (hw : w.Finishes) (items : List Item) (s : State) :
    ((w.bindStage items).run s).1.Ordered w.block.inMacro :=
  Stage.ordered_run (fun item s => ⟨_, Pass.ordered_handle (fun _ _ => trivial)
    (Pass.emits_localize hw item) s⟩) _ s

/-- No item before the last that a block leaves is terminal. -/
theorem ordered_finishStage (w : Workbench) (items : List Item) (s : State) :
    ((w.finishStage items).run s).1.Ordered w.block.inMacro :=
  Stage.ordered_run (fun _ s => ⟨_, Pass.ordered_handle (fun _ _ => trivial)
    (Pass.emits_complete (fun _ _ => trivial) trivial) s⟩) _ s

/-- No item before the last that assembling a block gives is terminal. -/
theorem ordered_run (w : Workbench) (source : List Token) (s : State) :
    ((w.run source).run s).1.Ordered w.block.inMacro := by
  rw [run, StateM.run_bind, StateM.run_bind]
  exact ordered_finishStage w _ _

/-- Where nested blocks are expanded, a block leaves nothing to be expanded. -/
theorem Finishes.isExpanded_of_mem_finishStage (hw : w.Finishes) (items : List Item) (s : State) :
    ∀ i ∈ ((w.finishStage items).run s).1.items, i.IsExpanded := by
  have hR : Progress fun _ _ => True := ⟨fun _ => trivial, fun _ _ _ _ _ => trivial⟩
  have hstable : ∀ P : Item → Prop, Stable (fun _ _ => True) fun _ => P := fun _ _ _ _ _ h => h
  have hany : Item.Admits fun _ => True := fun _ _ => trivial
  have hreplaying : Item.Admits fun i => i.token.role ≠ .replaying := by
    intro i hi hrole
    rw [Item.IsExpanded, Token.isExpanded, hrole] at hi
    cases hi
  have hagain : ∀ item : Item, Emits w.block.inMacro (fun _ => True) (Pass.reduceAgain w item) := by
    intro item
    rw [Pass.reduceAgain]
    split
    · exact .andThen (.act _) fun t => .emitItem trivial
    · exact .emitItem trivial
  have hchain : Stage.Chain (fun _ _ => True) w.block.inMacro (fun _ _ => True)
      [.reduceAgain w, .localize w, .expandRest w, .ofToken Finish.relax, .ofToken (Finish.encode w)]
      (.ofToken (Finish.complete w)) fun _ => Item.IsExpanded := by
    refine .step (Pass.maps_of_emits hany fun item _ => hagain item) (hstable _) ?_
    refine .step (Pass.maps_of_emits hany fun item _ => Pass.emits_localize hw item) (hstable _) ?_
    refine .step (Pass.maps_of_emits hreplaying fun item _ => Pass.emits_expandRest hw item) (hstable _) ?_
    refine .step (Pass.maps_of_emits hreplaying fun item => Pass.emits_relax) (hstable _) ?_
    refine .step (Pass.maps_of_emits (fun _ h => h) fun item => Pass.emits_encode) (hstable _) ?_
    exact .last (Pass.maps_of_emits (fun _ h => h) fun item => Pass.emits_complete fun _ h => h)
  exact (Stage.run_maps hR (hstable _) (hstable _) hchain fun _ _ => trivial).2

/-- Where nested blocks are expanded, a block leaves nothing to be expanded, whatever it is made of. -/
theorem Finishes.isExpanded_of_mem_run (hw : w.Finishes) (source : List Token) (s : State) :
    ∀ t ∈ ((w.run source).run s).1.tokens, t.isExpanded = true := by
  intro t ht
  rw [run, StateM.run_bind, StateM.run_bind] at ht
  obtain ⟨i, hi, rfl⟩ := List.mem_map.1 ht
  exact hw.isExpanded_of_mem_finishStage _ _ i hi

end Workbench

namespace Assembler

/-- Assembles a block without the bank switch of the block around, which is there again afterwards. -/
def shield (x : StateM State Trail) : StateM State (List Token) := do
  let outer := (← get).bankSwitched
  modify fun s => { s with bankSwitched := false }
  let trail ← x
  modify fun s => { s with bankSwitched := outer }
  return trail.tokens

/-- What a shielded block gives. -/
theorem run_shield {x : StateM State Trail} {s s' : State} {t : Trail}
    (h : x.run { s with bankSwitched := false } = (t, s')) :
    (shield x).run s = (t.tokens, { s' with bankSwitched := s.bankSwitched }) := by
  rw [shield, run_shielded, h]

theorem runner_succ (a : Assembler) (depth : Nat) :
    a.runner (depth + 1) =
      some fun b source => shield (Workbench.run ⟨a, b, a.runner depth⟩ source) := rfl

/-- Nested blocks are expanded, to any depth. -/
theorem finishes_runner (a : Assembler) (depth : Nat) (run : Runner)
    (h : a.runner depth = some run) : run.Finishes := by
  induction depth generalizing run with
  | zero => cases h
  | succ depth ih =>
    rw [runner_succ, Option.some.injEq] at h
    intro b body s
    have hw : Workbench.Finishes ⟨a, b, a.runner depth⟩ := ih
    have hexpanded := hw.isExpanded_of_mem_run body { s with bankSwitched := false }
    rcases hrun : (Workbench.run ⟨a, b, a.runner depth⟩ body).run { s with bankSwitched := false } with
      ⟨t, s'⟩
    rw [hrun] at hexpanded
    rw [← h, run_shield hrun]
    exact hexpanded

end Assembler

end MacroAsm
