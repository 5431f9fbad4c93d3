import MacroAsm.Proofs.Assembly.Ordering

/-!
# The chronicle of a program

While a program is assembled, blocks are begun and diagnostics are produced: the handling of a statement emits
them or fails with one, and the account of the names of a nested block yields some. Here the steps of a block
are written down once more, each with the events that happen in it and in the blocks nested in it. What was
read with the statements of a block counts when its first stage passes it on. What a nested block gave, and the
block around passes on, is not counted again, and neither is what the later stages of a block take over from
the earlier ones.

Apart from the events each of these does the same as the step it stands for (`Telling.act_block`), so that
`Assembler.chronicle` lists the events of the very run that assembles the program.
-/

namespace MacroAsm

/-- What happens while a program is assembled. -/
inductive Event where
  /-- A diagnostic was produced. -/
  | said (d : Diagnostic)
  /-- A nested block was begun. -/
  | began (b : Block)

/-- The diagnostic that a token is. -/
def Token.diagnostic? : Token → Option Diagnostic
  | .message d => some d
  | _ => none

/-- The diagnostics among tokens. -/
def Token.diagnostics (ts : List Token) : List Diagnostic := ts.filterMap Token.diagnostic?

/-- The diagnostics among items. -/
def Item.diagnostics (items : List Item) : List Diagnostic := Token.diagnostics (items.map Item.token)

namespace Event

/-- The diagnostic that an event produced. -/
def diagnostic? : Event → Option Diagnostic
  | .said d => some d
  | .began _ => none

/-- The block that an event began. -/
def block? : Event → Option Block
  | .said _ => none
  | .began b => some b

/-- The diagnostics that were produced. -/
def diagnostics (events : List Event) : List Diagnostic := events.filterMap diagnostic?

/-- The blocks that were begun. -/
def blocks (events : List Event) : List Block := events.filterMap block?

end Event

/-- A run over the state, with the events that happen in it. -/
structure Recorded (α : Type) where
  /-- The run. -/
  act : StateM State α
  /-- The events, given the state in which it begins. -/
  log : State → List Event

instance : Monad Recorded where
  pure a := ⟨pure a, fun _ => []⟩
  bind x k := ⟨x.act >>= fun a => (k a).act, fun s =>
    x.log s ++ (k (x.act.run s).1).log (x.act.run s).2⟩

namespace Recorded

/-- A run in which nothing happens. -/
def quiet {α : Type} (x : StateM State α) : Recorded α := ⟨x, fun _ => []⟩

/-- What is emitted is produced by it. -/
def own (x : StateM State Output) : Recorded Output :=
  ⟨x, fun s => (Item.diagnostics (x.run s).1.items).map .said⟩

/-- The account of the names of a block. -/
def account (nested : Bool) : Recorded (List Token) :=
  ⟨MacroAsm.account nested, fun s => (Token.diagnostics ((MacroAsm.account nested).run s).1).map .said⟩

end Recorded

/-- The handling of a statement, with the events that happen in it. -/
structure Told (α : Type) where
  /-- The handling. -/
  act : Emission α
  /-- The events, given what was emitted before and the state in which it begins. -/
  log : Output × State → List Event

instance : Monad Told where
  pure a := ⟨pure a, fun _ => []⟩
  bind x k := ⟨x.act >>= fun a => (k a).act, fun p =>
    x.log p ++ match x.act.exec p with
      | (.ok a, q) => (k a).log q
      | (.error _, _) => []⟩

/-- A handling that assembles no nested block. The diagnostics that it emits were produced before. -/
instance : MonadLift Emission Told := ⟨fun e => ⟨e, fun _ => []⟩⟩

namespace Told

/-- A run over the state. -/
def perform {α : Type} (x : Recorded α) : Told α := ⟨Emission.perform x.act, fun p => x.log p.2⟩

/-- A handling that produces all diagnostics that it emits. -/
def own (e : Emission PUnit) : Told PUnit :=
  ⟨e, fun p => (Item.diagnostics ((e.exec p).2.1.items.drop p.1.items.length)).map .said⟩

/-- A nested block is begun under a new name. -/
def fresh (naming : Naming) (args : List Expr) (inMacro : Bool) : Told Block :=
  ⟨liftM (Block.fresh naming args inMacro), fun p =>
    [.began ⟨⟨naming.name p.2.supply, args⟩, inMacro, true⟩]⟩

/-- What a step emits for the statement at `loc`. A failure is a diagnostic that is produced. -/
def output (inMacro : Bool) (loc : Location) (x : Told PUnit) : Recorded Output :=
  ⟨x.act.output inMacro loc, fun s =>
    x.log (Output.empty inMacro, s) ++ match (x.act.exec (Output.empty inMacro, s)).1 with
      | .ok _ => []
      | .error f => [.said (f.toDiagnostic loc)]⟩

end Told

/-- The arm that was assembled against a copy of a scope, given its output. The scope itself comes back. -/
def Conditional.reap (scope : Scope) (out : List Token) : Emission Fork := do
  let copy ← Act.scope
  Act.setScope scope
  match firstFatal? out with
  | some d => Emission.report d
  | none => return ⟨copy.unnest, out.filter fun t => !t.isMessage, out.filter Token.isMessage⟩

/-- The events of nested blocks, given the state in which they begin. -/
abbrev Hearing := Block → List Token → State → List Event

/-- A nested block is assembled. -/
def Hearing.attend (hear : Hearing) (run : Runner) (b : Block) (source : List Token) :
    Recorded (List Token) :=
  ⟨run b source, hear b source⟩

namespace Telling

variable (hear : Hearing)

/-- Assembles a nested block, and accounts for the names of its frame. -/
def expand (run : Runner) (b : Block) (scope : Scope) (body : List Token) (macroCall : Bool) :
    Told PUnit := do
  Act.setScope scope
  Expand.splice macroCall (← Told.perform (hear.attend run b body))
  if !(← Emission.isClosed) then Emission.emitAll (← Told.perform (Recorded.account b.nested))
  Act.modifyScope Scope.unnest

/-- INCLUDE. -/
def inclusion (w : Workbench) (loc : Location) (path : Expr) (loader : Option Expr) : Told PUnit := do
  match w.assembler.includer with
  | none => Emission.report (.fatal loc "Cannot include files without a loader")
  | some find =>
    if !path.isConcrete then Emission.raise (.includePath path.describe)
    else
      let path ← Emission.require path.asText
      let loader ← match loader with
        | none => pure Text.empty
        | some e => Emission.require e.asText
      match find loc path loader with
      | .error d => Emission.report d
      | .ok body =>
        let run ← w.requireRunner
        let b ← Told.fresh w.assembler.naming w.around.args w.block.inMacro
        Expand.splice false (← Told.perform (hear.attend run b body))

/-- A macro call. -/
def call (w : Workbench) (strict : Bool) (item : Item) (d : Dispatch) : Told PUnit := do
  match Expand.macroOf? (← Act.scope) d with
  | none => Emission.emitItem item
  | some (name, m) =>
    if !Expr.allResolved d.operands then
      if strict then
        Emission.report (.fail d.loc
          ("Cannot evaluate macro " ++ name ++ ": unknown values as parameters"))
      else Emission.emitItem item
    else
      Act.modifyScope fun s => s.modify name fun sym => { sym with used := true }
      if d.operands.length < m.parameters.length then
        Emission.report (.fail d.loc ("Expected at least " ++ Text.ofNat m.parameters.length ++
          " arguments, found " ++ Text.ofNat d.operands.length))
      else
        let run ← w.requireRunner
        let b ← Told.fresh w.assembler.naming d.operands true
        let scope ← Emission.require (Expand.bindAll d.loc m.parameters d.operands (← Act.scope).nest)
        expand hear run b scope m.body true

/-- Repeats a turn so many times, until the output is closed. -/
def times (turn : Nat → Told PUnit) : Nat → Nat → Told PUnit
  | 0, _ => return ⟨⟩
  | n + 1, k => do
    if ← Emission.isClosed then return ⟨⟩
    else
      turn k
      times turn n (k + 1)

/-- Makes a turn for each element, until the output is closed. -/
def each (turn : Nat → Expr → Told PUnit) : List Expr → Nat → Told PUnit
  | [], _ => return ⟨⟩
  | e :: rest, k => do
    if ← Emission.isClosed then return ⟨⟩
    else
      turn k e
      each turn rest (k + 1)

/-- One iteration. -/
def turn (w : Workbench) (l : Replay.Loop) (k : Nat) (value : Option Expr) : Told PUnit := do
  let run ← w.requireRunner
  let b ← Told.fresh w.assembler.naming w.around.args w.block.inMacro
  let scope ← Emission.require (l.scope k value (← Act.scope))
  expand hear run b scope l.body false

/-- DUPF. -/
def sequence (w : Workbench) (item : Item) (strict : Bool) (loc : Location)
    (counter : Option Expr) (element : Expr) (first last step : Option Expr) (body : List Token) :
    Told PUnit := do
  match ([first, last, step].filterMap id).find? fun e => !e.isConcrete with
  | some e => Replay.defer strict item e
  | none =>
    let start ← Emission.require (Replay.boundOr first 0)
    let stride ← Emission.require (Replay.boundOr step 1)
    match last with
    | none => Emission.report (.fail loc "DUPF requires an end value")
    | some e =>
      let stop ← Emission.require e.asNumber
      if stride == 0 then
        Emission.report (.fatal loc "Attempting to use a zero step in DUPF")
      else
        let counter ← Replay.nameOr w.around counter
        let element ← Eval.nameOf w.around element
        let p : Progression := ⟨start.toInt, stop.toInt, stride.toInt⟩
        let loop : Replay.Loop := ⟨loc, counter, element, body⟩
        times (fun k => turn hear w loop k (some (.literal loc (Int64.ofInt (p.get k))))) p.count 0

/-- DUP, DUPA, DUPC and DUPF. -/
def dup (w : Workbench) (strict : Bool) (item : Item) (loc : Location) (counter : Option Expr)
    (iteration : Iteration) (body : List Token) : Told PUnit := do
  match iteration with
  | .count n =>
    if n.isConcrete then
      let n ← Emission.require n.asNumber
      let counter ← Replay.nameOr w.around counter
      times (fun k => turn hear w ⟨loc, counter, Text.empty, body⟩ k none) n.toInt.toNat 0
    else Replay.defer strict item n
  | .list element items =>
    match items.find? fun e => !e.isResolved with
    | some e => Replay.defer strict item e
    | none =>
      let counter ← Replay.nameOr w.around counter
      let element ← Eval.nameOf w.around element
      each (fun k e => turn hear w ⟨loc, counter, element, body⟩ k (some e)) items 0
  | .characters element strings =>
    match strings.find? fun e => !e.isConcrete with
    | some e => Replay.defer strict item e
    | none =>
      let counter ← Replay.nameOr w.around counter
      let element ← Eval.nameOf w.around element
      let items ← Emission.require (Replay.characters strings)
      each (fun k e => turn hear w ⟨loc, counter, element, body⟩ k (some e)) items 0
  | .sequence element first last step =>
    sequence hear w item strict loc counter element first last step body

/-- The whole output of a nested block, with the account of its names. -/
def collect (run : Runner) (b : Block) (body : List Token) : Recorded (List Token) := do
  let out ← hear.attend run b body
  if (Conditional.firstFatal? out).isSome then return out else return out ++ (← Recorded.account b.nested)

/-- The arm that a nested block stands for. -/
def arm (run : Runner) (b : Block) (scope : Scope) (body : List Token) : Told Conditional.Fork := do
  (Conditional.reap scope (← Told.perform (collect hear run b body)) : Emission Conditional.Fork)

/-- An arm of an IF. -/
def prospect (w : Workbench) (body : List Token) : Told Conditional.Fork := do
  let scope ← Act.scope
  let run ← w.requireRunner
  let b ← Told.fresh w.assembler.naming w.around.args w.block.inMacro
  Act.setScope scope.nest
  arm hear run b scope body

/-- Goes through the arms in order up to the first that is known to be taken. -/
def sift (w : Workbench) (otherwise : Option (List Token)) : List Clause → Told Conditional.Arms
  | [] => return ⟨[], otherwise⟩
  | .mk test body :: rest => do
    if test.isConcrete then
      if ← Emission.require test.asTruth then return ⟨[], some body⟩
      else sift w otherwise rest
    else
      let fork ← prospect hear w body
      let arms ← sift w otherwise rest
      return { arms with forks := (test, fork) :: arms.forks }

/-- The arm that is taken otherwise, if there is one. -/
def alternative (w : Workbench) (otherwise : Option (List Token)) : Told (Option Conditional.Fork) :=
  match otherwise with
  | none => pure none
  | some body => do return some (← prospect hear w body)

/-- An IF that only the linker can decide. -/
def undecided (w : Workbench) (loc : Location) (arms : Conditional.Arms) : Told PUnit := do
  (arms.forks.forM fun (_, fork) => Emission.emitAll fork.messages : Emission PUnit)
  let final ← alternative hear w arms.otherwise
  Conditional.announce final
  Conditional.conclude loc arms.forks final

/-- IF. -/
def assemble (w : Workbench) (loc : Location) (clauses : List Clause)
    (otherwise : Option (List Token)) : Told PUnit := do
  let arms ← sift hear w otherwise clauses
  if !arms.forks.isEmpty then undecided hear w loc arms
  else
    match arms.otherwise with
    | none => return ⟨⟩
    | some body =>
      let run ← w.requireRunner
      let b ← Told.fresh w.assembler.naming w.around.args w.block.inMacro
      expand hear run b (← Act.scope).nest body false

/-- A step of a stage, with the events that happen in it. -/
abbrev Step := Item → Told PUnit

/-- A step that assembles no nested block. It produces all diagnostics that it emits. -/
def own (p : Pass) : Step := fun item => Told.own (p item)

/-- Binds names, and expands what can be expanded by now. The arm that takes the place of an assembled IF was
told of when it was assembled. -/
def localize (w : Workbench) : Step := fun item =>
  match item.token with
  | .inclusion loc path loader => inclusion hear w loc path loader
  | .cond loc clauses otherwise assembled =>
    if assembled then (Conditional.decide item clauses otherwise : Emission PUnit)
    else assemble hear w loc clauses otherwise
  | .dispatch d => call hear w false item d
  | .dup loc counter iteration body => dup hear w false item loc counter iteration body
  | _ => own (.localize w) item

/-- Expands the macro calls and DUPs that are left. -/
def expandRest (w : Workbench) : Step := fun item =>
  match item.token with
  | .dispatch d => call hear w true item d
  | .dup loc counter iteration body => dup hear w true item loc counter iteration body
  | _ => own (.expandRest w) item

/-- What a step emits for an item. A diagnostic is not handled by any step. It is produced where it was read
with the statements of the block. -/
def handle (inMacro reading : Bool) (p : Step) (item : Item) : Recorded Output :=
  if item.token.isMessage then
    if reading then Recorded.own (return (Output.empty inMacro).push item)
    else Recorded.quiet (return (Output.empty inMacro).push item)
  else (p item).output inMacro item.token.loc

/-- Handles the items of a list one after the other, until the stage is stopped. -/
def feed (f : Item → Trail → Recorded Trail) : List Item → Trail → Recorded Trail
  | [], t => return t
  | item :: rest, t => if t.stopped then return t else do feed f rest (← f item t)

/-- Takes an item through the steps of a list and a last one. -/
def through (inMacro reading : Bool) (last : Step) : List Step → Item → Trail → Recorded Trail
  | [], item, t => do
    let out ← handle inMacro reading last item
    return ⟨⟨out.items, out.closed, ← Recorded.quiet get⟩ :: t.reversed, t.stopped || out.closed⟩
  | p :: passes, item, t => do
    let out ← handle inMacro reading p item
    let t ← feed (through inMacro reading last passes) out.items t
    return { t with stopped := t.stopped || out.closed }

/-- Takes the items of a list through the steps of a stage. -/
def stage (inMacro reading : Bool) (passes : List Step) (last : Step) (items : List Item) :
    Recorded Trail :=
  feed (through inMacro reading last passes) items Trail.empty

/-- The first stage of a block, which reads the diagnostics among its statements. -/
def declareStage (w : Workbench) (source : List Token) : Recorded Trail :=
  stage w.block.inMacro true [] (own (.ofToken (Declare.declareGlobals w))) (source.map .settled)

/-- The second stage of a block. -/
def bindStage (w : Workbench) (items : List Item) : Recorded Trail :=
  stage w.block.inMacro false [own (.reduceFirst w)] (localize hear w) (Stage.messagesFirst items)

/-- The third stage of a block. -/
def finishStage (w : Workbench) (items : List Item) : Recorded Trail :=
  stage w.block.inMacro false
    [own (.reduceAgain w), localize hear w, expandRest hear w, own (.ofToken Finish.relax),
      own (.ofToken (Finish.encode w))]
    (own (.ofToken (Finish.complete w))) (Stage.messagesFirst items)

/-- Assembles the statements of a block. -/
def block (w : Workbench) (source : List Token) : Recorded Trail := do
  let declared ← declareStage w source
  let bound ← bindStage hear w declared.items
  finishStage hear w bound.items

end Telling

namespace Assembler

/-- The events of nested blocks, within which blocks may be nested `depth - 1` deep. -/
def hear (a : Assembler) : Nat → Hearing
  | 0 => fun _ _ _ => []
  | depth + 1 => fun b source s =>
    (Telling.block (a.hear depth) ⟨a, b, a.runner depth⟩ source).log { s with bankSwitched := false }

/-- The events of a program over a root scope, the account of its names included. -/
def chronicle (a : Assembler) (scope : Scope) (source : List Token) : List Event :=
  .began a.outermost ::
    ((Telling.block (a.hear a.maxDepth) ⟨a, a.outermost, a.runner a.maxDepth⟩ source).log (start scope) ++
      (Token.diagnostics (a.assemble scope source).closing).map .said)

end Assembler

namespace Told

variable {α β : Type}

@[simp]
theorem act_pure (a : α) : (pure a : Told α).act = pure a := rfl

@[simp]
theorem act_bind (x : Told α) (k : α → Told β) : (x >>= k).act = x.act >>= fun a => (k a).act := rfl

@[simp]
theorem act_liftEmission (e : Emission α) : (liftM e : Told α).act = e := rfl

@[simp]
theorem act_liftAct (x : Act α) : (liftM x : Told α).act = liftM x := rfl

@[simp]
theorem act_perform (x : Recorded α) : (perform x).act = Emission.perform x.act := rfl

@[simp]
theorem act_own (e : Emission PUnit) : (own e).act = e := rfl

@[simp]
theorem act_fresh (naming : Naming) (args : List Expr) (inMacro : Bool) :
    (fresh naming args inMacro).act = liftM (Block.fresh naming args inMacro) := rfl

@[simp]
theorem act_ite (c : Prop) [Decidable c] (x y : Told α) :
    (if c then x else y).act = if c then x.act else y.act := apply_ite Told.act c x y

end Told

namespace Telling

variable {hear : Hearing} {w : Workbench}

theorem act_expand (run : Runner) (b : Block) (scope : Scope) (body : List Token) (macroCall : Bool) :
    (expand hear run b scope body macroCall).act = Expand.expand run b scope body macroCall := by
  simp [expand, Expand.expand, Hearing.attend, Recorded.account]

/-- INCLUDE does what it does without its events. -/
theorem act_inclusion (loc : Location) (path : Expr) (loader : Option Expr) :
    (inclusion hear w loc path loader).act = Expand.inclusion w loc path loader := by
  rw [inclusion, Expand.inclusion]
  cases w.assembler.includer with
  | none => rfl
  | some find =>
    have hfound : ∀ r : Except Diagnostic (List Token),
        (match r with
          | .error d => (Emission.report d : Emission PUnit)
          | .ok body => do
            let run ← w.requireRunner
            let b ← Told.fresh w.assembler.naming w.around.args w.block.inMacro
            Expand.splice false (← Told.perform (hear.attend run b body)) : Told PUnit).act =
        (match r with
          | .error d => Emission.report d
          | .ok body => do
            let run ← w.requireRunner
            let b ← Block.fresh w.assembler.naming w.around.args w.block.inMacro
            Expand.splice false (← Emission.perform (run b body))) := by
      intro r
      cases r <;> rfl
    rw [Told.act_ite]
    refine ite_congr rfl (fun _ => rfl) fun _ => ?_
    rw [Told.act_bind]
    refine bind_congr fun path => ?_
    cases loader with
    | none => exact hfound (find loc path Text.empty)
    | some e =>
      rw [Told.act_bind]
      exact bind_congr fun loader => hfound (find loc path loader)

/-- So does the call of a macro. -/
theorem act_call (strict : Bool) (item : Item) (d : Dispatch) :
    (call hear w strict item d).act = Expand.call w strict item d := by
  rw [call, Expand.call, Told.act_bind]
  refine bind_congr fun scope => ?_
  cases Expand.macroOf? scope d with
  | none => rfl
  | some found => simp [act_expand]

/-- So do the turns of a loop. -/
theorem act_times (turn : Nat → Told PUnit) (n k : Nat) :
    (times turn n k).act = Replay.times (fun k => (turn k).act) n k := by
  induction n generalizing k with
  | zero => rfl
  | succ n ih => simp [times, Replay.times, ih]

/-- So do the turns of a loop over expressions. -/
theorem act_each (turn : Nat → Expr → Told PUnit) (es : List Expr) (k : Nat) :
    (each turn es k).act = Replay.each (fun k e => (turn k e).act) es k := by
  induction es generalizing k with
  | nil => rfl
  | cons e rest ih => simp [each, Replay.each, ih]

theorem act_turn (l : Replay.Loop) (k : Nat) (value : Option Expr) :
    (turn hear w l k value).act = l.turn w k value := by
  simp [turn, Replay.Loop.turn, act_expand]

/-- So does a DUP over a sequence of numbers. -/
theorem act_sequence (item : Item) (strict : Bool) (loc : Location) (counter : Option Expr)
    (element : Expr) (first last step : Option Expr) (body : List Token) :
    (sequence hear w item strict loc counter element first last step body).act =
      Replay.sequence w item strict loc counter element first last step body := by
  rw [sequence, Replay.sequence]
  cases ([first, last, step].filterMap id).find? fun e => !e.isConcrete with
  | some e => rfl
  | none =>
    cases last with
    | none => rfl
    | some e => simp [act_times, act_turn, Replay.walk_eq_times]

/-- So does every DUP. -/
theorem act_dup (strict : Bool) (item : Item) (loc : Location) (counter : Option Expr)
    (iteration : Iteration) (body : List Token) :
    (dup hear w strict item loc counter iteration body).act =
      Replay.dup w strict item loc counter iteration body := by
  cases iteration with
  | count n => simp [dup, Replay.dup, act_times, act_turn]
  | list element items =>
    rw [dup, Replay.dup]
    cases items.find? fun e => !e.isResolved with
    | some e => rfl
    | none => simp [act_each, act_turn]
  | characters element strings =>
    rw [dup, Replay.dup]
    cases strings.find? fun e => !e.isConcrete with
    | some e => rfl
    | none => simp [act_each, act_turn]
  | sequence element first last step => exact act_sequence item strict loc counter element first last step body

/-- So does assembling an arm that is kept apart. -/
theorem act_collect (run : Runner) (b : Block) (body : List Token) :
    (collect hear run b body).act = Conditional.collect run b body := by
  rw [collect, Conditional.collect]
  refine bind_congr fun out => ?_
  dsimp only
  split <;> rfl

/-- So does looking ahead into an arm. -/
theorem act_prospect (body : List Token) : (prospect hear w body).act = Conditional.prospect w body := by
  rw [prospect, Conditional.prospect]
  simp only [arm, Told.act_bind, Told.act_liftAct, Told.act_liftEmission, Told.act_perform, act_collect,
    Told.act_fresh]
  rfl

/-- So do the arms of an IF. -/
theorem act_sift (otherwise : Option (List Token)) (clauses : List Clause) :
    (sift hear w otherwise clauses).act = Conditional.sift w otherwise clauses := by
  induction clauses with
  | nil => rfl
  | cons c rest ih =>
    obtain ⟨test, body⟩ := c
    simp [sift, Conditional.sift, ih, act_prospect]

/-- So does its last arm. -/
theorem act_alternative (otherwise : Option (List Token)) :
    (alternative hear w otherwise).act = Conditional.alternative w otherwise := by
  cases otherwise with
  | none => rfl
  | some body => simp [alternative, Conditional.alternative, act_prospect]

theorem act_undecided (loc : Location) (arms : Conditional.Arms) :
    (undecided hear w loc arms).act = Conditional.undecided w loc arms := by
  simp [undecided, Conditional.undecided_eq, act_alternative]

/-- So does an IF that is not decided. -/
theorem act_assemble (loc : Location) (clauses : List Clause) (otherwise : Option (List Token)) :
    (assemble hear w loc clauses otherwise).act = Conditional.assemble w loc clauses otherwise := by
  rw [assemble, Conditional.assemble]
  simp only [Told.act_bind, act_sift, Told.act_ite, act_undecided]
  refine bind_congr fun arms => ?_
  cases arms.otherwise with
  | none => rfl
  | some body => simp [act_expand]

/-- So does the step that binds and expands. -/
theorem act_localize (item : Item) : (localize hear w item).act = Pass.localize w item := by
  obtain ⟨token, pending⟩ := item
  cases token with
  | inclusion loc path loader => exact act_inclusion loc path loader
  | cond loc clauses otherwise assembled =>
    cases assembled with
    | true => rfl
    | false => exact act_assemble loc clauses otherwise
  | dispatch d => exact act_call false _ d
  | dup loc counter iteration body => exact act_dup false _ loc counter iteration body
  | _ => rfl

/-- So does the step that expands the rest. -/
theorem act_expandRest (item : Item) : (expandRest hear w item).act = Pass.expandRest w item := by
  obtain ⟨token, pending⟩ := item
  cases token with
  | dispatch d => exact act_call true _ d
  | dup loc counter iteration body => exact act_dup true _ loc counter iteration body
  | _ => rfl

/-- The pass that a step stands for. -/
def Step.pass (p : Step) : Pass := fun item => (p item).act

/-- So does a step that handles an item. -/
theorem act_handle (inMacro reading : Bool) (p : Step) (item : Item) :
    (handle inMacro reading p item).act = p.pass.handle inMacro item := by
  rw [handle, Pass.handle]
  split
  · cases reading <;> rfl
  · rfl

/-- So do items that are taken one after the other. -/
theorem act_feed {f : Item → Trail → Recorded Trail} {g : Item → Trail → StateM State Trail}
    (h : ∀ item t, (f item t).act = g item t) (items : List Item) (t : Trail) :
    (feed f items t).act = Stage.feed g items t := by
  induction items generalizing t with
  | nil => rfl
  | cons item rest ih =>
    rw [feed, Stage.feed]
    split
    · rfl
    · change ((f item t).act >>= fun t => (feed f rest t).act) = _
      rw [h]
      exact bind_congr ih

/-- So do the steps of a stage. -/
theorem act_through (inMacro reading : Bool) (last : Step) (passes : List Step) (item : Item)
    (t : Trail) :
    (through inMacro reading last passes item t).act =
      Stage.through inMacro last.pass (passes.map Step.pass) item t := by
  induction passes generalizing item t with
  | nil =>
    change ((handle inMacro reading last item).act >>= _) = _
    rw [act_handle]
    rfl
  | cons p passes ih =>
    change ((handle inMacro reading p item).act >>= fun out =>
      (feed (through inMacro reading last passes) out.items t).act >>= _) = _
    rw [act_handle]
    exact bind_congr fun out => by rw [act_feed ih]; rfl

/-- So does a stage. -/
theorem act_stage (inMacro reading : Bool) (passes : List Step) (last : Step) (items : List Item) :
    (stage inMacro reading passes last items).act =
      Stage.run inMacro (passes.map Step.pass) last.pass items :=
  act_feed (act_through inMacro reading last passes) items Trail.empty

theorem pass_localize : Step.pass (localize hear w) = Pass.localize w := funext act_localize

theorem pass_expandRest : Step.pass (expandRest hear w) = Pass.expandRest w := funext act_expandRest

theorem act_bindStage (items : List Item) : (bindStage hear w items).act = w.bindStage items := by
  rw [bindStage, act_stage, pass_localize]
  rfl

/-- So does the third one. -/
theorem act_finishStage (items : List Item) :
    (finishStage hear w items).act = w.finishStage items := by
  rw [finishStage, act_stage, List.map_cons, List.map_cons, List.map_cons, pass_localize, pass_expandRest]
  rfl

/-- Apart from the events, a block is assembled as it is. -/
theorem act_block (source : List Token) : (block hear w source).act = w.run source := by
  change ((declareStage w source).act >>= fun declared => (bindStage hear w declared.items).act >>=
    fun bound => (finishStage hear w bound.items).act) = _
  simp only [act_bindStage, act_finishStage]
  rw [declareStage, act_stage]
  rfl

end Telling

end MacroAsm
