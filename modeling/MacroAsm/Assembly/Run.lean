import MacroAsm.Assembly.Bind
import MacroAsm.Assembly.Conditional
import MacroAsm.Assembly.Declare
import MacroAsm.Assembly.Finish
import MacroAsm.Assembly.Reduce
import MacroAsm.Assembly.Replay

/-!
# Assembling blocks

The statements of a block go through three stages. The first declares the global names. The second binds
names and expands what can be expanded on first sight. The third evaluates again what waited for a name,
expands the rest and encodes. A stage begins when the one before it has seen the whole block, and it sees
the diagnostics first. Within a stage, what a step emits goes through the steps that follow before the
next statement is touched.
-/

namespace MacroAsm

/-- One step of a stage. -/
abbrev Pass := Item → Emission PUnit

namespace Pass

/-- What a step emits for an item. Diagnostics are not handled by any step. -/
def handle (inMacro : Bool) (p : Pass) (item : Item) : StateM State Output :=
  if item.token.isMessage then return (Output.empty inMacro).push item
  else (p item).output inMacro item.token.loc

/-- The step that handles a token regardless of whether it has to be evaluated again. -/
def ofToken (f : Token → Emission PUnit) : Pass := fun item => f item.token

/-- Evaluates a token, and marks it if a name in it waits to be bound. -/
def reduceFirst (w : Workbench) : Pass := fun item => do
  let before := (← getThe State).deferred
  let t ← Token.reduce w.around item.token
  Emission.emitItem ⟨t, before < (← getThe State).deferred⟩

/-- Evaluates a token again if it is marked. -/
def reduceAgain (w : Workbench) : Pass := fun item => do
  if item.pending then Emission.emit (← Token.reduce w.around item.token)
  else Emission.emitItem item

/-- Binds names, and expands what can be expanded by now: an INCLUDE, an IF, and the macro calls and DUPs
that are known well enough. -/
def localize (w : Workbench) : Pass := fun item =>
  match item.token with
  | .inclusion loc path loader => Expand.inclusion w loc path loader
  | .radix loc value => Bind.setRadix loc value
  | .declare loc .locally names => Bind.declareLocals w loc names
  | .assign loc .set name value => Bind.assign w loc name value
  | .assign loc .equate name value => Bind.equate w loc name value
  | .assign loc .define name value => Bind.define w loc name value
  | .label loc name => Bind.label w loc name
  | .retract loc what names => Bind.retract w loc what names
  | .macroDef loc name parameters body => Bind.defineMacro w loc name parameters body
  | .cond loc clauses otherwise assembled =>
    if assembled then Conditional.decide item clauses otherwise
    else Conditional.assemble w loc clauses otherwise
  | .dispatch d => Expand.call w false item d
  | .dup loc counter iteration body => Replay.dup w false item loc counter iteration body
  | _ => Emission.emitItem item

/-- Expands the macro calls and DUPs that are left. -/
def expandRest (w : Workbench) : Pass := fun item =>
  match item.token with
  | .dispatch d => Expand.call w true item d
  | .dup loc counter iteration body => Replay.dup w true item loc counter iteration body
  | _ => Emission.emitItem item

end Pass

/-- What the last step of a stage emits for one item. -/
structure Batch where
  /-- The items. -/
  items : List Item
  /-- Whether the last of them is terminal. -/
  closed : Bool
  /-- The state after the step. -/
  after : State
deriving Inhabited

/-- The tokens of a batch. -/
def Batch.tokens (b : Batch) : List Token := b.items.map Item.token

/-- The batches of a stage. -/
structure Trail where
  /-- The batches, the last one first. -/
  reversed : List Batch
  /-- Whether a step emitted a terminal token, which ends the stage. -/
  stopped : Bool
deriving Inhabited

namespace Trail

/-- The trail without batches. -/
def empty : Trail := ⟨[], false⟩

/-- The batches in order. -/
def batches (t : Trail) : List Batch := t.reversed.reverse

/-- The items of the batches in order. -/
def items (t : Trail) : List Item := t.batches.flatMap Batch.items

/-- The tokens of the batches in order. -/
def tokens (t : Trail) : List Token := t.items.map Item.token

end Trail

namespace Stage

/-- Handles the items of a list one after the other, until the stage is stopped. -/
def feed (f : Item → Trail → StateM State Trail) : List Item → Trail → StateM State Trail
  | [], t => return t
  | item :: rest, t => if t.stopped then return t else do feed f rest (← f item t)

/-- Takes an item through the steps of a list and a last one. What a step emits goes through the steps that
follow at once. -/
def through (inMacro : Bool) (last : Pass) : List Pass → Item → Trail → StateM State Trail
  | [], item, t => do
    let out ← last.handle inMacro item
    return ⟨⟨out.items, out.closed, ← get⟩ :: t.reversed, t.stopped || out.closed⟩
  | p :: passes, item, t => do
    let out ← p.handle inMacro item
    let t ← feed (through inMacro last passes) out.items t
    return { t with stopped := t.stopped || out.closed }

/-- Takes the items of a list through the steps of a stage. -/
def run (inMacro : Bool) (passes : List Pass) (last : Pass) (items : List Item) :
    StateM State Trail :=
  feed (through inMacro last passes) items Trail.empty

/-- The diagnostics first, and then everything else. -/
def messagesFirst (items : List Item) : List Item :=
  items.filter (fun i => i.token.isMessage) ++ items.filter fun i => !i.token.isMessage

end Stage

namespace Workbench

/-- The first stage: declares the global names. -/
def declareStage (w : Workbench) (source : List Token) : StateM State Trail :=
  Stage.run w.block.inMacro [] (.ofToken (Declare.declareGlobals w)) (source.map .settled)

/-- The second stage: binds names, and expands what can be expanded on first sight. -/
def bindStage (w : Workbench) (items : List Item) : StateM State Trail :=
  Stage.run w.block.inMacro [.reduceFirst w] (.localize w) (Stage.messagesFirst items)

/-- The third stage: evaluates again, expands the rest, and encodes. -/
def finishStage (w : Workbench) (items : List Item) : StateM State Trail :=
  Stage.run w.block.inMacro
    [.reduceAgain w, .localize w, .expandRest w, .ofToken Finish.relax,
      .ofToken (Finish.encode w)]
    (.ofToken (Finish.complete w)) (Stage.messagesFirst items)

/-- Assembles the statements of the block. -/
def run (w : Workbench) (source : List Token) : StateM State Trail := do
  let declared ← w.declareStage source
  let bound ← w.bindStage declared.items
  w.finishStage bound.items

end Workbench

namespace Assembler

/-- Assembles nested blocks, within which blocks may be nested `depth - 1` deep. A bank switch of the block
around does not reach into them, nor theirs out of them. -/
def runner (a : Assembler) : Nat → Option Runner
  | 0 => none
  | depth + 1 => some fun b source => do
    let outer := (← get).bankSwitched
    modify fun s => { s with bankSwitched := false }
    let trail ← Workbench.run ⟨a, b, a.runner depth⟩ source
    modify fun s => { s with bankSwitched := outer }
    return trail.tokens

/-- The block of a whole program. -/
def outermost (a : Assembler) : Block := ⟨⟨a.naming.name 0, []⟩, false, false⟩

/-- The state at the beginning of a program over a root scope. -/
def start (scope : Scope) : State := { State.start scope.nest with supply := 1 }

end Assembler

/-- A program that was assembled. -/
structure Assembly where
  /-- The state before the first statement. -/
  start : State
  /-- The output in batches, each with the state after it. -/
  batches : List Batch
  /-- The account of the names of the program. -/
  closing : List Token
  /-- The state at the end. -/
  final : State
deriving Inhabited

/-- Assembles a program over a root scope. The names of the program are accounted for, unless a fatal
diagnostic ended it. -/
def Assembler.assemble (a : Assembler) (scope : Scope) (source : List Token) : Assembly :=
  let start := Assembler.start scope
  let (trail, s) := (Workbench.run ⟨a, a.outermost, a.runner a.maxDepth⟩ source).run start
  let (closing, final) :=
    if trail.tokens.any Token.isFatal then ([], s) else (account false).run s
  ⟨start, trail.batches, closing, final⟩

namespace Assembly

/-- The whole output. -/
def tokens (a : Assembly) : List Token := a.batches.flatMap Batch.tokens ++ a.closing

/-- The scope at the end. -/
def scope (a : Assembly) : Scope := a.final.scope

/-- The output up to an interruption. -/
structure Delivery where
  /-- What was delivered. -/
  tokens : List Token
  /-- The scope when the delivery ended. -/
  scope : Scope
  /-- Whether it was interrupted. -/
  interrupted : Bool
deriving Inhabited

/-- The batches that are delivered if no batch is begun once `n` tokens were, and the state at the
interruption. A batch that ends the program is never followed by an interruption. -/
def deliverFrom (n : Nat) : List Batch → Nat → State → List Token × Option State
  | [], delivered, s => ([], if n ≤ delivered then some s else none)
  | b :: rest, delivered, s =>
    if n ≤ delivered then ([], some s)
    else if b.closed then (b.tokens, none)
    else
      let (tokens, s) := deliverFrom n rest (delivered + b.items.length) b.after
      (b.tokens ++ tokens, s)

/-- What is delivered if the run is interrupted once `n` tokens were taken from it. -/
def interrupt (a : Assembly) (n : Nat) : Delivery :=
  match deliverFrom n a.batches 0 a.start with
  | (tokens, some s) => ⟨tokens, s.scope, true⟩
  | (tokens, none) => ⟨tokens ++ a.closing, a.scope, false⟩

/-- What is delivered if the run is not interrupted. -/
def deliver (a : Assembly) : Delivery := ⟨a.tokens, a.scope, false⟩

end Assembly

end MacroAsm
