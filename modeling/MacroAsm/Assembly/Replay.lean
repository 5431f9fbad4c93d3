import MacroAsm.Assembly.Expand
import MacroAsm.Assembly.Walk

/-!
# Replaying a body

DUP, DUPA, DUPC and DUPF replay a body, each iteration as a block of its own in which the number of the
iteration and the current element are bound. A terminal token in the body ends the loop.
-/

namespace MacroAsm

namespace Replay

/-- Repeats a turn so many times, the first under the number `k`, until the output is closed. -/
def times (turn : Nat → Emission PUnit) : Nat → Nat → Emission PUnit
  | 0, _ => return ⟨⟩
  | n + 1, k => do
    if ← Emission.isClosed then return ⟨⟩
    else
      turn k
      times turn n (k + 1)

/-- Makes a turn for each element, the first under the number `k`, until the output is closed. -/
def each (turn : Nat → Expr → Emission PUnit) : List Expr → Nat → Emission PUnit
  | [], _ => return ⟨⟩
  | e :: rest, k => do
    if ← Emission.isClosed then return ⟨⟩
    else
      turn k e
      each turn rest (k + 1)

/-- Makes a turn for each number of a walk, the first under the number `k`, until the output is closed. -/
def along (turn : Nat → Int64 → Emission PUnit) (r : Walk) (k : Nat) : Emission PUnit := do
  if ← Emission.isClosed then return ⟨⟩
  else
    turn k r.here
    match h : r.next? with
    | none => return ⟨⟩
    | some r' => along turn r' (k + 1)
termination_by r.left
decreasing_by exact Walk.left_lt h

/-- Makes a turn for each number from a start by a stride up to a last one, until the output is closed. -/
def walk (turn : Nat → Int64 → Emission PUnit) (start last stride : Int64) : Emission PUnit :=
  match Walk.start? start last stride with
  | none => return ⟨⟩
  | some r => along turn r 0

/-- The statement whose body is replayed, and the names bound in each iteration. An empty name is not
bound. -/
structure Loop where
  /-- Where the statement was read. -/
  loc : Location
  /-- The name of the number of the iteration. -/
  counter : Text
  /-- The name of the element. -/
  element : Text
  /-- The body. -/
  body : List Token
deriving Inhabited

/-- The scope of an iteration. -/
def Loop.scope (l : Loop) (k : Nat) (value : Option Expr) (scope : Scope) : Except Cause Scope := do
  let scope ← if l.counter.isEmpty then .ok scope.nest
    else Expand.bindIn scope.nest l.counter (.literal l.loc (Int64.ofNat k)) l.loc
  match value with
  | none => .ok scope
  | some v => if l.element.isEmpty then .ok scope else Expand.bindIn scope l.element v v.loc

/-- One iteration. -/
def Loop.turn (w : Workbench) (l : Loop) (k : Nat) (value : Option Expr) : Emission PUnit := do
  let run ← w.requireRunner
  let b ← Block.fresh w.assembler.naming w.around.args w.block.inMacro
  let scope ← Emission.require (l.scope k value (← Act.scope))
  Expand.expand run b scope l.body false

/-- The name that an expression spells, or nothing if there is none. -/
def nameOr (u : Surroundings) : Option Expr → Act Text
  | none => return Text.empty
  | some e => Eval.nameOf u e

/-- Passes on a statement whose bounds are not known, unless they have to be by now. -/
def defer (strict : Bool) (item : Item) (e : Expr) : Emission PUnit :=
  if strict then Emission.raise (.unresolved e.describe) else Emission.emitItem item

/-- The value of a bound that may be missing. -/
def boundOr (e : Option Expr) (missing : Int64) : Except Cause Int64 :=
  match e with
  | none => .ok missing
  | some e => e.asNumber

/-- The characters of the strings of a list, each as a number located where its string is. -/
def characters : List Expr → Except Cause (List Expr)
  | [] => .ok []
  | e :: rest => do
    let text ← e.asText
    let more ← characters rest
    return text.runes.map (fun r => .literal e.loc (Int64.ofNat r.toChar.toNat)) ++ more

/-- DUPF: the body for each number from a start to an end by a step. -/
def sequence (w : Workbench) (item : Item) (strict : Bool) (loc : Location)
    (counter : Option Expr) (element : Expr) (first last step : Option Expr) (body : List Token) :
    Emission PUnit := do
  match ([first, last, step].filterMap id).find? fun e => !e.isConcrete with
  | some e => defer strict item e
  | none =>
    let start ← Emission.require (boundOr first 0)
    let stride ← Emission.require (boundOr step 1)
    match last with
    | none => Emission.report (.fail loc "DUPF requires an end value")
    | some e =>
      let stop ← Emission.require e.asNumber
      if stride == 0 then
        Emission.report (.fatal loc "Attempting to use a zero step in DUPF")
      else
        let counter ← nameOr w.around counter
        let element ← Eval.nameOf w.around element
        let loop : Loop := ⟨loc, counter, element, body⟩
        walk (fun k v => loop.turn w k (some (.literal loc v))) start stop stride

/-- Replays the body of a DUP. A statement whose bounds are not known is passed on, unless they have to
be known by now. -/
def dup (w : Workbench) (strict : Bool) (item : Item) (loc : Location) (counter : Option Expr)
    (iteration : Iteration) (body : List Token) : Emission PUnit := do
  match iteration with
  | .count n =>
    if n.isConcrete then
      let n ← Emission.require n.asNumber
      let counter ← nameOr w.around counter
      times (fun k => Loop.turn w ⟨loc, counter, Text.empty, body⟩ k none) n.toInt.toNat 0
    else defer strict item n
  | .list element items =>
    match items.find? fun e => !e.isResolved with
    | some e => defer strict item e
    | none =>
      let counter ← nameOr w.around counter
      let element ← Eval.nameOf w.around element
      each (fun k e => Loop.turn w ⟨loc, counter, element, body⟩ k (some e)) items 0
  | .characters element strings =>
    match strings.find? fun e => !e.isConcrete with
    | some e => defer strict item e
    | none =>
      let counter ← nameOr w.around counter
      let element ← Eval.nameOf w.around element
      let items ← Emission.require (characters strings)
      each (fun k e => Loop.turn w ⟨loc, counter, element, body⟩ k (some e)) items 0
  | .sequence element first last step =>
    sequence w item strict loc counter element first last step body

end Replay

end MacroAsm
