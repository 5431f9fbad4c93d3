import MacroAsm.Assembly.Account
import MacroAsm.Assembly.Block

/-!
# Expanding statements into blocks

An INCLUDE, a macro call and every iteration of a DUP is assembled as a block of its own, and its output
takes the place of the statement.
-/

namespace MacroAsm

namespace Expand

/-- The scope with a name bound in its innermost frame. It counts as used, so that it is never reported. -/
def bindIn (scope : Scope) (name : Text) (value : Expr) (loc : Location) :
    Except Cause Scope := do
  let scope ← scope.declareLocal name
  return scope.modifyTop fun f =>
    f.modify name fun s => { s with value := some value, loc, used := true }

/-- The scope with every parameter of a macro bound to its argument. -/
def bindAll (loc : Location) : List Text → List Expr → Scope → Except Cause Scope
  | p :: ps, e :: es, scope => do bindAll loc ps es (← bindIn scope p e loc)
  | _, _, scope => .ok scope

/-- Whether a token of a nested block takes no part in the output of the block around it. -/
def isDropped (macroCall : Bool) : Token → Bool
  | .exitMacro _ => macroCall
  | _ => false

/-- Emits the output of a nested block. The EXITM that ends a macro call is dropped. -/
def splice (macroCall : Bool) (tokens : List Token) : Emission PUnit :=
  Emission.emitItems ((tokens.filter fun t => !isDropped macroCall t).map .spliced)

/-- Assembles a nested block over a scope that has a frame for it, and accounts for the names of that
frame unless the output is closed. The frame goes with the block. -/
def expand (run : Runner) (b : Block) (scope : Scope) (body : List Token) (macroCall : Bool) :
    Emission PUnit := do
  Act.setScope scope
  splice macroCall (← Emission.perform (run b body))
  if !(← Emission.isClosed) then Emission.emitAll (← Emission.perform (account b.nested))
  Act.modifyScope Scope.unnest

/-- INCLUDE: assembles a file as a block over the same scope. -/
def inclusion (w : Workbench) (loc : Location) (path : Expr) (loader : Option Expr) :
    Emission PUnit := do
  match w.assembler.includer with
  | none => Emission.report (.fatal loc "Cannot include files without a loader")
  | some find =>
    if !path.isConcrete then Emission.raise (.includePath path.describe)
    else
      let path ← Emission.require path.asText
      let loader ← match loader with
        | none => pure Text.empty
        | some e => Emission.require e.asText
      match find loc path loader with
      | .error d => Emission.report d
      | .ok body =>
        let run ← w.requireRunner
        let b ← Block.fresh w.assembler.naming w.around.args w.block.inMacro
        splice false (← Emission.perform (run b body))

/-- The macro that a statement calls, and its name. -/
def macroOf? (scope : Scope) (d : Dispatch) : Option (Text × Macro) :=
  match d.callee with
  | .identifier _ name => ((scope.find? name).bind Symbol.template).map fun m => (name, m)
  | _ => none

/-- Expands the call of a macro, and passes on everything else. A call with arguments that are not
resolved is passed on too, unless they have to be known by now. -/
def call (w : Workbench) (strict : Bool) (item : Item) (d : Dispatch) : Emission PUnit := do
  match macroOf? (← Act.scope) d with
  | none => Emission.emitItem item
  | some (name, m) =>
    if !Expr.allResolved d.operands then
      if strict then
        Emission.report (.fail d.loc
          ("Cannot evaluate macro " ++ name ++ ": unknown values as parameters"))
      else Emission.emitItem item
    else
      Act.modifyScope fun s => s.modify name fun sym => { sym with used := true }
      if d.operands.length < m.parameters.length then
        Emission.report (.fail d.loc ("Expected at least " ++ Text.ofNat m.parameters.length ++
          " arguments, found " ++ Text.ofNat d.operands.length))
      else
        let run ← w.requireRunner
        let b ← Block.fresh w.assembler.naming d.operands true
        let scope ← Emission.require (bindAll d.loc m.parameters d.operands (← Act.scope).nest)
        expand run b scope m.body true

end Expand

end MacroAsm
