import MacroAsm.Assembly.Block

/-!
# Binding names

The statements that declare, bind and remove names in the scope of a block.
-/

namespace MacroAsm

namespace Bind

/-- Declares a name in the innermost frame. A name that is global is reported. -/
def declareLocal (loc : Location) (name : Text) : Emission PUnit := do
  match (← Act.scope).declareLocal name with
  | .error c => Emission.warn (.ofCause c loc)
  | .ok scope =>
    Act.setScope (scope.modifyTop fun f => f.modify name fun s => { s with declared := true, loc })

/-- LOCAL: declares names in the innermost frame. -/
def declareLocals (w : Workbench) (loc : Location) (names : List Expr) : Emission PUnit := do
  (← Eval.namesOf w.around names).forM (declareLocal loc)

/-- The innermost symbol of a name. A name that no frame binds is declared by `declare` first. -/
def symbolOr (name : Text) (declare : Scope → Except Cause Scope) : Act Symbol := do
  let scope ← Act.scope
  match scope.find? name with
  | some sym => return sym
  | none =>
    let scope ← Act.lift (declare scope)
    Act.setScope scope
    return (scope.find? name).getD {}

/-- SET: binds a name, which is made local if it does not exist. -/
def assign (w : Workbench) (loc : Location) (name value : Expr) : Act PUnit := do
  let name ← Eval.nameOf w.around name
  let sym ← symbolOr name fun s => s.declareLocal name
  if sym.frozen && sym.isSet then Act.report (.fail loc ("Cannot set frozen value " ++ name))
  else Act.modifyScope fun s => s.modify name fun sym => { sym with value := some value, loc }

/-- EQU: binds a name once, which is made global if it does not exist. -/
def equate (w : Workbench) (loc : Location) (name value : Expr) : Act PUnit := do
  let name ← Eval.nameOf w.around name
  let sym ← symbolOr name fun s => s.declareGlobal name
  if sym.isSet then Act.report (.fail loc ("Cannot change frozen value " ++ name))
  else
    Act.modifyScope fun s =>
      s.modify name fun sym => { sym with value := some value, loc, frozen := true }

/-- DEFINE: binds a name that does not exist, for the whole program. -/
def define (w : Workbench) (loc : Location) (name value : Expr) : Act PUnit := do
  let name ← Eval.nameOf w.around name
  let scope ← Act.scope
  if (scope.find? name).isSome then Act.raise (.alreadyDeclared name)
  else
    let scope ← Act.lift (scope.declareGlobal name)
    Act.setScope (scope.modify name fun sym => { sym with value := some value, loc, define := true })

/-- A label: binds a name once to a new fragment, which is emitted where the label stands. -/
def label (w : Workbench) (loc : Location) (name : Expr) : Emission PUnit := do
  let name ← Eval.nameOf w.around name
  let sym ← symbolOr name fun s => s.declareLocal name
  if sym.isSet then Emission.report (.fail loc ("Cannot define label " ++ name))
  else
    let id := w.assembler.naming.name (← Act.fresh)
    Act.modifyScope fun s =>
      s.modify name fun sym =>
        { sym with value := some (.fragment loc id name), loc, frozen := true }
    Emission.emit (.fragment loc id name)

/-- Whether a symbol is what a statement removes. -/
def isRemovable : Retraction → Symbol → Bool
  | .defines, s => s.define
  | .macros, s => s.isMacro

/-- What a statement removes, in words. -/
def removableNoun : Retraction → Text
  | .defines => "definition"
  | .macros => "macro"

/-- Removes a name. One that is not of the kind to be removed is reported. -/
def retractName (loc : Location) (what : Retraction) (name : Text) : Emission PUnit := do
  let scope ← Act.scope
  if ((scope.find? name).map (isRemovable what)).getD false then
    Act.setScope (scope.remove name)
  else Emission.warn (.warn loc ("No " ++ removableNoun what ++ " named " ++ name))

/-- UNDEF and PMACRO: remove names. -/
def retract (w : Workbench) (loc : Location) (what : Retraction) (names : List Expr) :
    Emission PUnit := do
  (← Eval.namesOf w.around names).forM (retractName loc what)

/-- MACRO: binds a name of the innermost frame to a macro. A frozen value is kept. -/
def defineMacro (w : Workbench) (loc : Location) (name : Expr) (parameters : List Expr)
    (body : List Token) : Emission PUnit := do
  let name ← Eval.nameOf w.around name
  let parameters ← Eval.namesOf w.around parameters
  let scope ← Act.lift ((← Act.scope).declareLocal name)
  Act.setScope scope
  let sym := (scope.top.find? name).getD {}
  if sym.frozen && sym.value.isSome then
    Emission.warn (.warn loc ("Cannot reassign frozen value " ++ name ++ " to macro"))
  else
    let id ← Act.fresh
    Act.modifyScope fun s => s.modifyTop fun f => f.modify name fun sym =>
      { sym with value := none, template := some ⟨id, loc, parameters, body⟩, loc }

/-- RADIX: changes the radix in which numerals are read. -/
def setRadix (loc : Location) (value : Expr) : Act PUnit := do
  match value with
  | .number _ radix _ => Act.setScope (← Act.lift ((← Act.scope).setRadix radix loc))
  | .numeral _ _ => Act.setScope (← Act.lift ((← Act.scope).setRadix 0 loc))
  | e => Act.report (.fail loc ("RADIX expects a constant number, found " ++ e.describe))

end Bind

end MacroAsm
