import MacroAsm.Assembly.Block

/-!
# Declaring global names

GLOBAL and EXTERN are carried out ahead of every other statement of their block, so that they hold for
the whole block wherever they stand in it.
-/

namespace MacroAsm

namespace Declare

/-- Makes a name global and applies a change to its symbol, located at `loc` unless it has a location
already. A name that cannot be made global is reported. Gives whether it is global now. -/
def globalName (loc : Location) (change : Symbol → Symbol) (name : Text) : Emission Bool := do
  match (← Act.scope).declareGlobal name with
  | .error c =>
    Emission.warn (.ofCause c loc)
    return false
  | .ok scope =>
    let located (s : Symbol) : Symbol := { s with loc := s.loc.orElse loc }
    Act.setScope { scope with root := scope.root.modify name fun s => located (change s) }
    return true

/-- Records attributes on a global name. The first that contradicts an earlier one is reported, and
those after it are dropped. -/
def attach (loc : Location) (attributes : Attributes) (name : Text) : Emission PUnit := do
  let scope ← Act.scope
  let known := ((scope.root.find? name).bind Symbol.attributes).getD []
  let (merged, clash) := Attributes.merge known attributes
  Act.setScope { scope with
    root := scope.root.modify name fun s => { s with attributes := some merged } }
  match clash with
  | none => return ⟨⟩
  | some (key, found) =>
    Emission.warn (.fail loc
      ("Variable " ++ name ++ " already defines " ++ key ++ " property as " ++ found))

/-- GLOBAL: makes a name global, weak or not. -/
def internalName (loc : Location) (weak : Bool) (name : Text) : Emission PUnit := do
  let _ ← globalName loc (fun s => { s with weak }) name
  return ⟨⟩

/-- EXTERN: makes a name global, with attributes. -/
def externalName (loc : Location) (attributes : Attributes) (name : Text) : Emission PUnit := do
  if (← globalName loc id name) && !attributes.isEmpty then attach loc attributes name

/-- Carries out GLOBAL and EXTERN, and passes on everything else. -/
def declareGlobals (w : Workbench) : Token → Emission PUnit
  | .declare loc (.globally weak) names => do
    (← Eval.namesOf w.around names).forM (internalName loc weak)
  | .declare loc (.externally attributes) names => do
    (← Eval.namesOf w.around names).forM (externalName loc (attributes.getD []))
  | t => Emission.emit t

end Declare

end MacroAsm
