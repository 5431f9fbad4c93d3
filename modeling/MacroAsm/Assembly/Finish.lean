import MacroAsm.Assembly.Block
import MacroAsm.Encode.Data
import MacroAsm.Encode.Instruction

/-!
# Finishing statements

The last steps of a statement: relative jumps to labels are left to the linker, instructions and data are
encoded, and texts are shown.
-/

namespace MacroAsm

namespace Finish

/-- The relative jumps and calls: whether it is a call, and whether it is long. -/
def relativeJumps : List (Text × Bool × Bool) :=
  [("JRS", false, false), ("JRL", false, true), ("CARS", true, false), ("CARL", true, true)]

/-- Whether an instruction is the switch of a bank: `LD NB`. -/
def isBankSwitch (mnemonic : Text) : List Expr → Bool
  | [.register r, _] => mnemonic == "LD" && r.name.upper == "NB"
  | _ => false

/-- The condition and the target of a jump to a label. -/
def jumpTarget? : List Expr → Option (Option Condition × Expr)
  | [.condition c, .identifier loc name] => some (some c, .identifier loc name)
  | [.condition c, .fragment loc id label] => some (some c, .fragment loc id label)
  | [.identifier loc name] => some (none, .identifier loc name)
  | [.fragment loc id label] => some (none, .fragment loc id label)
  | _ => none

/-- The branch that the linker selects the width of, for a relative jump or call to a label. -/
def branch? (d : Dispatch) (mnemonic : Text) : Option Branch := do
  let (isCall, long) ← relativeJumps.lookup mnemonic
  let (condition, target) ← jumpTarget? d.operands
  return ⟨d.loc, isCall, long, condition, target⟩

/-- An instruction with relative jumps turned into branches, and whether it leaves a bank switch behind.
The instruction after a bank switch is left as written, as it is the far jump that the switch is for. -/
def relaxDispatch (bankSwitched : Bool) (d : Dispatch) : Token × Bool :=
  match d.callee with
  | .identifier _ name =>
    let mnemonic := name.upper
    if isBankSwitch mnemonic d.operands then (.dispatch d, true)
    else if bankSwitched then (.dispatch d, false)
    else (((branch? d mnemonic).map Token.branch).getD (.dispatch d), false)
  | _ => (.dispatch d, bankSwitched)

/-- Turns relative jumps and calls to labels into branches. -/
def relax (t : Token) : Emission PUnit := do
  match t with
  | .dispatch d =>
    let (t, bankSwitched) := relaxDispatch (← getThe State).bankSwitched d
    modifyThe State fun s => { s with bankSwitched }
    Emission.emit t
  | t =>
    modifyThe State fun s => { s with bankSwitched := false }
    Emission.emit t

/-- Emits the tokens of an encoding, or fails with its diagnostic. -/
def encoded : Except Diagnostic (List Token) → Emission PUnit
  | .ok ts => Emission.emitAll ts
  | .error d => Emission.report d

/-- Encodes an instruction, and passes on everything else. -/
def encode (w : Workbench) : Token → Emission PUnit
  | .dispatch d => do
    let mnemonic ← Eval.nameOf w.around d.callee
    encoded (Encode.instruction w.assembler.table mnemonic d)
  | t => Emission.emit t

/-- The texts of known expressions, one after the other. -/
def displayText : List Expr → Except Cause Text
  | [] => .ok Text.empty
  | e :: rest => do
    let t ← e.asText
    return t ++ (← displayText rest)

/-- The severity with which the text of a display statement surfaces. -/
def displayLevel : DisplayKind → Level
  | .message => .info
  | .warning => .warn
  | .failure => .fail

/-- Encodes data, shows the texts that are known, and passes on the rest to the linker. An EXITM outside of
a macro is an error. -/
def complete (w : Workbench) : Token → Emission PUnit
  | .exitMacro loc =>
    if w.block.inMacro then Emission.emit (.exitMacro loc)
    else Emission.report (.fail loc "Misplaced EXITM, Must be used inside of a macro")
  | .data _ kind values => encoded (Encode.data kind values)
  | .display loc kind text =>
    if text.all Expr.isConcrete then do
      let shown ← Emission.require (displayText text)
      Emission.warn ⟨displayLevel kind, loc, shown, none⟩
    else Emission.emit (.display loc kind text)
  | t => Emission.emit t

end Finish

end MacroAsm
