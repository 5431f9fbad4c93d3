import MacroAsm.Eval.State

/-!
# What statements emit

Handling a statement emits items: tokens with a mark that tells whether they have to be evaluated
again. The output of a statement closes at the first terminal token, after which nothing is
emitted any more.
-/

namespace MacroAsm

/-- A token on its way through a block. -/
structure Item where
  /-- The token. -/
  token : Token
  /-- Whether its expressions are evaluated again once the whole block was seen. -/
  pending : Bool
deriving Inhabited

namespace Item

/-- An item that is not evaluated again. -/
def settled (t : Token) : Item := ⟨t, false⟩

/-- The item of a diagnostic. -/
def message (d : Diagnostic) : Item := settled (.message d)

/-- The item of a token that another block has finished. It is evaluated again as long as a name in it
waits to be bound. -/
def spliced (t : Token) : Item := ⟨t, !t.isResolved⟩

end Item

/-- Whether nothing follows a token: END, a fatal diagnostic and, within a macro, EXITM. -/
def Token.isTerminal (inMacro : Bool) : Token → Bool
  | .stop _ => true
  | .exitMacro _ => inMacro
  | .message d => d.isFatal
  | _ => false

/-- The items that were emitted so far. -/
structure Output where
  /-- Whether EXITM is terminal. -/
  inMacro : Bool
  /-- The items, the last one first. -/
  reversed : List Item
  /-- Whether a terminal token was emitted. -/
  closed : Bool
deriving Inhabited

namespace Output

/-- The output without items. -/
def empty (inMacro : Bool) : Output := ⟨inMacro, [], false⟩

/-- The items in the order in which they were emitted. -/
def items (o : Output) : List Item := o.reversed.reverse

/-- The output with one more item, unless it is closed. -/
def push (o : Output) (item : Item) : Output :=
  if o.closed then o
  else ⟨o.inMacro, item :: o.reversed, item.token.isTerminal o.inMacro⟩

/-- The output with the items of a list. -/
def pushAll (o : Output) (items : List Item) : Output := items.foldl push o

theorem push_of_closed {o : Output} (h : o.closed = true) (item : Item) : o.push item = o := by
  simp [push, h]

theorem items_push_of_open {o : Output} (h : o.closed = false) (item : Item) :
    (o.push item).items = o.items ++ [item] := by
  simp [push, h, items]

@[simp]
theorem inMacro_push (o : Output) (item : Item) : (o.push item).inMacro = o.inMacro := by
  unfold push
  split <;> rfl

end Output

/-- The handling of a statement: an action on the state that may fail, and that emits. What was done
and emitted before a failure stays. -/
abbrev Emission := ExceptT Failure (StateT Output (StateM State))

instance : MonadLift Act Emission where
  monadLift act := ExceptT.mk fun out => do
    let result ← act.run
    return (result, out)

namespace Emission

/-- Emits an item. -/
def emitItem (item : Item) : Emission PUnit :=
  ExceptT.mk fun out => return (.ok ⟨⟩, out.push item)

/-- Emits the items of a list. -/
def emitItems (items : List Item) : Emission PUnit :=
  ExceptT.mk fun out => return (.ok ⟨⟩, out.pushAll items)

/-- Emits a token that is not evaluated again. -/
def emit (t : Token) : Emission PUnit := emitItem (.settled t)

/-- Emits the tokens of a list, none of which is evaluated again. -/
def emitAll (ts : List Token) : Emission PUnit := emitItems (ts.map .settled)

/-- Emits a diagnostic. -/
def warn (d : Diagnostic) : Emission PUnit := emitItem (.message d)

/-- Whether a terminal token was emitted. -/
def isClosed : Emission Bool := ExceptT.mk fun out => return (.ok out.closed, out)

/-- Fails with a diagnostic. -/
def report {α : Type} (d : Diagnostic) : Emission α := throw (.report d)

/-- Fails with a cause. -/
def raise {α : Type} (c : Cause) : Emission α := throw (.raise c)

/-- The result of a computation that fails with a cause. -/
def require {α : Type} : Except Cause α → Emission α
  | .ok a => pure a
  | .error c => raise c

/-- An action on the state that neither fails nor emits. -/
def perform {α : Type} (act : StateM State α) : Emission α :=
  ExceptT.mk fun out => do
    let result ← act
    return (.ok result, out)

/-- The items that the handling of the statement at `loc` emits, the diagnostic of a failure being the
last. -/
def output (inMacro : Bool) (loc : Location) (e : Emission PUnit) : StateM State Output := do
  match ← ExceptT.run e (Output.empty inMacro) with
  | (.ok _, out) => return out
  | (.error f, out) => return out.push (.message (f.toDiagnostic loc))

end Emission

end MacroAsm
