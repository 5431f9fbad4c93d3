import MacroAsm.Eval.Flatten

/-!
# Evaluating the expressions of a token

Names that a statement declares are only built, so that they are never declared ahead by being looked
at. The bodies of an IF that is assembled are output, and are evaluated like any other; the body of any
other statement is left to the block that will be assembled from it.
-/

namespace MacroAsm

namespace Token

/-- Evaluates an expression that may be missing. -/
def reduce? (u : Surroundings) : Option Expr → Act (Option Expr)
  | none => return none
  | some e => some <$> Eval.evaluate u true e

/-- Builds the name of an expression that may be missing. -/
def nameOnly? (u : Surroundings) : Option Expr → Act (Option Expr)
  | none => return none
  | some e => some <$> Eval.nameOnly u e

/-- Evaluates the value of an assignment. The value of EQU and DEFINE must not lead back to the name. -/
def reduceValue (u : Surroundings) : Assignment → Expr → Expr → Act Expr
  | .equate, .identifier _ name, value => Eval.evaluateDefinition u name value
  | .define, .identifier _ name, value => Eval.evaluateDefinition u name value
  | _, _, value => Eval.evaluate u true value

/-- Evaluates what the body of a DUP is replayed for. -/
def reduceIteration (u : Surroundings) : Iteration → Act Iteration
  | .count n => return .count (← Eval.evaluate u true n)
  | .list element items => do
    let element ← Eval.nameOnly u element
    return .list element (← Eval.evaluateAll u true items)
  | .characters element strings => do
    let element ← Eval.nameOnly u element
    return .characters element (← Eval.evaluateAll u true strings)
  | .sequence element first last step => do
    let element ← Eval.nameOnly u element
    let first ← reduce? u first
    let last ← reduce? u last
    return .sequence element first last (← reduce? u step)

mutual

/-- A token with its expressions evaluated. -/
def reduce (u : Surroundings) : Token → Act Token
  | .inclusion loc path loader => do
    let path ← Eval.evaluate u true path
    return .inclusion loc path (← reduce? u loader)
  | .radix loc value => return .radix loc (← Eval.evaluate u true value)
  | .align loc value => return .align loc (← Eval.evaluate u true value)
  | .allocate loc size => return .allocate loc (← Eval.evaluate u true size)
  | .declare loc .locally names => return .declare loc .locally (← Eval.nameOnlyAll u names)
  | .retract loc what names => return .retract loc what (← Eval.nameOnlyAll u names)
  | .assign loc how name value => do
    let name ← Eval.nameOnly u name
    return .assign loc how name (← reduceValue u how name value)
  | .label loc name => return .label loc (← Eval.nameOnly u name)
  | .cond loc clauses otherwise assembled => do
    let clauses ← reduceClauses u assembled clauses
    return .cond loc clauses (← reduceBody u assembled otherwise) assembled
  | .display loc kind text => return .display loc kind (← Eval.evaluateAll u true text)
  | .data loc kind values => return .data loc kind (← Eval.evaluateAll u true values)
  | .dup loc counter iteration body => do
    let counter ← nameOnly? u counter
    return .dup loc counter (← reduceIteration u iteration) body
  | .macroDef loc name parameters body => do
    let name ← Eval.nameOnly u name
    return .macroDef loc name (← Eval.nameOnlyAll u parameters) body
  | .dispatch d => do
    let callee ← Eval.nameOnly u d.callee
    return .dispatch ⟨d.loc, callee, ← Eval.evaluateAll u true d.operands⟩
  | .immediate loc value size signed =>
    return .immediate loc (← Eval.evaluate u true value) size signed
  | .branch b => return .branch { b with target := ← Eval.evaluate u true b.target }
  | t => return t

/-- The arms of an IF with their tests evaluated, and their bodies if they are assembled. -/
def reduceClauses (u : Surroundings) (assembled : Bool) : List Clause → Act (List Clause)
  | [] => return []
  | .mk test body :: rest => do
    let test ← Eval.evaluate u true test
    let body ← if assembled then reduceAll u body else pure body
    return .mk test body :: (← reduceClauses u assembled rest)

/-- An optional body with its tokens evaluated, if it is assembled. -/
def reduceBody (u : Surroundings) (assembled : Bool) :
    Option (List Token) → Act (Option (List Token))
  | none => return none
  | some body => if assembled then some <$> reduceAll u body else return some body

/-- The tokens of a list with their expressions evaluated. -/
def reduceAll (u : Surroundings) : List Token → Act (List Token)
  | [] => return []
  | t :: rest => do
    let t ← reduce u t
    return t :: (← reduceAll u rest)

end

end Token

end MacroAsm
