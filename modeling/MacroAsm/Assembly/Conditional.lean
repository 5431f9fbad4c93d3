import MacroAsm.Assembly.Expand
import MacroAsm.Scope.Merge

/-!
# Conditions

The first arm of an IF whose test is known to be true is the only one that is assembled. Arms whose
tests only the linker can decide are each assembled against a copy of the scope. The IF is then emitted
with its assembled arms, and what the arms did to the scope is merged.
-/

namespace MacroAsm

namespace Conditional

/-- An arm that was assembled against a copy of the scope. -/
structure Fork where
  /-- The copy of the scope after the arm. -/
  scope : Scope
  /-- The output of the arm without diagnostics. -/
  body : List Token
  /-- The diagnostics of the arm, which are reported whichever arm is taken. -/
  messages : List Token
deriving Inhabited

/-- The first fatal diagnostic of a list of tokens. -/
def firstFatal? : List Token → Option Diagnostic
  | [] => none
  | .message d :: rest => if d.isFatal then some d else firstFatal? rest
  | _ :: rest => firstFatal? rest

/-- The whole output of a nested block over the scope of the state, with the account of its names unless
it was ended by a fatal diagnostic. -/
def collect (run : Runner) (b : Block) (body : List Token) : StateM State (List Token) := do
  let out ← run b body
  if (firstFatal? out).isSome then return out else return out ++ (← account b.nested)

/-- Assembles an arm against a copy of the scope. The scope itself is not changed. A fatal diagnostic is a
failure. -/
def prospect (w : Workbench) (body : List Token) : Emission Fork := do
  let scope ← Act.scope
  let run ← w.requireRunner
  let b ← Block.fresh w.assembler.naming w.around.args w.block.inMacro
  Act.setScope scope.nest
  let out ← Emission.perform (collect run b body)
  let copy ← Act.scope
  Act.setScope scope
  match firstFatal? out with
  | some d => Emission.report d
  | none => return ⟨copy.unnest, out.filter fun t => !t.isMessage, out.filter Token.isMessage⟩

/-- The arms of an IF that take part: those that only the linker can decide, and what is taken if none of
them is. -/
structure Arms where
  /-- The undecided tests and their arms. -/
  forks : List (Expr × Fork)
  /-- What is taken otherwise, if there is something. -/
  otherwise : Option (List Token)
deriving Inhabited

/-- Goes through the arms in order up to the first that is known to be taken. -/
def sift (w : Workbench) (otherwise : Option (List Token)) : List Clause → Emission Arms
  | [] => return ⟨[], otherwise⟩
  | .mk test body :: rest => do
    if test.isConcrete then
      if ← Emission.require test.asTruth then return ⟨[], some body⟩
      else sift w otherwise rest
    else
      let fork ← prospect w body
      let arms ← sift w otherwise rest
      return { arms with forks := (test, fork) :: arms.forks }

/-- Merges the forks into a scope, the last one first. `fallback` is the scope if no test holds.
What was merged before a failure stays. -/
def mergeForks (fallback : Scope) : List (Expr × Fork) → Scope → Scope × Option Cause
  | [], scope => (scope, none)
  | [(test, fork)], scope => scope.merge test fork.scope fallback
  | (test, fork) :: rest, scope =>
    match mergeForks fallback rest scope with
    | (scope, some c) => (scope, some c)
    | (scope, none) => scope.merge test fork.scope scope

/-- The body of an ELSE, which is left out if it is empty. -/
def bodyOr (body : List Token) : Option (List Token) := if body.isEmpty then none else some body

/-- Emits an IF that only the linker can decide, and merges what its arms did. -/
def undecided (w : Workbench) (loc : Location) (arms : Arms) : Emission PUnit := do
  arms.forks.forM fun (_, fork) => Emission.emitAll fork.messages
  let final ← match arms.otherwise with
    | none => pure none
    | some body => some <$> prospect w body
  match final with
  | none => pure ⟨⟩
  | some fork => Emission.emitAll fork.messages
  let scope ← Act.scope
  let fallback := (final.map Fork.scope).getD scope
  let (merged, failed) := mergeForks fallback arms.forks scope
  Act.setScope merged
  match failed with
  | some c => Emission.raise c
  | none =>
    let clauses := arms.forks.map fun (test, fork) => Clause.mk test fork.body
    Emission.emitItem ⟨.cond loc clauses (final.bind fun fork => bodyOr fork.body) true, true⟩

/-- Assembles an IF. -/
def assemble (w : Workbench) (loc : Location) (clauses : List Clause)
    (otherwise : Option (List Token)) : Emission PUnit := do
  let arms ← sift w otherwise clauses
  if !arms.forks.isEmpty then undecided w loc arms
  else
    match arms.otherwise with
    | none => return ⟨⟩
    | some body =>
      let run ← w.requireRunner
      let b ← Block.fresh w.assembler.naming w.around.args w.block.inMacro
      Expand.expand run b (← Act.scope).nest body false

/-- The tokens that take the place of an assembled IF, or nothing if only the linker can decide it. -/
def decide? (otherwise : Option (List Token)) : List Clause → Except Cause (Option (List Token))
  | [] => .ok (some (otherwise.getD []))
  | .mk test body :: rest =>
    if test.isConcrete then do
      if ← test.asTruth then return some body else decide? otherwise rest
    else .ok none

/-- Emits the arm of an assembled IF that is taken. An IF that only the linker can decide is passed on. -/
def decide (item : Item) (clauses : List Clause) (otherwise : Option (List Token)) :
    Emission PUnit := do
  match ← Emission.require (decide? otherwise clauses) with
  | none => Emission.emitItem item
  | some tokens => Emission.emitAll tokens

end Conditional

end MacroAsm
