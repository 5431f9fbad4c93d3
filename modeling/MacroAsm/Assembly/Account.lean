import MacroAsm.Eval.State

/-!
# Accounting for the names of a block

At the end of a block its names are accounted for. A name that was used and never defined moves to the
block around, which may still define it; where there is none it is an error.
-/

namespace MacroAsm

/-- What becomes of a name at the end of a block. -/
inductive Verdict where
  /-- It was defined and used. -/
  | settled
  /-- It moves to the block around. -/
  | hoisted
  /-- It is reported. -/
  | reported (d : Diagnostic)

/-- The verdict on a name, in a block that is or is not nested in another. -/
def Symbol.verdict (nested : Bool) (name : Text) (s : Symbol) : Verdict :=
  if s.used then
    if s.isSet then .settled
    else if nested && !s.declared then .hoisted
    else .reported (.fail s.loc ("Local variable " ++ name ++ " is used, but is never defined"))
  else if s.isSet then
    .reported (.warn s.loc ("Local variable " ++ name ++ " is defined, but is never used"))
  else .reported (.warn s.loc ("Unused identifier " ++ name))

namespace Scope

/-- Accounts for the bindings of a list: the scope without those that moved, and the reports. -/
def accountFor (nested : Bool) : List (Text × Symbol) → Scope → Scope × List Token
  | [], s => (s, [])
  | (name, sym) :: rest, s =>
    match sym.verdict nested name with
    | .settled => accountFor nested rest s
    | .hoisted => accountFor nested rest (s.hoist name).1
    | .reported d =>
      let (s, reports) := accountFor nested rest s
      (s, .message d :: reports)

/-- Accounts for the names of the innermost frame. -/
def account (nested : Bool) (s : Scope) : Scope × List Token := accountFor nested s.bindings s

end Scope

/-- Accounts for the names of the block that is assembled over the state. -/
def account (nested : Bool) : StateM State (List Token) := do
  let s ← get
  let (scope, reports) := s.scope.account nested
  set { s with scope }
  return reports

end MacroAsm
