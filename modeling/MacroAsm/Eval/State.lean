import MacroAsm.Scope.Merge

/-!
# The state of a run

What evaluation and assembly work on, and the actions they are made of. An action that fails keeps
the changes it made before.
-/

namespace MacroAsm

/-- What a run works on. -/
structure State where
  /-- The names known at this point. -/
  scope : Scope
  /-- How many expressions were left with names that wait to be bound. -/
  deferred : Nat
  /-- The next identity that was not handed out. -/
  supply : Nat
  /-- Whether the block switched the bank last, so that the jump that follows is left as written. -/
  bankSwitched : Bool
deriving Inhabited

/-- The state at the beginning of a run over a scope. -/
def State.start (scope : Scope) : State := ⟨scope, 0, 0, false⟩

/-- An action on the state that may fail. -/
abbrev Act := ExceptT Failure (StateM State)

namespace Act

/-- Fails with a cause. -/
def raise {α : Type} (c : Cause) : Act α := throw (.raise c)

/-- Fails with a diagnostic. -/
def report {α : Type} (d : Diagnostic) : Act α := throw (.report d)

/-- The result of a computation that fails with a cause. -/
def lift {α : Type} : Except Cause α → Act α
  | .ok a => pure a
  | .error c => raise c

/-- The scope of the state. -/
def scope : Act Scope := return (← get).scope

/-- Replaces the scope of the state. -/
def setScope (scope : Scope) : Act Unit := modify fun s => { s with scope }

/-- Changes the scope of the state. -/
def modifyScope (g : Scope → Scope) : Act Unit := modify fun s => { s with scope := g s.scope }

/-- Hands out an identity. -/
def fresh : Act Nat := do
  let s ← get
  set { s with supply := s.supply + 1 }
  return s.supply

end Act

/-- How identities are named: no two of them alike, and without a dot, which stands behind the name of a block in
the names that are local to it. -/
structure Naming where
  /-- The name of an identity. -/
  name : Nat → Text
  /-- Different identities have different names. -/
  injective : ∀ m n, name m = name n → m = n
  /-- There is no dot in a name. -/
  dotless : ∀ n, 46 ∉ (name n).bytes

namespace Naming

/-- What the names of counted identities begin with. -/
def stem : Text := "00000000-0000-4000-8000-"

/-- The names of 36 characters that end with the number of the identity. -/
def counted : Naming where
  name n := stem ++ Text.ofNatPadded 10 12 n
  injective m n h := by
    have hbytes : stem.bytes ++ (Text.ofNatPadded 10 12 m).bytes = stem.bytes ++ (Text.ofNatPadded 10 12 n).bytes :=
      congrArg Text.bytes h
    have hpadded := List.append_cancel_left hbytes
    rw [← Text.decimal_ofNatPadded 12 m, hpadded, Text.decimal_ofNatPadded]
  dotless n h := by
    rcases List.mem_append.1 h with hstem | hnumber
    · exact absurd hstem (by decide)
    · have hdigit := Text.isDigit_of_mem_ofNatPadded hnumber
      simp at hdigit

end Naming

end MacroAsm
