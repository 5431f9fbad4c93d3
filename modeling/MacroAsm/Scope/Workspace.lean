import MacroAsm.Eval.Flatten

/-!
# Workspaces

Several scopes at once. A scope that is nested in another shares the frames of the other, so what is
done through one of them to a shared frame is seen through both, while a preserved scope shares
nothing. Frames are kept in a list and scopes name them by position.
-/

namespace MacroAsm

/-- A chain of frames by their positions in a workspace. -/
structure Chain where
  /-- The root frame. -/
  root : Nat
  /-- The other frames, innermost first. -/
  inner : List Nat
deriving DecidableEq, Inhabited, Repr

/-- A scope of a workspace, with what surrounds the expressions that are evaluated in it. -/
structure Desk where
  /-- The frames of the scope. -/
  chain : Chain
  /-- The unit and the macro arguments. -/
  around : Surroundings
  /-- How many expressions evaluation left waiting for a name. -/
  deferred : Nat
deriving Inhabited

/-- Scopes that may share frames. -/
structure Workspace where
  /-- The frames. -/
  frames : List Frame
  /-- The scopes by name, the last one of a name counting. -/
  desks : List (Text × Desk)
  /-- The next identity that was not handed out. -/
  supply : Nat
deriving Inhabited

namespace Workspace

/-- The workspace of one initial scope, named `name`. -/
def initial (name unit : Text) : Workspace :=
  { frames := [Scope.initial.root]
    desks := [(name, ⟨⟨0, []⟩, ⟨unit, []⟩, 0⟩)]
    supply := 0 }

/-- The frame at a position. -/
def frame (w : Workspace) (i : Nat) : Frame := w.frames.getD i Frame.empty

/-- The scope of a chain. -/
def view (w : Workspace) (c : Chain) : Scope := ⟨w.frame c.root, c.inner.map w.frame⟩

/-- Writes a scope of the same depth back to the frames of a chain. -/
def write (w : Workspace) (c : Chain) (s : Scope) : Workspace :=
  { w with
    frames := (List.zip (c.root :: c.inner) (s.root :: s.inner)).foldl
      (fun fs (i, f) => fs.set i f) w.frames }

/-- The scope with a name. -/
def desk? (w : Workspace) (name : Text) : Option Desk := w.desks.lookup name

/-- Enters a scope under a name. -/
def setDesk (w : Workspace) (name : Text) (d : Desk) : Workspace :=
  { w with desks := (name, d) :: w.desks.filter fun entry => entry.1 != name }

/-- Adds a frame on top of a chain. -/
def nest (w : Workspace) (c : Chain) : Workspace × Chain :=
  ({ w with frames := w.frames ++ [Frame.empty] },
    { c with inner := w.frames.length :: c.inner })

/-- Copies the frames of a chain. -/
def preserve (w : Workspace) (c : Chain) : Workspace × Chain :=
  let n := w.frames.length
  ({ w with frames := w.frames ++ w.frame c.root :: c.inner.map w.frame },
    ⟨n, (List.range c.inner.length).map (n + 1 + ·)⟩)

/-- Runs an action in the scope of a name, and writes back what it changed. -/
def run {α : Type} (w : Workspace) (name : Text) (d : Desk) (act : Act α) :
    Except Failure α × Workspace :=
  let (result, s) := act.run.run ⟨w.view d.chain, d.deferred, w.supply, false⟩
  let w := { w with supply := s.supply }
  (result, (w.write d.chain s.scope).setDesk name { d with deferred := s.deferred })

end Workspace

end MacroAsm
