import MacroAsm.Scope.Frame

/-!
# Scopes

A scope is a chain of frames. The root frame belongs to the whole program, and every unit that is
being assembled adds a frame of its own. Names are looked up from the innermost frame outwards. A
name is never local and global in the same chain.
-/

namespace MacroAsm

/-- A chain of frames. -/
structure Scope where
  /-- The frame of the whole program. -/
  root : Frame
  /-- The frames of the open units, innermost first. -/
  inner : List Frame
deriving Inhabited

namespace Scope

/-- The reserved name that holds the radix of numerals. No source text spells it. -/
def radixName : Text := ".radix"

/-- The radix before any RADIX statement. -/
def defaultRadix : Nat := 10

/-- A root frame that holds nothing but the radix. -/
def initial : Scope :=
  ⟨Frame.empty.insert radixName
    { value := some (.literal Location.none 10), reserved := true }, []⟩

/-- The number of frames. -/
def depth (s : Scope) : Nat := s.inner.length + 1

/-- The scope with a new frame on top. -/
def nest (s : Scope) : Scope := { s with inner := Frame.empty :: s.inner }

/-- The scope without its innermost frame. The root frame stays. -/
def unnest (s : Scope) : Scope := { s with inner := s.inner.tail }

/-- The innermost frame. -/
def top (s : Scope) : Frame := s.inner.headD s.root

/-- Changes the innermost frame. -/
def modifyTop (s : Scope) (g : Frame → Frame) : Scope :=
  match s.inner with
  | [] => { s with root := g s.root }
  | f :: rest => { s with inner := g f :: rest }

/-- The innermost symbol of a name, given the frames from the innermost on. -/
def findIn (name : Text) : List Frame → Option Symbol
  | [] => none
  | f :: rest => (f.find? name).orElse fun _ => findIn name rest

/-- The innermost symbol of a name. -/
def find? (s : Scope) (name : Text) : Option Symbol := findIn name (s.inner ++ [s.root])

/-- Applies a change to the innermost frame that binds a name. -/
def modifyOwner (name : Text) (g : Frame → Frame) : List Frame → List Frame × Bool
  | [] => ([], false)
  | f :: rest =>
    if f.contains name then (g f :: rest, true)
    else
      let (rest', found) := modifyOwner name g rest
      (f :: rest', found)

/-- Applies a change to the frame of the innermost symbol of a name. -/
def modifyFrameOf (s : Scope) (name : Text) (g : Frame → Frame) : Scope :=
  let (inner, found) := modifyOwner name g s.inner
  if found then { s with inner } else if s.root.contains name then { s with root := g s.root } else s

/-- Changes the innermost symbol of a name. -/
def modify (s : Scope) (name : Text) (g : Symbol → Symbol) : Scope :=
  s.modifyFrameOf name fun f => f.modify name g

/-- Declares a name in the innermost frame, where it stays what it is if it is bound there already. A
name that is global cannot be declared. -/
def declareLocal (s : Scope) (name : Text) : Except Cause Scope :=
  if ((s.root.find? name).map Symbol.global).getD false then .error (.conflict name true)
  else if s.top.contains name then .ok s
  else .ok (s.modifyTop fun f => f.insert name {})

/-- A symbol made global. Global symbols are frozen. -/
def promote (sym : Symbol) : Symbol := { sym with global := true, frozen := true }

/-- Makes a name of the root frame global. A name that is bound in an inner frame moves to the root
frame, if it is unset and was not declared there. -/
def declareGlobal (s : Scope) (name : Text) : Except Cause Scope :=
  match s.root.find? name with
  | some sym =>
    .ok (if sym.global then s else { s with root := s.root.modify name promote })
  | none =>
    match findIn name s.inner with
    | some sym =>
      if sym.isSet || sym.declared then .error (.conflict name false)
      else
        let (inner, _) := modifyOwner name (fun f => f.erase name) s.inner
        .ok ⟨s.root.insert name (promote sym), inner⟩
    | none => .ok { s with root := s.root.insert name (promote {}) }

/-- Removes the innermost symbol of a name. -/
def remove (s : Scope) (name : Text) : Scope := s.modifyFrameOf name fun f => f.erase name

/-- What a symbol keeps when one of the same name is moved onto it. -/
def absorb (prev moved : Symbol) : Symbol :=
  { prev with used := prev.used || moved.used, loc := prev.loc.orElse moved.loc }

/-- Moves a name from the innermost frame into the one below, never into the root frame. Gives whether
there was something to move. -/
def hoist (s : Scope) (name : Text) : Scope × Bool :=
  match s.inner with
  | f :: below :: rest =>
    match f.find? name with
    | none => (s, false)
    | some sym =>
      let below := if below.contains name then below.modify name (absorb · sym)
        else below.insert name sym
      ({ s with inner := f.erase name :: below :: rest }, true)
  | _ => (s, false)

/-- The bindings of the innermost frame, without internal state. -/
def bindings (s : Scope) : List (Text × Symbol) :=
  s.top.entries.filter fun entry => !entry.2.reserved

/-- The global bindings. -/
def globals (s : Scope) : List (Text × Symbol) :=
  s.root.entries.filter fun entry => entry.2.global

/-- The radix in which numerals are read. -/
def radix (s : Scope) : Nat :=
  match s.find? radixName with
  | some { value := some (.number _ v _), .. } =>
    if 2 ≤ v && v ≤ 36 then v.toInt.toNat else defaultRadix
  | _ => defaultRadix

/-- Changes the radix in which numerals are read. -/
def setRadix (s : Scope) (radix : Int64) (loc : Location) : Except Cause Scope :=
  if radix < 2 || 36 < radix then .error (.radixRange radix)
  else .ok (s.modify radixName fun sym => { sym with value := some (.literal loc radix), loc })

end Scope

end MacroAsm
