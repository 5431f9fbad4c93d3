import MacroAsm.Toml.Basic

/-!
# Keys that were defined

A document defines a key once. A table may be opened by one header, and may be extended by headers below it,
but not by assignments from outside once it was opened.
-/

namespace MacroAsm

namespace Toml

/-- What a key was defined as. -/
inductive KeyKind where
  /-- A value. -/
  | value
  /-- A table. -/
  | table
  /-- An array of tables. -/
  | tables
deriving DecidableEq, Inhabited, Repr

/-- A key that was defined, with the keys below it. -/
inductive Outline where
  /-- `opened` tells that a header opened the table, and `assigned` that an assignment made it. -/
  | mk (name : Text) (kind : KeyKind) (opened assigned : Bool) (children : List Outline)

namespace Outline

instance : Inhabited Outline := ⟨.mk Text.empty .table false false []⟩

/-- The name of a key. -/
def name : Outline → Text
  | .mk n _ _ _ _ => n

/-- What a key was defined as. -/
def kind : Outline → KeyKind
  | .mk _ k _ _ _ => k

/-- Whether a header opened the table. -/
def isOpened : Outline → Bool
  | .mk _ _ o _ _ => o

/-- The keys below a key. -/
def children : Outline → List Outline
  | .mk _ _ _ _ cs => cs

/-- The outline of a document without keys. -/
def root : Outline := default

/-- The key of a name below a key. -/
def child? (o : Outline) (name : Text) : Option Outline := o.children.find? (·.name == name)

/-- Enters a key below a key, in place of one of the same name. -/
def setChild (o c : Outline) : Outline :=
  match o with
  | .mk n k opened assigned cs =>
    .mk n k opened assigned
      (if cs.any (·.name == c.name) then cs.map fun d => if d.name == c.name then c else d
      else cs ++ [c])

/-- A new key. -/
def fresh (name : Text) (kind : KeyKind) (opened assigned : Bool) : Outline :=
  .mk name kind opened assigned []

/-- A table that is opened now. -/
def asOpened : Outline → Outline
  | .mk n k _ assigned cs => .mk n k true assigned cs

/-- An array of tables that gets a new element, which has no keys. -/
def asCleared : Outline → Outline
  | .mk n k opened assigned _ => .mk n k opened assigned []

/-- The key of a header, opened below a table. -/
def open? (isElement : Bool) : List Text → Outline → Option Outline
  | [], _ => none
  | [k], o =>
    match o.child? k with
    | none => some (o.setChild (fresh k (if isElement then .tables else .table) true false))
    | some c =>
      if isElement then if c.kind == .tables then some (o.setChild c.asCleared) else none
      else if c.kind == .table && !c.isOpened then some (o.setChild c.asOpened)
      else none
  | k :: rest, o =>
    match o.child? k with
    | none => (open? isElement rest (fresh k .table false false)).map o.setChild
    | some c => if c.kind == .value then none else (open? isElement rest c).map o.setChild

/-- The key of an assignment, defined below a table. -/
def assign? : List Text → Outline → Option Outline
  | [], _ => none
  | [k], o =>
    match o.child? k with
    | none => some (o.setChild (fresh k .value false true))
    | some _ => none
  | k :: rest, o =>
    match o.child? k with
    | none => (assign? rest (fresh k .table false true)).map o.setChild
    | some c =>
      if c.kind == .table && !c.isOpened then (assign? rest c).map o.setChild else none

mutual

/-- The tables that assignments made count as opened once another header follows. -/
def close : Outline → Outline
  | .mk n k opened assigned cs => .mk n k opened assigned (closeAll cs)

/-- Closes the keys of a list. -/
def closeAll : List Outline → List Outline
  | [] => []
  | .mk n k opened assigned cs :: rest =>
    .mk n k (opened || assigned) false (closeAll cs) :: closeAll rest

end

/-- Applies a change to the key at the end of a path. -/
def modifyAt (g : Outline → Option Outline) : List Text → Outline → Option Outline
  | [], o => g o
  | k :: rest, o => do
    let c ← o.child? k
    return o.setChild (← modifyAt g rest c)

end Outline

mutual

/-- Whether the inline tables of a value define each key once. -/
def Value.isConsistent : Value → Bool
  | .array items => Value.areConsistent items
  | .table entries => (Assignment.outline? entries Outline.root).isSome
  | _ => true

/-- Whether the inline tables of the values of a list define each key once. -/
def Value.areConsistent : List Value → Bool
  | [] => true
  | v :: rest => v.isConsistent && Value.areConsistent rest

/-- The outline after assignments, if each defines a new key. -/
def Assignment.outline? : List Assignment → Outline → Option Outline
  | [], o => some o
  | .mk key value :: rest, o =>
    match o.assign? key with
    | none => none
    | some o => if value.isConsistent then Assignment.outline? rest o else none

end

end Toml

end MacroAsm
