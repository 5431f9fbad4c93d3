import MacroAsm.Text.Utf8

/-!
# JSON values

A JSON value keeps the digits of its numbers and the order of its members, also of members that
share a key, since a later one overrides an earlier one. Arrays and objects remember the text they
were read from.
-/

namespace MacroAsm

/-- The part of a document between two places, given by what follows each of them. -/
structure Span where
  /-- The document from the beginning of the part on. -/
  start : List UInt8
  /-- The document from the end of the part on. -/
  rest : List UInt8
deriving Inhabited, Repr

/-- The text of a span. -/
def Span.text (s : Span) : Text := ⟨s.start.take (s.start.length - s.rest.length)⟩

/-- The span of a value that was not read from a document. -/
def Span.none : Span := ⟨[], []⟩

mutual

/-- A JSON value. -/
inductive Json where
  /-- The literal `null`. -/
  | null
  /-- A truth value. -/
  | bool (b : Bool)
  /-- A number as it is spelled. -/
  | number (digits : Text)
  /-- A string. -/
  | string (value : Text)
  /-- An array. -/
  | array (source : Span) (items : List Json)
  /-- An object. -/
  | object (source : Span) (members : List Member)

/-- A member of an object. -/
inductive Member where
  /-- A key and its value. -/
  | mk (key : Text) (value : Json)

end

instance : Inhabited Json := ⟨.null⟩

instance : Inhabited Member := ⟨.mk Text.empty .null⟩

/-- The key of a member. -/
def Member.key : Member → Text
  | .mk key _ => key

/-- The value of a member. -/
def Member.value : Member → Json
  | .mk _ value => value

namespace Json

/-- The value of the last member with a key. -/
def lookup (key : Text) (members : List Member) : Option Json :=
  (members.reverse.find? fun m => m.key == key).map Member.value

/-- Whether a value is `null`. -/
def isNull : Json → Bool
  | .null => true
  | _ => false

mutual

/-- The number of arrays and objects that enclose the innermost value. -/
def depth : Json → Nat
  | .array _ items => depthOfItems items + 1
  | .object _ members => depthOfMembers members + 1
  | _ => 0

/-- The greatest depth among the items of an array. -/
def depthOfItems : List Json → Nat
  | [] => 0
  | j :: rest => max (depth j) (depthOfItems rest)

/-- The greatest depth among the members of an object. -/
def depthOfMembers : List Member → Nat
  | [] => 0
  | .mk _ value :: rest => max (depth value) (depthOfMembers rest)

end

end Json

end MacroAsm
