import MacroAsm.Json.Basic
import MacroAsm.Text.Case
import MacroAsm.Token

/-!
# Fields of a syntax tree

A program is handed over as a syntax tree in JSON: every node is an object with a `type` and fields
that depend on it. This module reads single fields. A field that is `null` counts as absent.
-/

namespace MacroAsm

/-- Why a syntax tree is not a program. -/
inductive SourceError where
  /-- A part of the tree has the wrong JSON type, or the document is not JSON at all. -/
  | malformed (what : Option Text) (reason : Text)
  /-- A node has no type. -/
  | untyped
  /-- A node lacks a field that its type requires. -/
  | missing (type key : Text)
  /-- A unary operation has an operator that does not exist. -/
  | unknownUnary (name : Text)
  /-- A binary operation has an operator that does not exist. -/
  | unknownBinary (name : Text)
  /-- A statement of a type that does not exist. -/
  | unknownDirective (loc : Location) (type : Text)
  /-- An expression of a type that does not exist. -/
  | unknownExpression (loc : Location) (type : Text)
  /-- A number that is not a 64-bit integer. -/
  | invalidNumber (loc : Location) (source : Text)
  /-- Something other than a register stands where a register is required. -/
  | notRegister (loc : Location) (found : Text)
  /-- An arm of an IF has no test. -/
  | missingTest (loc : Location)
deriving Inhabited, Repr

namespace SourceError

/-- The wording of an error. -/
def message : SourceError → Text
  | .malformed (some what) reason => "invalid " ++ what ++ ": " ++ reason
  | .malformed none reason => reason
  | .untyped => "node without a type"
  | .missing type key => type ++ " is missing " ++ key
  | .unknownUnary name => "unknown unary operation " ++ name.quote
  | .unknownBinary name => "unknown binary operation " ++ name.quote
  | .unknownDirective loc type => loc.render ++ ": unknown directive " ++ type
  | .unknownExpression loc type => loc.render ++ ": unknown expression " ++ type
  | .invalidNumber loc source => loc.render ++ ": invalid number " ++ source
  | .notRegister loc found => loc.render ++ ": expected a register, found " ++ found
  | .missingTest loc => loc.render ++ ": IF without a test"

end SourceError

namespace Source

/-- The failure of a part of the tree that has the wrong JSON type. -/
def mistyped {α : Type} (what : Text) (expected : Text) : Except SourceError α :=
  .error (.malformed (some what) ("cannot read the value as " ++ expected))

/-- The value of a field, unless it is absent or `null`. -/
def field? (key : Text) (node : List Member) : Option Json :=
  (Json.lookup key node).filter fun j => !j.isNull

/-- A field that holds a text; absent, it is empty. -/
def textField (key : Text) (node : List Member) : Except SourceError Text :=
  match field? key node with
  | none => .ok Text.empty
  | some (.string s) => .ok s
  | some _ => mistyped key "a string"

/-- A field that holds a truth value; absent, it is false. -/
def boolField (key : Text) (node : List Member) : Except SourceError Bool :=
  match field? key node with
  | none => .ok false
  | some (.bool b) => .ok b
  | some _ => mistyped key "a truth value"

/-- A field that holds a list; absent, it is empty. -/
def listField (key : Text) (node : List Member) : Except SourceError (List Json) :=
  match field? key node with
  | none => .ok []
  | some (.array _ items) => .ok items
  | some _ => mistyped key "a list"

/-- A field that holds attributes: texts by key, `null` counting as the empty text. -/
def attributesField (key : Text) (node : List Member) :
    Except SourceError (Option Attributes) :=
  match field? key node with
  | none => .ok none
  | some (.object _ members) => do
    let attributes ← members.foldlM (fun acc (m : Member) =>
      match m.value with
      | .string s => .ok (Attributes.insert m.key s acc)
      | .null => .ok (Attributes.insert m.key Text.empty acc)
      | _ => mistyped key "texts by key") []
    return some attributes
  | some _ => mistyped key "texts by key"

/-- The type of a node. -/
def typeOf (node : List Member) : Except SourceError Text := do
  let type ← textField "type" node
  if type.isEmpty then .error .untyped else return type

/-- A Latin letter without regard to case. The long s and the Kelvin sign are forms of `s` and
`k`. -/
def foldLetter (c : Char) : Char :=
  if c.toNat == 0x17F then 's' else if c.toNat == 0x212A then 'k' else c.toLower

/-- A key without regard to the case of its letters. -/
def foldKey (key : Text) : Text := Text.ofChars (key.chars.map foldLetter)

/-- A JSON number that is an integer literal of 32 bits without a sign. -/
def asUInt32? : Json → Option Nat
  | .number digits => do
    let n ← Numeral.readDigits 10 digits.bytes 0
    if n < 0x100000000 then some n else none
  | _ => none

/-- Reads one member of a position into the site read so far. Keys are matched without regard to
case, and `null` changes nothing. -/
def readSiteMember (site : Site) (m : Member) : Except SourceError Site :=
  let key := foldKey m.key
  if m.value.isNull then .ok site
  else if key == "line" then
    match asUInt32? m.value with
    | some n => .ok { site with line := n }
    | none => mistyped "location" "a line number"
  else if key == "col" then
    match asUInt32? m.value with
    | some n => .ok { site with col := n }
    | none => mistyped "location" "a column number"
  else if key == "path" then
    match m.value with
    | .string s => .ok { site with path := s }
    | _ => mistyped "location" "a path"
  else .ok site

/-- The location of a node: its own line and column in the file of `origin`, or in a file it names
itself if `origin` names none. -/
def locationOf (origin : Location) (node : List Member) : Except SourceError Location :=
  match field? "location" node with
  | none => .ok origin
  | some (.object _ members) => do
    let site ← members.foldlM readSiteMember Site.unknown
    return { origin with
      line := site.line, col := site.col,
      path := if origin.path.isEmpty then site.path else origin.path }
  | some _ => mistyped "location" "a position"

end Source

end MacroAsm
