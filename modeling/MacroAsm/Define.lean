import MacroAsm.Scope.Basic
import MacroAsm.Text.Quote

/-!
# Definitions from outside

Names that are defined for a whole program before it is assembled. A flag is written `NAME` or `NAME=VALUE`; a
value is a number, a string in quotes, or else the text itself.
-/

namespace MacroAsm

/-- A name and its value. -/
structure Define where
  /-- The name. -/
  name : Text
  /-- The value. -/
  value : Expr
deriving Inhabited

namespace Define

/-- Where definitions from outside are located. -/
def origin : Location := Location.ofPath "command-line"

/-- Whether a character may start a name. The long s and the Kelvin sign are forms of letters. -/
def isNameStart (c : Char) : Bool :=
  c.isAlpha || c == '_' || c.toNat == 0x17F || c.toNat == 0x212A

/-- Whether a character may stand in a name. -/
def isNameChar (c : Char) : Bool := isNameStart c || c.isDigit

/-- Whether a text is a name. -/
def isName (t : Text) : Bool :=
  match t.chars with
  | [] => false
  | c :: rest => isNameStart c && rest.all isNameChar

/-- Reads a flag. The value of a name alone is one, and a value has no line end. -/
def parseFlag? (flag : Text) : Option (Text × Text) :=
  let (name, value) := (flag.cut 61).getD (flag, "1")
  if isName name && !value.bytes.contains 10 then some (name, value) else none

/-- The value that a text stands for. -/
def valueOf (t : Text) : Expr :=
  match t.announcedInt64? with
  | some n => .literal origin n
  | none =>
    if t.startsWith "\"" then .quoted origin (t.unquote?.getD t) else .quoted origin t

/-- Sets the value of a name, in its place if it has one. -/
def setText (name value : Text) (settings : List (Text × Text)) : List (Text × Text) :=
  if settings.any (·.1 == name) then
    settings.map fun s => if s.1 == name then (name, value) else s
  else settings ++ [(name, value)]

/-- Applies flags to settings, a later one over an earlier one. -/
def applyFlags : List Text → List (Text × Text) → Except Cause (List (Text × Text))
  | [], settings => .ok settings
  | flag :: rest, settings =>
    match parseFlag? flag with
    | none => .error (.other ("malformed define: " ++ flag))
    | some (name, value) => applyFlags rest (setText name value settings)

/-- The definitions of settings, in order of their names, and of flags, which win. -/
def collect (settings : List (Text × Text)) (flags : List Text) : Except Cause (List Define) := do
  let sorted := settings.mergeSort fun a b => a.1.ble b.1
  let all ← applyFlags flags (sorted.foldl (fun acc (n, v) => setText n v acc) [])
  return all.map fun (name, value) => ⟨name, valueOf value⟩

/-- Enters a definition in a scope, for the whole program. -/
def enter (scope : Scope) (d : Define) : Except Cause Scope := do
  let scope ← scope.declareGlobal d.name
  return { scope with root := scope.root.modify d.name fun s =>
    { s with value := some d.value, loc := d.value.loc, define := true } }

/-- The root scope that holds definitions. -/
def rootScope (defines : List Define) : Except Cause Scope := defines.foldlM enter Scope.initial

end Define

end MacroAsm
