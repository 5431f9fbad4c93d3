import MacroAsm.Text.Utf8

/-!
# Configuration documents

The structure of a TOML document: assignments of values to keys, and headers that tell which table the
assignments after them belong to. Numbers and dates are kept as they are written.
-/

namespace MacroAsm

namespace Toml

/-- The kinds of dates and times. -/
inductive MomentKind where
  /-- A date and a time with an offset. -/
  | offsetDateTime
  /-- A date and a time. -/
  | dateTime
  /-- A date. -/
  | date
  /-- A time. -/
  | time
deriving DecidableEq, Inhabited, Repr

mutual

/-- A value. -/
inductive Value where
  /-- A string. -/
  | string (t : Text)
  /-- An integer as it is written. -/
  | integer (written : Text)
  /-- A floating-point number as it is written. -/
  | float (written : Text)
  /-- A truth value. -/
  | bool (b : Bool)
  /-- A date or a time as it is written. -/
  | moment (kind : MomentKind) (written : Text)
  /-- An array. -/
  | array (items : List Value)
  /-- An inline table. -/
  | table (entries : List Assignment)

/-- The assignment of a value to a key, which may lead through tables. -/
inductive Assignment where
  /-- The value of a key. -/
  | mk (key : List Text) (value : Value)

end

instance : Inhabited Value := ⟨.bool false⟩

instance : Inhabited Assignment := ⟨.mk [] default⟩

/-- Which table assignments belong to. -/
inductive Header where
  /-- The table of the whole document. -/
  | root
  /-- A table. -/
  | table (key : List Text)
  /-- A new element of an array of tables. -/
  | element (key : List Text)
deriving DecidableEq, Inhabited, Repr

/-- A header and the assignments after it. -/
structure Section where
  /-- The header. -/
  header : Header
  /-- The assignments in order. -/
  assignments : List Assignment
deriving Inhabited

end Toml

end MacroAsm
