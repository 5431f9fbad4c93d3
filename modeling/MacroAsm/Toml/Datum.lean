import MacroAsm.Decimal.Shortest
import MacroAsm.Text.Case
import MacroAsm.Toml.Moment
import MacroAsm.Toml.Outline
import MacroAsm.Toml.Parser
import MacroAsm.Toml.Scalar

/-!
# Data of a document

A document is read into data of an expected shape. Keys that the shape does not know are left out, and their
values are not looked at; a value of another kind than expected is an error.
-/

namespace MacroAsm

namespace Toml

/-- What is expected of a value. -/
inductive Shape where
  /-- A string. -/
  | text
  /-- A truth value. -/
  | flag
  /-- An array of values of a shape. -/
  | list (item : Shape)
  /-- A table with known keys, which match without regard to case. -/
  | record (fields : List (Text × Shape))
  /-- A table with any keys and values. -/
  | dictionary
  /-- Any value. -/
  | anything
deriving Inhabited

/-- Data. -/
inductive Datum where
  /-- What was not given. -/
  | missing
  /-- A string. -/
  | text (t : Text)
  /-- A truth value. -/
  | flag (b : Bool)
  /-- An integer. -/
  | integer (n : Int64)
  /-- A floating-point number. -/
  | float (d : Double)
  /-- A date or a time in its uniform text. -/
  | moment (t : Text)
  /-- A list. -/
  | list (items : List Datum)
  /-- A table. -/
  | table (fields : List (Text × Datum))
deriving Inhabited

namespace Datum

/-- The fields of a table, of which there are none in other data. -/
def fields : Datum → List (Text × Datum)
  | .table fs => fs
  | _ => []

/-- The field of a table. -/
def get (d : Datum) (name : Text) : Datum := (d.fields.lookup name).getD .missing

/-- The table with a field changed. -/
def set (d : Datum) (name : Text) (v : Datum) : Datum :=
  .table ((d.fields.filter fun f => f.1 != name) ++ [(name, v)])

/-- The items of a list, of which there are none in other data. -/
def items : Datum → List Datum
  | .list ds => ds
  | _ => []

/-- The text of a string, empty for other data. -/
def asText : Datum → Text
  | .text t => t
  | _ => Text.empty

/-- Whether data is the value true. -/
def asFlag : Datum → Bool
  | .flag b => b
  | _ => false

/-- A table, empty in place of other data. -/
def asTable : Datum → Datum
  | .table fs => .table fs
  | _ => .table []

/-- The strings of a list. -/
def asTexts (d : Datum) : List Text := d.items.map asText

mutual

/-- The text of data: the items of a list between brackets, and the fields of a table in order of their
names. -/
def describe : Datum → Text
  | .missing => "<nil>"
  | .text t => t
  | .flag b => if b then "true" else "false"
  | .integer n => Text.ofInt64 n
  | .float d => d.render
  | .moment t => t
  | .list ds => "[" ++ Text.join " " (describeAll ds) ++ "]"
  | .table fs =>
    let described := (describeFields fs).mergeSort fun a b => a.1.ble b.1
    "map[" ++ Text.join " " (described.map fun (n, t) => n ++ ":" ++ t) ++ "]"

/-- The texts of the items of a list. -/
def describeAll : List Datum → List Text
  | [] => []
  | d :: rest => d.describe :: describeAll rest

/-- The texts of the fields of a table. -/
def describeFields : List (Text × Datum) → List (Text × Text)
  | [] => []
  | (n, d) :: rest => (n, d.describe) :: describeFields rest

end

end Datum

/-- The field of a record that a key names. -/
def findField (fields : List (Text × Shape)) (key : Text) : Option (Text × Shape) :=
  fields.find? fun f => f.1 == key.lower

/-- Changes the data that a key leads to. A key that the shape does not know leads nowhere. -/
def updateAt (change : Shape → Datum → Option Datum) :
    List Text → Shape → Datum → Option Datum
  | [], shape, old => change shape old
  | k :: rest, .record fields, old =>
    match findField fields k with
    | none => some old
    | some (name, shape) => (updateAt change rest shape (old.get name)).map (old.set name)
  | k :: rest, .dictionary, old =>
    (updateAt change rest .anything (if rest.isEmpty then .missing else old.get k)).map (old.set k)
  | k :: rest, .anything, old =>
    let old := old.asTable
    (updateAt change rest .anything (if rest.isEmpty then .missing else old.get k)).map (old.set k)
  | _ :: _, _, _ => none

/-- Takes a scalar if it is expected, and gives it as data. -/
def scalar? : Shape → Value → Option Datum
  | .text, .string t => some (.text t)
  | .anything, .string t => some (.text t)
  | .flag, .bool b => some (.flag b)
  | .anything, .bool b => some (.flag b)
  | .anything, .integer t => (integer? t).map .integer
  | .anything, .float t => (float? t).map .float
  | .anything, .moment kind t => (momentText? kind t).map .moment
  | _, _ => none

mutual

/-- The data of a value in place of old data. -/
def store : Value → Shape → Datum → Option Datum
  | .array items, .list shape, _ => (storeAll items shape).map .list
  | .array items, .anything, _ => (storeAll items .anything).map .list
  | .table entries, .record fields, old => storeEntries entries (.record fields) old
  | .table entries, .dictionary, old => storeEntries entries .dictionary old.asTable
  | .table entries, .anything, old => storeEntries entries .dictionary old.asTable
  | v, shape, _ => scalar? shape v

/-- The data of the values of a list. -/
def storeAll : List Value → Shape → Option (List Datum)
  | [], _ => some []
  | v :: rest, shape => do
    let d ← store v shape .missing
    return d :: (← storeAll rest shape)

/-- The data after assignments. -/
def storeEntries : List Assignment → Shape → Datum → Option Datum
  | [], _, old => some old
  | .mk key v :: rest, shape, old => do
    storeEntries rest shape (← updateAt (fun shape old => store v shape old) key shape old)

end

/-- Changes the last item of a list. -/
def updateLast (change : Datum → Option (Option Datum)) (items : List Datum) :
    Option (Option Datum) :=
  match items.reverse with
  | [] => none
  | last :: before => (change last).map fun r => r.map fun d => .list (before.reverse ++ [d])

/-- Changes what stands under one part of a key. In a dictionary a missing entry is taken for `fresh`. Gives
nothing inside of the result if the shape does not know the key. -/
def updateUnder (fresh : Datum) (change : Shape → Datum → Option (Option Datum)) (k : Text)
    (shape : Shape) (old : Datum) : Option (Option Datum) :=
  match shape with
  | .record fields =>
    match findField fields k with
    | none => some none
    | some (name, shape) => (change shape (old.get name)).map fun r => r.map (old.set name)
  | .dictionary | .anything =>
    let entry := match old.get k with
      | .missing => fresh
      | d => d
    (change .anything entry).map fun r => r.map (old.set k)
  | _ => none

/-- Changes the table of a header, in the last element of an array of tables on the way. Gives nothing inside of
the result if the shape does not know the key. -/
def updateTable (change : Shape → Datum → Option Datum) :
    List Text → Shape → Datum → Option (Option Datum)
  | [], .list shape, .list items => updateLast (fun d => (change shape d).map some) items
  | [], .list _, _ => none
  | [], .anything, .list items => updateLast (fun d => (change .anything d).map some) items
  | [], shape, old => (change shape old).map some
  | k :: rest, .list shape, .list items =>
    updateLast (updateUnder (.table []) (updateTable change rest) k shape) items
  | _ :: _, .list _, _ => none
  | k :: rest, .anything, .list items =>
    updateLast (updateUnder (.table []) (updateTable change rest) k .anything) items
  | k :: rest, shape, old => updateUnder (.table []) (updateTable change rest) k shape old

/-- Adds an element, made of an empty one by a change, to the array of tables that a key leads to, in the last
element of an array of tables on the way. -/
def addBelow (change : Shape → Datum → Option Datum) :
    List Text → Shape → Datum → Option (Option Datum)
  | [], .list shape, old => (change shape .missing).map fun d => some (.list (old.items ++ [d]))
  | [], .anything, .missing => (change .dictionary (.table [])).map fun d => some (.list [d])
  | [], .anything, .list items =>
    (change .dictionary (.table [])).map fun d => some (.list (items ++ [d]))
  | [], _, _ => none
  | k :: rest, .list shape, .list items =>
    updateLast (updateUnder .missing (addBelow change rest) k shape) items
  | _ :: _, .list _, _ => none
  | k :: rest, .anything, .list items =>
    updateLast (updateUnder .missing (addBelow change rest) k .anything) items
  | k :: rest, shape, old => updateUnder .missing (addBelow change rest) k shape old

/-- Adds an element to the array of tables of a header, made of an empty one by a change. -/
def addElement (change : Shape → Datum → Option Datum) :
    List Text → Shape → Datum → Option (Option Datum)
  | [], _, _ => none
  | k :: rest, shape, old => updateUnder .missing (addBelow change rest) k shape old

/-- Data on the way, with the keys that were defined. -/
structure Reading where
  /-- The keys that were defined. -/
  outline : Outline
  /-- The key of the table that assignments belong to. -/
  current : List Text
  /-- The data so far. -/
  data : Datum
deriving Inhabited

/-- The outline and the data after a header and the assignments below it. Gives no data if the shape does not
know the key of the header. -/
def Reading.enter? (shape : Shape) (r : Reading) (s : Section) :
    Option (Outline × List Text × Option Datum) := do
  let change (shape : Shape) (old : Datum) : Option Datum := storeEntries s.assignments shape old
  let closed ← r.outline.modifyAt (fun c => some c.close) r.current
  match s.header with
  | .root =>
    let data ← change shape r.data
    return (r.outline, [], some data)
  | .table key =>
    let outline ← closed.open? false key
    return (outline, key, ← updateTable change key shape r.data)
  | .element key =>
    let outline ← closed.open? true key
    return (outline, key, ← addElement change key shape r.data)

/-- Reads the assignments of a section in the table of its header, unless the shape does not know it. -/
def Reading.section? (shape : Shape) (r : Reading) (s : Section) : Option Reading := do
  match ← r.enter? shape s with
  | (outline, current, none) => return ⟨outline, current, r.data⟩
  | (outline, current, some data) =>
    let outline ← outline.modifyAt (Assignment.outline? s.assignments) current
    return ⟨outline, current, data⟩

/-- What reads documents as data of a shape. -/
abbrev Decoder := Shape → Text → Option Datum

/-- Reads a document as data of a shape. -/
def decode? (shape : Shape) (t : Text) : Option Datum := do
  let sections ← parse? t
  let reading ← sections.foldlM (Reading.section? shape) ⟨Outline.root, [], .missing⟩
  return reading.data

end Toml

end MacroAsm
