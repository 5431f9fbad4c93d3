import MacroAsm.Diagnostic
import MacroAsm.InstructionSet.Form

/-!
# Instruction sets

The forms of all instructions, by mnemonic and by the key of their operands. A mnemonic that does not
exist is answered with the ones that come close.
-/

namespace MacroAsm

/-- How close names come to one another. -/
structure Similarity where
  /-- How far a name is from another one that holds its characters in order, without regard to letter case. -/
  rank? : Text → Text → Option Nat
  /-- How many characters are inserted, deleted and replaced to turn a name into another one. -/
  distance : Text → Text → Nat
deriving Inhabited

/-- The forms of all instructions. -/
structure InstructionSet where
  /-- The forms of each mnemonic by their keys, mnemonics in increasing order. -/
  groups : List (Text × List (UInt32 × Form))
  /-- Which mnemonics come close to one that does not exist. -/
  similarity : Similarity
deriving Inhabited

/-- Why a list of descriptors is not an instruction set: the position, the mnemonic and the error of
the first descriptor at fault. -/
structure InstructionSetError where
  /-- The position in the list. -/
  index : Nat
  /-- The mnemonic as it is written. -/
  mnemonic : Text
  /-- What is wrong. -/
  error : DescriptorError
deriving DecidableEq, Inhabited, Repr

/-- The wording of an error. -/
def InstructionSetError.message (e : InstructionSetError) : Text :=
  "instruction[" ++ Text.ofNat e.index ++ "] " ++ e.mnemonic ++ ": " ++ e.error.message

/-- The number of insertions, deletions and replacements of characters that turn one list into
another, with the distances of the beginnings of `b` from an already read beginning of `a`. -/
def editRow {α : Type} [BEq α] (x : α) : List α → Nat → Nat → List Nat → List Nat
  | y :: ys, diagonal, left, above :: rest =>
    let here := min (min (above + 1) (left + 1)) (if x == y then diagonal else diagonal + 1)
    here :: editRow x ys above here rest
  | _, _, _, _ => []

/-- The rows of the table of edit distances, one for each element of `a`. -/
def editRows {α : Type} [BEq α] (b : List α) : List α → List Nat → List Nat
  | [], row => row
  | x :: xs, row =>
    match row with
    | [] => []
    | d :: rest => editRows b xs ((d + 1) :: editRow x b d (d + 1) rest)

/-- The Levenshtein distance of two lists. -/
def editDistance {α : Type} [BEq α] (a b : List α) : Nat :=
  (editRows b a (List.range (b.length + 1))).getLastD 0

namespace Similarity

/-- Whether the characters of `cs` occur in `ds` in order. -/
def occursIn : List Char → List Char → Bool
  | [], _ => true
  | _ :: _, [] => false
  | c :: cs, d :: ds => if c == d then occursIn cs ds else occursIn (c :: cs) ds

/-- Whether a name holds the characters of another one in order, without regard to letter case. -/
def resembles (name other : Text) : Bool :=
  let name := name.lower
  let other := other.lower
  name.length ≤ other.length && occursIn name.chars other.chars

/-- Names come as close as few edits lead from one to the other. -/
def edits : Similarity where
  rank? name other := if resembles name other then some (editDistance name.chars other.chars) else none
  distance name other := editDistance name.chars other.chars

end Similarity

namespace InstructionSet

/-- Enters a form into the group of its mnemonic, groups in increasing order. -/
def insertForm (key : UInt32) (form : Form) :
    List (Text × List (UInt32 × Form)) → List (Text × List (UInt32 × Form))
  | [] => [(form.mnemonic, [(key, form)])]
  | (name, forms) :: rest =>
    if name == form.mnemonic then (name, forms ++ [(key, form)]) :: rest
    else if Text.blt form.mnemonic name then
      (form.mnemonic, [(key, form)]) :: (name, forms) :: rest
    else (name, forms) :: insertForm key form rest

/-- The forms of a mnemonic in upper case, by their keys. -/
def group? (t : InstructionSet) (name : Text) : Option (List (UInt32 × Form)) :=
  t.groups.lookup name

/-- Adds the forms of descriptors, the first of which stands at `index`. -/
def addAll : Nat → List Descriptor → InstructionSet → Except InstructionSetError InstructionSet
  | _, [], t => .ok t
  | index, d :: rest, t =>
    match d.compile with
    | .error e => .error ⟨index, d.mnemonic, e⟩
    | .ok (key, form) =>
      match ((t.group? form.mnemonic).getD []).lookup key with
      | some previous => .error ⟨index, d.mnemonic, .duplicates previous.spelling⟩
      | none => addAll (index + 1) rest { t with groups := insertForm key form t.groups }

/-- The instruction set of no forms. -/
def empty (similarity : Similarity) : InstructionSet := ⟨[], similarity⟩

/-- The instruction set of a list of descriptors. -/
def compile (similarity : Similarity) (ds : List Descriptor) : Except InstructionSetError InstructionSet :=
  addAll 0 ds (empty similarity)

/-- The mnemonics in increasing order. -/
def mnemonics (t : InstructionSet) : List Text := t.groups.map Prod.fst

/-- Whether a mnemonic exists, in any letter case. -/
def contains (t : InstructionSet) (mnemonic : Text) : Bool := (t.group? mnemonic.upper).isSome

/-- The forms of a mnemonic in increasing order of their spellings. -/
def forms (t : InstructionSet) (mnemonic : Text) : List Form :=
  (((t.group? mnemonic.upper).getD []).map Prod.snd).mergeSort fun a b =>
    Text.ble a.spelling b.spelling

/-- How many mnemonics are suggested at most. -/
def maxSuggestions : Nat := 3

/-- The mnemonics that come close to a name: those that hold its characters in order and those within
one edit, nearest first and then in increasing order. -/
def suggest (t : InstructionSet) (name : Text) : List Text :=
  let name := name.upper
  if name.isEmpty then []
  else
    let found := t.mnemonics.filterMap fun m =>
      match t.similarity.rank? name m with
      | some rank => some (rank, m)
      | none =>
        let distance := t.similarity.distance name m
        if distance ≤ 1 then some (distance, m) else none
    let ranked := found.mergeSort fun a b =>
      a.1 < b.1 || (a.1 == b.1 && Text.ble a.2 b.2)
    (ranked.map Prod.snd).take maxSuggestions

/-- The failure of a mnemonic that does not exist. -/
def unknown (t : InstructionSet) (mnemonic : Text) : Cause :=
  .illegalInstruction mnemonic.upper (t.suggest mnemonic)

/-- The form of a mnemonic with a key. -/
def lookup (t : InstructionSet) (mnemonic : Text) (key : UInt32) : Except Cause Form :=
  match t.group? mnemonic.upper with
  | none => .error (t.unknown mnemonic)
  | some forms =>
    match List.lookup key forms with
    | none => .error .illegalOperands
    | some form => .ok form

/-- The mnemonics that begin with the last word of a line, each with the rest of the line in front. -/
def complete (t : InstructionSet) (line : Text) : List Text :=
  let word := (line.bytes.reverse.takeWhile (· != 32)).reverse
  let head := line.bytes.take (line.length - word.length)
  let start := (Text.mk word).upper
  (t.mnemonics.filter (·.startsWith start)).map fun m => ⟨head⟩ ++ m

end InstructionSet

end MacroAsm
