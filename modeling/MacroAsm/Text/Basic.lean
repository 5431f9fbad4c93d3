/-!
# Texts

Names, paths, string values and messages are byte sequences: a length counts bytes, a slice cuts
between bytes, and nothing requires the bytes to be well-formed UTF-8. `Text` wraps such a
sequence, and string literals stand for their UTF-8 encoding. Texts are ordered byte by byte, and
of two different texts one comes before the other.
-/

namespace MacroAsm

/-- A finite sequence of bytes. -/
structure Text where
  /-- The bytes, first to last. -/
  bytes : List UInt8
deriving DecidableEq, Inhabited, Repr

namespace Text

/-- The empty text. -/
def empty : Text := ⟨[]⟩

/-- The UTF-8 encoding of a character string. -/
def ofString (s : String) : Text := ⟨s.toList.flatMap String.utf8EncodeChar⟩

instance : Coe String Text := ⟨ofString⟩

instance : Append Text := ⟨fun a b => ⟨a.bytes ++ b.bytes⟩⟩

/-- The number of bytes. -/
def length (t : Text) : Nat := t.bytes.length

/-- Whether there are no bytes. -/
def isEmpty (t : Text) : Bool := t.bytes.isEmpty

/-- Texts are ordered byte by byte, a proper beginning before what extends it. -/
def blt (a b : Text) : Bool := decide (a.bytes < b.bytes)

/-- The reflexive closure of `blt`. -/
def ble (a b : Text) : Bool := !blt b a

/-- The concatenation of a list of texts. -/
def concat (ts : List Text) : Text := ⟨ts.flatMap Text.bytes⟩

/-- The texts of a list with `sep` between neighbours. -/
def join (sep : Text) : List Text → Text
  | [] => empty
  | [t] => t
  | t :: u :: rest => t ++ sep ++ join sep (u :: rest)

/-- Whether `t` begins with `p`. -/
def startsWith (t p : Text) : Bool := p.bytes.isPrefixOf t.bytes

/-- `t` without its beginning `p`, when it begins with it. -/
def dropStart (t p : Text) : Text :=
  if t.startsWith p then ⟨t.bytes.drop p.length⟩ else t

/-- Splits at the first occurrence of the byte `b`, which is dropped. -/
def cut (t : Text) (b : UInt8) : Option (Text × Text) :=
  match t.bytes.dropWhile (· != b) with
  | [] => none
  | _ :: rest => some (⟨t.bytes.takeWhile (· != b)⟩, ⟨rest⟩)

/-- The position of the first occurrence of `pat` in `bs`, counted from `start`. -/
def findFrom (pat : List UInt8) : List UInt8 → Nat → Option Nat
  | [], start => if pat.isEmpty then some start else none
  | b :: rest, start =>
    if pat.isPrefixOf (b :: rest) then some start else findFrom pat rest (start + 1)

/-- The least position at or after `start` where `pat` occurs in `t`. -/
def find? (t pat : Text) (start : Nat) : Option Nat :=
  findFrom pat.bytes (t.bytes.drop start) start

/-- The bytes at positions `first` up to, but not including, `last`. -/
def slice (t : Text) (first last : Nat) : Text := ⟨(t.bytes.drop first).take (last - first)⟩

/-- The pieces of `t` between occurrences of the byte `b`; there is always at least one. -/
def splitOn (t : Text) (b : UInt8) : List Text :=
  let (last, done) := t.bytes.foldr
    (fun c (acc : List UInt8 × List Text) =>
      if c == b then ([], ⟨acc.1⟩ :: acc.2) else (c :: acc.1, acc.2)) ([], [])
  ⟨last⟩ :: done

@[simp]
theorem bytes_append (a b : Text) : (a ++ b).bytes = a.bytes ++ b.bytes := rfl

@[simp]
theorem length_append (a b : Text) : (a ++ b).length = a.length + b.length := by
  simp [length]

section Order

variable {a b c : Text}

theorem not_blt_self (a : Text) : ¬ blt a a = true := by
  rw [blt, decide_eq_true_eq]
  exact List.lt_irrefl _

theorem blt_of_ne (hne : a ≠ b) (h : ¬ blt a b = true) : blt b a = true := by
  rw [blt, decide_eq_true_eq] at h ⊢
  exact Decidable.byContradiction fun hba => hne (congrArg mk (List.le_antisymm hba h))

theorem blt_trans (hab : blt a b = true) (hbc : blt b c = true) : blt a c = true := by
  rw [blt, decide_eq_true_eq] at *
  exact List.lt_trans hab hbc

theorem ble_iff : ble a b = true ↔ a.bytes ≤ b.bytes := by
  simp [ble, blt]

theorem ble_trans (hab : ble a b = true) (hbc : ble b c = true) : ble a c = true := by
  rw [ble_iff] at *
  exact List.le_trans hab hbc

theorem ble_total (a b : Text) : (ble a b || ble b a) = true := by
  rw [Bool.or_eq_true, ble_iff, ble_iff]
  exact List.le_total _ _

theorem ble_antisymm (hab : ble a b = true) (hba : ble b a = true) : a = b := by
  rw [ble_iff] at *
  exact congrArg mk (List.le_antisymm hab hba)

theorem blt_of_ble_of_ne (h : ble a b = true) (hne : a ≠ b) : blt a b = true :=
  blt_of_ne (Ne.symm hne) (by simpa [ble] using h)

end Order

end Text

end MacroAsm
