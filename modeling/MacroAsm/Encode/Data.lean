import MacroAsm.Encode.Instruction
import MacroAsm.Expr.Coerce

/-!
# Encoding data

The elements of a data statement that are known are written as bytes, and the ones that are not stay
in place, neighbours together in one data statement of the same kind.
-/

namespace MacroAsm

namespace Encode

/-- The bytes of one element. -/
def elementBytes (kind : DataKind) (e : Expr) : Except Cause (List UInt8) :=
  match kind with
  | .ascii => do return (← e.asText).bytes
  | .asciz => do return (← e.asText).bytes ++ [0]
  | .bytes => do return littleEndian 1 (← e.asNumber)
  | .words => do return littleEndian 2 (← e.asNumber)

/-- The number of bytes of an element that is a number. -/
def numberWidth? : DataKind → Option Nat
  | .bytes => some 1
  | .words => some 2
  | _ => none

/-- The warning for an element that does not fit. -/
def elementWarning? (kind : DataKind) (e : Expr) : Option Token :=
  match numberWidth? kind, number? e with
  | some width, some v =>
    let written := v.toInt % Nat.pow 256 width
    if written == v.toInt then none
    else some (.message (.warn e.loc
      ("Value " ++ Text.ofInt64 v ++ " truncated to " ++ Text.ofInt written)))
  | _, _ => none

/-- The statement for elements that are not known, the last one first. -/
def pendingData (kind : DataKind) (reversed : List Expr) : List Piece :=
  match reversed.reverse with
  | [] => []
  | e :: rest => [.token (.data e.loc kind (e :: rest))]

/-- Groups neighbouring elements that are not known, and encodes the others. The first list holds the
elements that wait for the end of their group, the last one first. -/
def dataPieces (kind : DataKind) : List Expr → List Expr → Except Diagnostic (List Piece)
  | waiting, [] => .ok (pendingData kind waiting)
  | waiting, e :: rest =>
    if e.isConcrete then
      match elementBytes kind e with
      | .error c => .error (.ofCause c e.loc)
      | .ok bytes => do
        return pendingData kind waiting ++ .bytes e.loc bytes :: (← dataPieces kind [] rest)
    else dataPieces kind (e :: waiting) rest

/-- Encodes a data statement: its elements in order, and then the warnings. -/
def data (kind : DataKind) (values : List Expr) : Except Diagnostic (List Token) := do
  let pieces ← dataPieces kind [] values
  return Piece.tokens pieces ++ values.filterMap (elementWarning? kind)

end Encode

end MacroAsm
