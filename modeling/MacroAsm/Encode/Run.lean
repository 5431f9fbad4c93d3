import MacroAsm.Token

/-!
# Runs of output

The output of one statement in order: bytes, and tokens that stand for what the linker fills in.
Neighbouring bytes are written as one token, located where the first of them came from.
-/

namespace MacroAsm

/-- A piece of the output of one statement. -/
inductive Piece where
  /-- Bytes that come from a location. -/
  | bytes (loc : Location) (data : List UInt8)
  /-- A token for the linker. -/
  | token (t : Token)

namespace Piece

/-- The tokens of a list of pieces, given the bytes written since the last token with the location of
the first. -/
def tokensFrom : Location → List UInt8 → List Piece → List Token
  | loc, run, [] => if run.isEmpty then [] else [.bytes loc run]
  | loc, run, .bytes l data :: rest =>
    tokensFrom (if run.isEmpty then l else loc) (run ++ data) rest
  | loc, run, .token t :: rest =>
    if run.isEmpty then t :: tokensFrom loc [] rest
    else .bytes loc run :: t :: tokensFrom loc [] rest

/-- The tokens of a list of pieces, neighbouring bytes in one token. -/
def tokens (ps : List Piece) : List Token := tokensFrom Location.none [] ps

end Piece

end MacroAsm
