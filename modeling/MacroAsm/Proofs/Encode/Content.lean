import Mathlib.Data.List.Chain
import Mathlib.Data.Nat.Digits.Defs
import Mathlib.Tactic.Ring
import MacroAsm.Proofs.Assembly.Definitions
import MacroAsm.Proofs.Encode.Erasure

/-!
# What encodings hold

The output of a statement holds bytes, elements that are not known yet, and tokens for the linker, one after the
other (`Token.contents`). The tokens of a run of pieces hold what the pieces hold (`Piece.flatMap_contents_tokensFrom`),
neighbouring bytes being in one token (`Piece.merged_tokensFrom`), and apart from bytes they are the tokens among the
pieces (`Piece.filter_tokensFrom`).

A number is written as its lowest bytes: as a number to the base 256 they are what is left of it modulo a power of 256
(`Encode.ofDigits_littleEndian`).
-/

namespace MacroAsm

/-- What stands at a place of the output. -/
inductive Content where
  /-- A byte. -/
  | byte (b : UInt8)
  /-- An element of a data statement that is not known yet. -/
  | element (kind : DataKind) (e : Expr)
  /-- A token for the linker. -/
  | symbol (t : Token)

namespace Token

/-- What a token holds: its bytes or elements, or itself. -/
def contents : Token → List Content
  | .bytes _ written => written.map .byte
  | .data _ kind values => values.map (.element kind)
  | t => [.symbol t]

/-- Whether a token stands for bytes. -/
def isBytes : Token → Bool
  | .bytes .. => true
  | _ => false

/-- The number of bytes of a token, those included that the linker fills in. -/
def width : Token → Nat
  | .bytes _ written => written.length
  | .immediate _ _ size _ => size
  | _ => 0

/-- Output in which neighbouring bytes are in one token. -/
structure Merged (ts : List Token) : Prop where
  /-- There are bytes in every token for bytes. -/
  nonempty : ∀ loc, Token.bytes loc [] ∉ ts
  /-- No token for bytes follows another one. -/
  apart : ts.IsChain fun t t' => t.isBytes = true → t'.isBytes = false

theorem merged_nil : Merged [] := ⟨fun _ => List.not_mem_nil, List.IsChain.nil⟩

/-- A token for the linker stands before merged output. -/
theorem Merged.cons {t : Token} {ts : List Token} (h : Merged ts) (ht : t.isBytes = false) : Merged (t :: ts) := by
  refine ⟨fun loc hmem => ?_, List.isChain_cons.2 ⟨fun t' _ hbytes => ?_, h.apart⟩⟩
  · rcases List.mem_cons.1 hmem with rfl | hmem
    · cases ht
    · exact h.nonempty loc hmem
  · rw [ht] at hbytes
    cases hbytes

/-- Bytes stand before merged output that does not begin with bytes. -/
theorem Merged.bytes_cons {ts : List Token} (h : Merged ts) (hts : ∀ t ∈ ts.head?, t.isBytes = false) (loc : Location)
    {written : List UInt8} (hwritten : written.isEmpty = false) : Merged (.bytes loc written :: ts) := by
  refine ⟨fun loc' hmem => ?_, List.isChain_cons.2 ⟨fun t ht _ => hts t ht, h.apart⟩⟩
  rcases List.mem_cons.1 hmem with heq | hmem
  · cases heq
    cases hwritten
  · exact h.nonempty loc' hmem

end Token

namespace Piece

/-- What a piece holds. -/
def contents : Piece → List Content
  | .bytes _ data => data.map .byte
  | .token t => t.contents

/-- The token that a piece is, if it is one. -/
def token? : Piece → Option Token
  | .bytes .. => none
  | .token t => some t

/-- The number of bytes of a piece, those included that the linker fills in. -/
def width : Piece → Nat
  | .bytes _ data => data.length
  | .token t => t.width

/-- The token for the bytes since the last token, if there are any. -/
def runTokens (loc : Location) (run : List UInt8) : List Token := if run.isEmpty then [] else [.bytes loc run]

/-- A token for the bytes holds them. -/
theorem flatMap_contents_runTokens (loc : Location) (run : List UInt8) :
    (runTokens loc run).flatMap Token.contents = run.map .byte := by
  rw [runTokens]
  split
  · rename_i hrun
    rw [List.isEmpty_iff.1 hrun]
    rfl
  · exact List.append_nil _

/-- It takes as many bytes as there are. -/
theorem sum_width_runTokens (loc : Location) (run : List UInt8) :
    ((runTokens loc run).map Token.width).sum = run.length := by
  rw [runTokens]
  split
  · rename_i hrun
    rw [List.isEmpty_iff.1 hrun]
    rfl
  · rfl

/-- Apart from bytes it is nothing. -/
theorem filter_runTokens (loc : Location) (run : List UInt8) :
    (runTokens loc run).filter (fun t => !t.isBytes) = [] := by
  rw [runTokens]
  split <;> rfl

/-- It stands before merged output that does not begin with bytes. -/
theorem merged_runTokens_append {ts : List Token} (h : Token.Merged ts) (hts : ∀ t ∈ ts.head?, t.isBytes = false)
    (loc : Location) (run : List UInt8) : Token.Merged (runTokens loc run ++ ts) := by
  rw [runTokens]
  split
  · exact h
  · rename_i hrun
    exact h.bytes_cons hts loc (Bool.eq_false_iff.2 hrun)

section Tokens

variable (loc : Location) (run : List UInt8)

theorem tokensFrom_nil : tokensFrom loc run [] = runTokens loc run := rfl

/-- Before a token the bytes are written. -/
theorem tokensFrom_token (t : Token) (rest : List Piece) :
    tokensFrom loc run (.token t :: rest) = runTokens loc run ++ t :: tokensFrom loc [] rest := by
  rw [tokensFrom, runTokens]
  split <;> rfl

/-- Pieces are written in order. -/
theorem flatMap_contents_tokensFrom (ps : List Piece) :
    (tokensFrom loc run ps).flatMap Token.contents = run.map .byte ++ ps.flatMap contents := by
  induction ps generalizing loc run with
  | nil => rw [tokensFrom_nil, flatMap_contents_runTokens, List.flatMap_nil, List.append_nil]
  | cons p rest ih =>
    cases p with
    | bytes l data =>
      rw [tokensFrom, ih, List.map_append, List.append_assoc, List.flatMap_cons]
      rfl
    | token t =>
      rw [tokensFrom_token, List.flatMap_append, flatMap_contents_runTokens, List.flatMap_cons, ih, List.flatMap_cons]
      rfl

/-- Pieces are written in their size. -/
theorem sum_width_tokensFrom (ps : List Piece) :
    ((tokensFrom loc run ps).map Token.width).sum = run.length + (ps.map width).sum := by
  induction ps generalizing loc run with
  | nil => exact sum_width_runTokens loc run
  | cons p rest ih =>
    cases p with
    | bytes l data =>
      rw [tokensFrom, ih, List.length_append, List.map_cons, List.sum_cons, Nat.add_assoc]
      rfl
    | token t =>
      rw [tokensFrom_token, List.map_append, List.sum_append, sum_width_runTokens, List.map_cons, List.sum_cons, ih,
        List.map_cons, List.sum_cons, List.length_nil, Nat.zero_add]
      rfl

variable {ps : List Piece} (h : ∀ t, Piece.token t ∈ ps → t.isBytes = false)
include h

/-- Neighbouring bytes are written as one token. -/
theorem merged_tokensFrom : Token.Merged (tokensFrom loc run ps) := by
  induction ps generalizing loc run with
  | nil =>
    have hmerged := merged_runTokens_append Token.merged_nil (fun t ht => by cases ht) loc run
    rwa [List.append_nil] at hmerged
  | cons p rest ih =>
    have hrest : ∀ t, Piece.token t ∈ rest → t.isBytes = false := fun t ht => h t (List.mem_cons_of_mem _ ht)
    cases p with
    | bytes l data => exact ih _ _ hrest
    | token t =>
      have ht := h t List.mem_cons_self
      rw [tokensFrom_token]
      refine merged_runTokens_append ((ih loc [] hrest).cons ht) (fun t' ht' => ?_) loc run
      cases ht'
      exact ht

/-- Apart from bytes, what is written are the tokens among the pieces. -/
theorem filter_tokensFrom : (tokensFrom loc run ps).filter (fun t => !t.isBytes) = ps.filterMap token? := by
  induction ps generalizing loc run with
  | nil => exact filter_runTokens loc run
  | cons p rest ih =>
    have hrest : ∀ t, Piece.token t ∈ rest → t.isBytes = false := fun t ht => h t (List.mem_cons_of_mem _ ht)
    cases p with
    | bytes l data => exact ih _ _ hrest
    | token t =>
      have ht : (!t.isBytes) = true := by rw [h t List.mem_cons_self, Bool.not_false]
      rw [tokensFrom_token, List.filter_append, filter_runTokens, List.nil_append, List.filter_cons, if_pos ht,
        ih _ _ hrest, List.filterMap_cons_some (show token? (.token t) = some t from rfl)]

end Tokens

end Piece

namespace Encode

/-- The number that bytes spell, the lowest byte first. -/
def valueOf (bytes : List UInt8) : Nat := Nat.ofDigits 256 (bytes.map UInt8.toNat)

theorem valueOf_cons (b : UInt8) (bytes : List UInt8) : valueOf (b :: bytes) = b.toNat + 256 * valueOf bytes :=
  Nat.ofDigits_cons

theorem length_littleEndian (size : Nat) (v : Int64) : (littleEndian size v).length = size := by
  rw [littleEndian, List.length_map, List.length_range]

theorem toNat_toUInt8_emod (x : Int) : ((x % 256).toNat.toUInt8.toNat : Int) = x % 256 := by
  have hbyte : (x % 256).toNat.toUInt8.toNat = (x % 256).toNat % 256 := UInt8.toNat_ofNat'
  omega

/-- The lowest byte and the bytes above it. -/
theorem emod_pow_succ (x : Int) (size : Nat) :
    x % 256 ^ (size + 1) = x % 256 + 256 * (x / 256 % 256 ^ size) := by
  rw [Int.emod_def x, Int.emod_def x 256, Int.emod_def (x / 256), Int.ediv_ediv_of_nonneg (by decide), ← pow_succ']
  ring

/-- The bytes of an integer are its lowest digits to the base 256. -/
theorem valueOf_digits (size : Nat) (x : Int) :
    (valueOf ((List.range size).map fun i => (x / Nat.pow 256 i % 256).toNat.toUInt8) : Int) = x % 256 ^ size := by
  induction size generalizing x with
  | zero => simp [valueOf]
  | succ size ih =>
    have hhigh : ((List.range size).map Nat.succ).map (fun i => (x / Nat.pow 256 i % 256).toNat.toUInt8) =
        (List.range size).map fun i => (x / 256 / Nat.pow 256 i % 256).toNat.toUInt8 := by
      rw [List.map_map]
      refine List.map_congr_left fun i _ => ?_
      have hpow : Nat.pow 256 (i + 1) = 256 * Nat.pow 256 i := Nat.pow_succ'
      rw [Function.comp, Int.ediv_ediv_of_nonneg (by decide), Nat.succ_eq_add_one, hpow]
      rfl
    have hlow : x / Nat.pow 256 0 = x := Int.ediv_one x
    rw [List.range_succ_eq_map, List.map_cons, hhigh, hlow, valueOf_cons, Nat.cast_add, Nat.cast_mul, ih,
      toNat_toUInt8_emod, emod_pow_succ]
    rfl

/-- The bytes of a number spell what is left of it modulo the size. -/
theorem valueOf_littleEndian (size : Nat) (v : Int64) :
    (valueOf (littleEndian size v) : Int) = v.toInt % 2 ^ (8 * size) := by
  rw [littleEndian, valueOf_digits, pow_mul]
  rfl

/-- What is said of the elements of a list, if something is said of exactly the elements with some property. -/
theorem forall₂_filterMap {α β : Type} {p : α → Bool} {f : α → Option β} {R : α → β → Prop}
    (hsaid : ∀ a, p a = true → ∃ b, f a = some b ∧ R a b) (hnot : ∀ a, p a = false → f a = none) (as : List α) :
    List.Forall₂ R (as.filter p) (as.filterMap f) := by
  induction as with
  | nil => exact .nil
  | cons a as ih =>
    cases ha : p a with
    | true =>
      obtain ⟨b, hb, hR⟩ := hsaid a ha
      rw [List.filter_cons, if_pos ha, List.filterMap_cons_some hb]
      exact .cons hR ih
    | false =>
      rw [List.filter_cons, if_neg (Bool.eq_false_iff.1 ha), List.filterMap_cons_none (hnot a ha)]
      exact ih

end Encode

end MacroAsm
