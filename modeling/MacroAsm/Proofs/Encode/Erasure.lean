import MacroAsm.Proofs.Assembly.Depth

/-!
# Encoded data up to locations

Encoding sees no more of the elements of a data statement than their erasures. So statements whose elements
look alike are encoded to output that looks alike, once locations are forgotten and the warnings are left out
(`Encode.data_erase`).
-/

namespace MacroAsm

namespace Token

/-- Output for data without the places where it came from and the names its values were resolved through. -/
def erase : Token → Token
  | .bytes _ written => .bytes Location.none written
  | .data _ kind values => .data Location.none kind (values.map Expr.erase)
  | t => t

/-- The output that is no diagnostic. -/
def products (ts : List Token) : List Token := ts.filter fun t => !t.isMessage

@[simp]
theorem products_append (ts ts' : List Token) : products (ts ++ ts') = products ts ++ products ts' :=
  List.filter_append ..

theorem products_eq_nil {ts : List Token} (h : ∀ t ∈ ts, t.isMessage = true) : products ts = [] :=
  List.filter_eq_nil_iff.2 fun t ht => by simp [h t ht]

theorem products_eq_self {ts : List Token} (h : ∀ t ∈ ts, t.isMessage = false) : products ts = ts :=
  List.filter_eq_self.2 fun t ht => by simp [h t ht]

end Token

namespace Piece

/-- A piece without the places where it came from. -/
def erase : Piece → Piece
  | .bytes _ data => .bytes Location.none data
  | .token t => .token t.erase

/-- The tokens of pieces that look alike look alike. -/
theorem map_erase_tokensFrom {ps ps' : List Piece} (h : ps.map erase = ps'.map erase) (loc loc' : Location)
    (run : List UInt8) :
    (tokensFrom loc run ps).map Token.erase = (tokensFrom loc' run ps').map Token.erase := by
  induction ps generalizing ps' loc loc' run with
  | nil =>
    rw [List.map_nil, eq_comm, List.map_eq_nil_iff] at h
    subst h
    rw [tokensFrom, tokensFrom]
    split <;> rfl
  | cons p ps ih =>
    rw [List.map_cons, eq_comm, List.map_eq_cons_iff] at h
    obtain ⟨p', rest', rfl, hp, hrest⟩ := h
    cases p with
    | bytes l data =>
      cases p' with
      | bytes l' data' =>
        obtain rfl : data' = data := by
          rw [erase, erase] at hp
          injection hp
        rw [tokensFrom, tokensFrom]
        exact ih hrest.symm _ _ _
      | token t => cases hp
    | token t =>
      cases p' with
      | bytes l' data' => cases hp
      | token t' =>
        have ht : t'.erase = t.erase := by
          rw [erase, erase] at hp
          injection hp
        rw [tokensFrom, tokensFrom]
        split
        · rw [List.map_cons, List.map_cons, ht, ih hrest.symm loc loc' []]
        · rw [List.map_cons, List.map_cons, List.map_cons, List.map_cons, ht, ih hrest.symm loc loc' []]
          rfl

end Piece

namespace Encode

theorem elementBytes_congr {e e' : Expr} (h : e.erase = e'.erase) (kind : DataKind) :
    elementBytes kind e = elementBytes kind e' := by
  cases kind <;> rw [elementBytes, elementBytes] <;> simp only [Expr.asText_congr h, Expr.asNumber_congr h]

/-- Elements that look alike wait alike. -/
theorem map_erase_pendingData {waiting waiting' : List Expr}
    (h : waiting.map Expr.erase = waiting'.map Expr.erase) (kind : DataKind) :
    (pendingData kind waiting).map Piece.erase = (pendingData kind waiting').map Piece.erase := by
  have hreverse : waiting.reverse.map Expr.erase = waiting'.reverse.map Expr.erase := by
    rw [List.map_reverse, List.map_reverse, h]
  rw [pendingData, pendingData]
  cases hleft : waiting.reverse with
  | nil =>
    rw [hleft, List.map_nil, eq_comm, List.map_eq_nil_iff] at hreverse
    rw [hreverse]
  | cons e rest =>
    rw [hleft] at hreverse
    cases hright : waiting'.reverse with
    | nil =>
      rw [hright] at hreverse
      cases hreverse
    | cons e' rest' =>
      rw [hright] at hreverse
      simp only [List.map_cons, List.map_nil, Piece.erase, Token.erase] at hreverse ⊢
      rw [hreverse]

/-- Elements that look alike make pieces that look alike. -/
theorem map_erase_dataPieces {kind : DataKind} {waiting waiting' values values' : List Expr}
    (hwaiting : waiting.map Expr.erase = waiting'.map Expr.erase)
    (hvalues : values.map Expr.erase = values'.map Expr.erase) {ps ps' : List Piece}
    (h : dataPieces kind waiting values = .ok ps) (h' : dataPieces kind waiting' values' = .ok ps') :
    ps.map Piece.erase = ps'.map Piece.erase := by
  induction values generalizing values' waiting waiting' ps ps' with
  | nil =>
    rw [List.map_nil, eq_comm, List.map_eq_nil_iff] at hvalues
    subst hvalues
    cases h
    cases h'
    exact map_erase_pendingData hwaiting kind
  | cons e rest ih =>
    rw [List.map_cons, eq_comm, List.map_eq_cons_iff] at hvalues
    obtain ⟨e', rest', rfl, he, hrest⟩ := hvalues
    rw [dataPieces] at h h'
    rw [Expr.isConcrete_congr he, elementBytes_congr he] at h'
    split at h
    · rename_i hconcrete
      rw [if_pos hconcrete] at h'
      cases hbytes : elementBytes kind e with
      | error c =>
        rw [hbytes] at h
        cases h
      | ok bytes =>
        rw [hbytes] at h h'
        obtain ⟨qs, hqs, heq⟩ := Except.bind_eq_ok_iff.1 h
        obtain ⟨qs', hqs', heq'⟩ := Except.bind_eq_ok_iff.1 h'
        cases heq
        cases heq'
        rw [List.map_append, List.map_append, List.map_cons, List.map_cons,
          map_erase_pendingData hwaiting kind, ih rfl hrest.symm hqs hqs']
        rfl
    · rename_i hconcrete
      rw [if_neg hconcrete] at h'
      exact ih (by rw [List.map_cons, List.map_cons, he, hwaiting]) hrest.symm h h'

/-- The products of a data statement are its pieces. -/
theorem exists_pieces_of_data {kind : DataKind} {values : List Expr} {ts : List Token}
    (h : data kind values = .ok ts) :
    ∃ ps, dataPieces kind [] values = .ok ps ∧ Token.products ts = Piece.tokens ps := by
  obtain ⟨ps, hps, heq⟩ := Except.bind_eq_ok_iff.1 h
  cases heq
  have hpieces : ∀ t ∈ Piece.tokens ps, t.isMessage = false := by
    intro t ht
    rcases mem_tokensFrom ht with ⟨l, written, rfl⟩ | hmem
    · rfl
    · obtain ⟨loc, group, rfl, -⟩ := exists_of_mem_dataPieces (fun e he => absurd he List.not_mem_nil)
        (fun e he => he) hps hmem
      rfl
  have hwarnings : ∀ t ∈ values.filterMap (elementWarning? kind), t.isMessage = true := by
    intro t ht
    obtain ⟨e, -, he⟩ := List.mem_filterMap.1 ht
    obtain ⟨loc, text, rfl⟩ := exists_of_elementWarning? he
    rfl
  refine ⟨ps, hps, ?_⟩
  rw [Token.products_append, Token.products_eq_self hpieces, Token.products_eq_nil hwarnings, List.append_nil]

/-- Data whose elements look alike is encoded to output that looks alike. -/
theorem data_erase {kind : DataKind} {values values' : List Expr}
    (hvalues : values.map Expr.erase = values'.map Expr.erase) {ts ts' : List Token}
    (h : data kind values = .ok ts) (h' : data kind values' = .ok ts') :
    (Token.products ts).map Token.erase = (Token.products ts').map Token.erase := by
  obtain ⟨ps, hps, hproducts⟩ := exists_pieces_of_data h
  obtain ⟨ps', hps', hproducts'⟩ := exists_pieces_of_data h'
  rw [hproducts, hproducts', Piece.tokens, Piece.tokens]
  exact Piece.map_erase_tokensFrom (map_erase_dataPieces rfl hvalues hps hps') _ _ _

end Encode

end MacroAsm
