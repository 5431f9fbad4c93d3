import MacroAsm.Encode.Data
import MacroAsm.Proofs.Eval.Action

/-!
# What encodings are made of

An encoded instruction is made of warnings, bytes, and operands that are not numbers
(`Encode.instruction_cases`); an encoded data statement is made of warnings, bytes, and data statements over
elements that are not known (`Encode.data_cases`). What is known of an encoding is read off these lists.
-/

namespace MacroAsm

namespace Encode

/-- A token of a run of pieces stands for bytes, or is one of the pieces. -/
theorem mem_tokensFrom {t : Token} {loc : Location} {run : List UInt8} {ps : List Piece}
    (h : t ∈ Piece.tokensFrom loc run ps) : (∃ l data, t = .bytes l data) ∨ Piece.token t ∈ ps := by
  induction ps generalizing loc run with
  | nil =>
    rw [Piece.tokensFrom] at h
    split at h
    · cases h
    · exact Or.inl ⟨loc, run, List.mem_singleton.1 h⟩
  | cons p rest ih =>
    have hrest : ∀ {loc : Location} {run : List UInt8}, t ∈ Piece.tokensFrom loc run rest →
        (∃ l data, t = .bytes l data) ∨ Piece.token t ∈ p :: rest :=
      fun h => (ih h).imp id (List.mem_cons_of_mem p)
    cases p with
    | bytes l data => exact hrest h
    | token t' =>
      rw [Piece.tokensFrom] at h
      split at h
      · rcases List.mem_cons.1 h with rfl | h
        · exact Or.inr List.mem_cons_self
        · exact hrest h
      · rcases List.mem_cons.1 h with rfl | h
        · exact Or.inl ⟨loc, run, rfl⟩
        · rcases List.mem_cons.1 h with rfl | h
          · exact Or.inr List.mem_cons_self
          · exact hrest h

/-- What is said of an operand that does not fit is a warning. -/
theorem exists_of_operandWarning? {value : Expr} {imm : Immediate} {t : Token}
    (h : operandWarning? value imm = some t) : ∃ loc text, t = .message (.warn loc text) := by
  rw [operandWarning?] at h
  split at h
  · split at h
    · cases h
    · cases h
      exact ⟨_, _, rfl⟩
  · cases h

/-- What is said of an element that does not fit is a warning. -/
theorem exists_of_elementWarning? {kind : DataKind} {e : Expr} {t : Token}
    (h : elementWarning? kind e = some t) : ∃ loc text, t = .message (.warn loc text) := by
  rw [elementWarning?] at h
  split at h
  · dsimp only at h
    split at h
    · cases h
    · cases h
      exact ⟨_, _, rfl⟩
  · cases h

/-- A token of an encoded instruction is a warning, stands for bytes, or is an operand that is not known. -/
theorem instruction_cases {table : InstructionSet} {mnemonic : Text} {d : Dispatch} {ts : List Token}
    (h : instruction table mnemonic d = .ok ts) {t : Token} (ht : t ∈ ts) :
    (∃ loc text, t = .message (.warn loc text)) ∨ (∃ loc data, t = .bytes loc data) ∨
      ∃ operands value loc size signed, t = .immediate loc value size signed ∧ number? value = none ∧
        Operand.ofExprs d.operands = .ok operands ∧ value ∈ operands.filterMap Operand.value := by
  rw [instruction] at h
  obtain ⟨operands, hoperands, h⟩ := Except.bind_eq_ok_iff.1 h
  split at h
  · cases h
  · rename_i form _
    dsimp only at h
    split at h
    · cases h
    · cases h
      rcases List.mem_append.1 ht with ht | ht
      · rcases mem_tokensFrom ht with hbytes | hmem
        · exact Or.inr (Or.inl hbytes)
        · rcases List.mem_cons.1 hmem with hmem | hmem
          · cases hmem
          · obtain ⟨i, hi, heq⟩ := List.mem_iff_getElem.1 hmem
            rw [List.getElem_zipWith, operandPiece] at heq
            split at heq
            · cases heq
            · rename_i hnone
              cases heq
              exact Or.inr (Or.inr ⟨operands, _, _, _, _, rfl, hnone, hoperands, List.getElem_mem _⟩)
      · obtain ⟨o, ho, hsome⟩ := List.mem_filterMap.1 ht
        obtain ⟨i, hi, heq⟩ := List.mem_iff_getElem.1 ho
        rw [List.getElem_zipWith] at heq
        exact Or.inl (exists_of_operandWarning? (heq.trans hsome))

/-- A token among the pieces of a data statement is a data statement over elements that are not known. -/
theorem exists_of_mem_dataPieces {kind : DataKind} {all waiting values : List Expr} {ps : List Piece}
    (hwaiting : ∀ e ∈ waiting, e ∈ all ∧ e.isConcrete = false) (hvalues : ∀ e ∈ values, e ∈ all)
    (h : dataPieces kind waiting values = .ok ps) {t : Token} (ht : Piece.token t ∈ ps) :
    ∃ loc group, t = .data loc kind group ∧ ∀ e ∈ group, e ∈ all ∧ e.isConcrete = false := by
  -- the elements that wait for the end of their group
  have hpending : ∀ {waiting : List Expr}, (∀ e ∈ waiting, e ∈ all ∧ e.isConcrete = false) →
      Piece.token t ∈ pendingData kind waiting →
      ∃ loc group, t = .data loc kind group ∧ ∀ e ∈ group, e ∈ all ∧ e.isConcrete = false := by
    intro waiting hwaiting hmem
    rw [pendingData] at hmem
    split at hmem
    · cases hmem
    · rename_i e rest heq
      cases List.mem_singleton.1 hmem
      refine ⟨_, _, rfl, fun e' he' => hwaiting e' ?_⟩
      rwa [← heq, List.mem_reverse] at he'
  induction values generalizing waiting ps with
  | nil =>
    cases h
    exact hpending hwaiting ht
  | cons e rest ih =>
    rw [List.forall_mem_cons] at hvalues
    rw [dataPieces] at h
    split at h
    · split at h
      · cases h
      · obtain ⟨ps', hps', heq⟩ := Except.bind_eq_ok_iff.1 h
        cases heq
        rcases List.mem_append.1 ht with ht | ht
        · exact hpending hwaiting ht
        · rcases List.mem_cons.1 ht with ht | ht
          · cases ht
          · exact ih (fun e he => absurd he List.not_mem_nil) hvalues.2 hps' ht
    · rename_i hconcrete
      refine ih (List.forall_mem_cons.2 ⟨⟨hvalues.1, ?_⟩, hwaiting⟩) hvalues.2 h ht
      simpa using hconcrete

/-- A token of an encoded data statement is a warning, stands for bytes, or is a data statement over elements
that are not known. -/
theorem data_cases {kind : DataKind} {values : List Expr} {ts : List Token}
    (h : data kind values = .ok ts) {t : Token} (ht : t ∈ ts) :
    (∃ loc text, t = .message (.warn loc text)) ∨ (∃ loc written, t = .bytes loc written) ∨
      ∃ loc group, t = .data loc kind group ∧ ∀ e ∈ group, e ∈ values ∧ e.isConcrete = false := by
  obtain ⟨ps, hps, heq⟩ := Except.bind_eq_ok_iff.1 h
  cases heq
  rcases List.mem_append.1 ht with ht | ht
  · rcases mem_tokensFrom ht with hbytes | hmem
    · exact Or.inr (Or.inl hbytes)
    · refine Or.inr (Or.inr (exists_of_mem_dataPieces ?_ (fun e he => he) hps hmem))
      exact fun e he => absurd he List.not_mem_nil
  · obtain ⟨e, -, he⟩ := List.mem_filterMap.1 ht
    exact Or.inl (exists_of_elementWarning? he)

end Encode

end MacroAsm
