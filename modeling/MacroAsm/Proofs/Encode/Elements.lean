import MacroAsm.Proofs.Encode.Content

/-!
# Encoding the elements of data

An element of a data statement is encoded to its bytes, or stays in place as long as it is not known
(`Encode.Encodes`). Encoding fails at the first text among the elements of DB and DW (`Encode.exists_of_data_error`).
Otherwise the output holds what the elements are encoded to, in order and neighbouring bytes in one token, every
longest run of elements that are not known is one data statement, and at the end there is a warning for each element
that does not fit (`Encode.Exact`, `Encode.data_exact`).
-/

namespace MacroAsm

/-- Whether an expression is a text. -/
def Expr.isString : Expr → Bool
  | .string .. => true
  | _ => false

namespace Encode

/-- What an element of a data statement is encoded to. -/
inductive Encodes : DataKind → Expr → List Content → Prop where
  /-- ASCII: the bytes of the text. -/
  | ascii {e : Expr} {t : Text} (he : e.asText = .ok t) : Encodes .ascii e (t.bytes.map .byte)
  /-- ASCIZ: the bytes of the text and a zero. -/
  | asciz {e : Expr} {t : Text} (he : e.asText = .ok t) : Encodes .asciz e ((t.bytes ++ [0]).map .byte)
  /-- DB: the number modulo 2^8. -/
  | bytes {e : Expr} {n : Int64} {b : UInt8} (he : e.asNumber = .ok n) (hb : (b.toNat : Int) = n.toInt % 2 ^ 8) :
    Encodes .bytes e [.byte b]
  /-- DW: the number modulo 2^16, low byte first. -/
  | words {e : Expr} {n : Int64} {low high : UInt8} (he : e.asNumber = .ok n)
    (hw : (low.toNat + 256 * high.toNat : Int) = n.toInt % 2 ^ 16) : Encodes .words e [.byte low, .byte high]
  /-- What is not known stays in place. -/
  | pending {kind : DataKind} {e : Expr} (he : e.isConcrete = false) : Encodes kind e [.element kind e]

/-- Whether an element cannot be encoded: a text in DB or DW. -/
def isRejected (kind : DataKind) (e : Expr) : Bool := (numberWidth? kind).isSome && e.isString

/-- Whether a number does not fit into the width of the statement. -/
def isTruncated (kind : DataKind) (e : Expr) : Bool :=
  match numberWidth? kind, number? e with
  | some width, some n => !(0 ≤ n.toInt && n.toInt < 2 ^ (8 * width))
  | _, _ => false

/-- The warning for a number that does not fit. -/
def WarnsOf (kind : DataKind) (e : Expr) (t : Token) : Prop :=
  ∃ width n, numberWidth? kind = some width ∧ number? e = some n ∧ t = .message (.warn e.loc
    ("Value " ++ Text.ofInt64 n ++ " truncated to " ++ Text.ofInt (n.toInt % 2 ^ (8 * width))))

/-- The longest runs of elements that are not known. -/
def waitingRuns (values : List Expr) : List (List Expr) :=
  (values.splitOnP Expr.isConcrete).filter fun run => !run.isEmpty

/-- The data statement of a run of elements, located where the first of them is. -/
def dataOf (kind : DataKind) (run : List Expr) : Token :=
  .data ((run.head?.map Expr.loc).getD Location.none) kind run

/-- The output that a data statement is encoded to. -/
structure Exact (kind : DataKind) (values : List Expr) (ts : List Token) : Prop where
  /-- It holds what the elements are encoded to, in order. -/
  contents : ∃ groups, List.Forall₂ (Encodes kind) values groups ∧
    (Token.products ts).flatMap Token.contents = groups.flatten
  /-- Its data statements are the longest runs of elements that are not known. -/
  runs : (Token.products ts).filter Token.isData = (waitingRuns values).map (dataOf kind)
  /-- Neighbouring bytes are in one token. -/
  merged : Token.Merged (Token.products ts)
  /-- A warning for each number that does not fit is at the end. -/
  warnings : ∃ warnings, ts = Token.products ts ++ warnings ∧
    List.Forall₂ (WarnsOf kind) (values.filter (isTruncated kind)) warnings

section Elements

variable {kind : DataKind} {e : Expr}

/-- The text of a known expression is that of a string or a number. -/
theorem exists_asText (he : e.isConcrete = true) : ∃ t, e.asText = .ok t := by
  cases e with
  | number | numeral | string => exact ⟨_, rfl⟩
  | _ => cases he

/-- A known expression is a number unless it is a text. -/
theorem asNumber_cases (he : e.isConcrete = true) :
    (∃ n, e.asNumber = .ok n ∧ e.isString = false) ∨
      e.isString = true ∧ e.asNumber = .error (.coercion "String" "number") := by
  cases e with
  | number | numeral => exact Or.inl ⟨_, rfl, rfl⟩
  | string => exact Or.inr ⟨rfl, rfl⟩
  | _ => cases he

/-- An element that is a number is encoded to the number. -/
theorem encodes_bytes {n : Int64} (he : e.asNumber = .ok n) :
    Encodes .bytes e ((littleEndian 1 n).map .byte) := by
  obtain ⟨b, hb⟩ := List.length_eq_one_iff.1 (length_littleEndian 1 n)
  have hvalue := valueOf_littleEndian 1 n
  rw [hb] at hvalue ⊢
  refine .bytes he ?_
  simpa [valueOf] using hvalue

/-- An element that is a number is encoded to the number. -/
theorem encodes_words {n : Int64} (he : e.asNumber = .ok n) :
    Encodes .words e ((littleEndian 2 n).map .byte) := by
  obtain ⟨low, high, hbytes⟩ := List.length_eq_two.1 (length_littleEndian 2 n)
  have hvalue := valueOf_littleEndian 2 n
  rw [hbytes] at hvalue ⊢
  refine .words he ?_
  rw [valueOf_cons, valueOf_cons] at hvalue
  simpa [valueOf] using hvalue

/-- An element of DB or DW is encoded in the width of the statement. -/
theorem elementBytes_of_numberWidth? {width : Nat} (hwidth : numberWidth? kind = some width) (e : Expr) :
    elementBytes kind e = e.asNumber.map (littleEndian width) := by
  cases kind with
  | ascii | asciz => cases hwidth
  | bytes | words =>
    cases hwidth
    rw [elementBytes]
    cases e.asNumber <;> rfl

/-- A known element of DB or DW is encoded to its bytes, unless it is a text. -/
theorem elementBytes_cases_of_numberWidth? {width : Nat} (hwidth : numberWidth? kind = some width)
    (he : e.isConcrete = true) :
    (∃ bytes, elementBytes kind e = .ok bytes ∧ Encodes kind e (bytes.map .byte) ∧ isRejected kind e = false) ∨
      isRejected kind e = true ∧ elementBytes kind e = .error (.coercion "String" "number") := by
  rw [elementBytes_of_numberWidth? hwidth, isRejected, hwidth]
  rcases asNumber_cases he with ⟨n, hn, hstring⟩ | ⟨hstring, hn⟩
  · have hencodes : Encodes kind e ((littleEndian width n).map .byte) := by
      cases kind with
      | ascii | asciz => cases hwidth
      | bytes =>
        cases hwidth
        exact encodes_bytes hn
      | words =>
        cases hwidth
        exact encodes_words hn
    exact Or.inl ⟨littleEndian width n, by rw [hn, Except.map], hencodes, hstring⟩
  · exact Or.inr ⟨hstring, by rw [hn, Except.map]⟩

/-- A known element is encoded to its bytes, unless it is a text in DB or DW. -/
theorem elementBytes_cases (he : e.isConcrete = true) (kind : DataKind) :
    (∃ bytes, elementBytes kind e = .ok bytes ∧ Encodes kind e (bytes.map .byte) ∧ isRejected kind e = false) ∨
      isRejected kind e = true ∧ elementBytes kind e = .error (.coercion "String" "number") := by
  obtain ⟨t, ht⟩ := exists_asText he
  cases kind with
  | ascii =>
    refine Or.inl ⟨t.bytes, ?_, .ascii ht, rfl⟩
    rw [elementBytes, ht]
    rfl
  | asciz =>
    refine Or.inl ⟨t.bytes ++ [0], ?_, .asciz ht, rfl⟩
    rw [elementBytes, ht]
    rfl
  | bytes | words => exact elementBytes_cases_of_numberWidth? rfl he

/-- What is not known is not rejected. -/
theorem isRejected_of_not_isConcrete (he : e.isConcrete = false) : isRejected kind e = false := by
  cases e with
  | string => cases he
  | _ => exact Bool.and_false _

/-- What is encoded is not rejected. -/
theorem Encodes.not_isRejected {contents : List Content} (h : Encodes kind e contents) :
    isRejected kind e = false := by
  cases h with
  | ascii | asciz => rfl
  | bytes he | words he =>
    cases e with
    | string => cases he
    | _ => rfl
  | pending he => exact isRejected_of_not_isConcrete he

end Elements

section Pieces

variable {kind : DataKind} {waiting values : List Expr}

/-- Elements that wait for the end of their run are one data statement. -/
theorem flatMap_contents_pendingData (kind : DataKind) (waiting : List Expr) :
    (pendingData kind waiting).flatMap Piece.contents = waiting.reverse.map (.element kind) := by
  rw [pendingData]
  split
  · rename_i hnil
    rw [hnil]
    rfl
  · rename_i e rest hcons
    rw [hcons]
    exact List.append_nil _

/-- The pieces of a data statement hold what the elements are encoded to. -/
theorem exists_groups_of_dataPieces {ps : List Piece} (h : dataPieces kind waiting values = .ok ps) :
    ∃ groups, List.Forall₂ (Encodes kind) values groups ∧
      ps.flatMap Piece.contents = waiting.reverse.map (.element kind) ++ groups.flatten := by
  induction values generalizing waiting ps with
  | nil =>
    cases h
    refine ⟨[], .nil, ?_⟩
    rw [flatMap_contents_pendingData, List.flatten_nil, List.append_nil]
  | cons e rest ih =>
    rw [dataPieces] at h
    split at h
    · rename_i he
      rcases elementBytes_cases he kind with ⟨bytes, hbytes, hencodes, -⟩ | ⟨-, herror⟩
      · rw [hbytes] at h
        obtain ⟨ps', hps', heq⟩ := Except.bind_eq_ok_iff.1 h
        cases heq
        obtain ⟨groups, hgroups, hcontents⟩ := ih hps'
        refine ⟨bytes.map .byte :: groups, .cons hencodes hgroups, ?_⟩
        rw [List.flatMap_append, flatMap_contents_pendingData, List.flatMap_cons, hcontents]
        rfl
      · rw [herror] at h
        cases h
    · rename_i he
      obtain ⟨groups, hgroups, hcontents⟩ := ih h
      refine ⟨[.element kind e] :: groups, .cons (.pending (Bool.eq_false_iff.2 he)) hgroups, ?_⟩
      rw [hcontents, List.reverse_cons, List.map_append, List.append_assoc]
      rfl

/-- No element of a data statement that makes pieces is rejected. -/
theorem not_isRejected_of_dataPieces {ps : List Piece} (h : dataPieces kind waiting values = .ok ps) :
    ∀ e ∈ values, isRejected kind e = false := by
  obtain ⟨groups, hgroups, -⟩ := exists_groups_of_dataPieces h
  clear h
  induction hgroups with
  | nil => exact fun e he => absurd he List.not_mem_nil
  | cons hencodes _ ih => exact List.forall_mem_cons.2 ⟨hencodes.not_isRejected, ih⟩

/-- Elements none of which is known are one run. -/
theorem waitingRuns_of_forall (h : ∀ e ∈ values, e.isConcrete = false) :
    waitingRuns values = if values.isEmpty then [] else [values] := by
  rw [waitingRuns, List.splitOnP_eq_singleton h]
  cases values <;> rfl

/-- A known element ends a run. -/
theorem waitingRuns_append_cons {e : Expr} (he : e.isConcrete = true) (before after : List Expr) :
    waitingRuns (before ++ e :: after) = waitingRuns before ++ waitingRuns after := by
  rw [waitingRuns, List.splitOnP_append_cons _ _ he, List.filter_append]
  rfl

/-- The data statements among the pieces are the longest runs of elements that are not known. -/
theorem filterMap_token?_dataPieces (hwaiting : ∀ e ∈ waiting, e.isConcrete = false) {ps : List Piece}
    (h : dataPieces kind waiting values = .ok ps) :
    ps.filterMap Piece.token? = (waitingRuns (waiting.reverse ++ values)).map (dataOf kind) := by
  have hpending : ∀ {waiting : List Expr}, (∀ e ∈ waiting, e.isConcrete = false) →
      (pendingData kind waiting).filterMap Piece.token? = (waitingRuns waiting.reverse).map (dataOf kind) := by
    intro waiting hwaiting
    rw [waitingRuns_of_forall fun e he => hwaiting e (List.mem_reverse.1 he), pendingData]
    split
    · rename_i hnil
      rw [hnil]
      rfl
    · rename_i e rest hcons
      rw [hcons]
      rfl
  -- the elements that wait are the beginning of the run that is open
  induction values generalizing waiting ps with
  | nil =>
    cases h
    rw [List.append_nil]
    exact hpending hwaiting
  | cons e rest ih =>
    rw [dataPieces] at h
    split at h
    · rename_i he
      split at h
      · cases h
      · obtain ⟨ps', hps', heq⟩ := Except.bind_eq_ok_iff.1 h
        cases heq
        rw [waitingRuns_append_cons he, List.map_append, List.filterMap_append, hpending hwaiting,
          List.filterMap_cons_none (show Piece.token? (.bytes _ _) = none from rfl),
          ih (fun e he => absurd he List.not_mem_nil) hps']
        rfl
    · rename_i he
      have hnext := ih (List.forall_mem_cons.2 ⟨Bool.eq_false_iff.2 he, hwaiting⟩) h
      rwa [List.reverse_cons, List.append_assoc] at hnext

/-- Data without elements that cannot be encoded makes pieces. -/
theorem exists_dataPieces (h : ∀ e ∈ values, isRejected kind e = false) (waiting : List Expr) :
    ∃ ps, dataPieces kind waiting values = .ok ps := by
  induction values generalizing waiting with
  | nil => exact ⟨_, rfl⟩
  | cons e rest ih =>
    rw [List.forall_mem_cons] at h
    rw [dataPieces]
    split
    · rename_i he
      rcases elementBytes_cases he kind with ⟨bytes, hbytes, -⟩ | ⟨hrejected, -⟩
      · obtain ⟨ps, hps⟩ := ih h.2 []
        rw [hbytes, hps]
        exact ⟨_, rfl⟩
      · rw [h.1] at hrejected
        cases hrejected
    · exact ih h.2 _

/-- The error of the first element that cannot be encoded. -/
def RejectsFirst (kind : DataKind) (values : List Expr) (d : Diagnostic) : Prop :=
  ∃ before e after, values = before ++ e :: after ∧ isRejected kind e = true ∧
    (∀ e' ∈ before, isRejected kind e' = false) ∧ d = .ofCause (.coercion "String" "number") e.loc

/-- An element that can be encoded before others. -/
theorem RejectsFirst.cons {e : Expr} {d : Diagnostic} (h : RejectsFirst kind values d)
    (he : isRejected kind e = false) : RejectsFirst kind (e :: values) d := by
  obtain ⟨before, e', after, rfl, he', hbefore, hd⟩ := h
  exact ⟨e :: before, e', after, rfl, he', List.forall_mem_cons.2 ⟨he, hbefore⟩, hd⟩

/-- An error is at the first element that cannot be encoded. -/
theorem rejectsFirst_of_dataPieces {d : Diagnostic} (h : dataPieces kind waiting values = .error d) :
    RejectsFirst kind values d := by
  induction values generalizing waiting with
  | nil => cases h
  | cons e rest ih =>
    rw [dataPieces] at h
    split at h
    · rename_i he
      rcases elementBytes_cases he kind with ⟨bytes, hbytes, -, hkept⟩ | ⟨hrejected, herror⟩
      · rw [hbytes] at h
        cases hrest : dataPieces kind [] rest with
        | error d' =>
          rw [hrest] at h
          cases h
          exact (ih hrest).cons hkept
        | ok ps =>
          rw [hrest] at h
          cases h
      · rw [herror] at h
        cases h
        exact ⟨[], e, rest, rfl, hrejected, fun e' he' => absurd he' List.not_mem_nil, rfl⟩
    · rename_i he
      exact (ih h).cons (isRejected_of_not_isConcrete (Bool.eq_false_iff.2 he))

end Pieces

section Warnings

variable {kind : DataKind} {e : Expr}

/-- A number is what is left of it modulo another one if it is in range. -/
theorem emod_eq_self_iff {x m : Int} (hm : 0 < m) : x % m = x ↔ 0 ≤ x ∧ x < m := by
  constructor
  · intro h
    rw [← h]
    exact ⟨Int.emod_nonneg _ hm.ne', Int.emod_lt_of_pos _ hm⟩
  · exact fun h => Int.emod_eq_of_lt h.1 h.2

/-- A power of 256 is a power of two. -/
theorem natPow_256 (width : Nat) : ((Nat.pow 256 width : Nat) : Int) = 2 ^ (8 * width) := by
  rw [pow_mul, Nat.pow_eq]
  push_cast
  rfl

/-- The warning for an element that is a number. -/
theorem elementWarning?_eq {width : Nat} {n : Int64} (hwidth : numberWidth? kind = some width)
    (hn : number? e = some n) :
    elementWarning? kind e = if n.toInt % 2 ^ (8 * width) = n.toInt then none else some (.message (.warn e.loc
      ("Value " ++ Text.ofInt64 n ++ " truncated to " ++ Text.ofInt (n.toInt % 2 ^ (8 * width))))) := by
  rw [elementWarning?, hwidth, hn]
  simp only [natPow_256, beq_iff_eq]

/-- A number that does not fit is warned of. -/
theorem exists_elementWarning? (h : isTruncated kind e = true) :
    ∃ t, elementWarning? kind e = some t ∧ WarnsOf kind e t := by
  rw [isTruncated] at h
  split at h
  · rename_i width n hwidth hn
    refine ⟨_, ?_, width, n, hwidth, hn, rfl⟩
    rw [Bool.not_eq_true', ← Bool.not_eq_true, Bool.and_eq_true, decide_eq_true_eq, decide_eq_true_eq] at h
    rw [elementWarning?_eq hwidth hn, if_neg]
    rwa [emod_eq_self_iff (by positivity)]
  · cases h

/-- A number that fits is not. -/
theorem elementWarning?_eq_none (h : isTruncated kind e = false) : elementWarning? kind e = none := by
  rw [isTruncated] at h
  split at h
  · rename_i width n hwidth hn
    rw [elementWarning?_eq hwidth hn, if_pos]
    rw [emod_eq_self_iff (by positivity)]
    simpa using h
  · rename_i hnone
    rw [elementWarning?]
    split
    · rename_i width n hwidth hn
      exact absurd hn (hnone width n hwidth)
    · rfl

end Warnings

/-- Data that is encoded is exact. -/
theorem exact_of_data {kind : DataKind} {values : List Expr} {ts : List Token} (h : data kind values = .ok ts) :
    Exact kind values ts := by
  obtain ⟨ps, hps, hproducts⟩ := exists_pieces_of_data h
  have htokens : ∀ t, Piece.token t ∈ ps → ∃ loc group, t = .data loc kind group := by
    intro t ht
    obtain ⟨loc, group, rfl, -⟩ := exists_of_mem_dataPieces (fun e he => absurd he List.not_mem_nil)
      (fun e he => he) hps ht
    exact ⟨loc, group, rfl⟩
  have hbytes : ∀ t, Piece.token t ∈ ps → t.isBytes = false := by
    intro t ht
    obtain ⟨loc, group, rfl⟩ := htokens t ht
    rfl
  constructor
  · obtain ⟨groups, hgroups, hcontents⟩ := exists_groups_of_dataPieces hps
    refine ⟨groups, hgroups, ?_⟩
    rw [hproducts, Piece.tokens, Piece.flatMap_contents_tokensFrom, hcontents]
    rfl
  · have hdata : ∀ t ∈ Piece.tokens ps, t.isData = !t.isBytes := by
      intro t ht
      rcases mem_tokensFrom ht with ⟨loc, written, rfl⟩ | hmem
      · rfl
      · obtain ⟨loc, group, rfl⟩ := htokens t hmem
        rfl
    rw [hproducts, List.filter_congr hdata, Piece.tokens, Piece.filter_tokensFrom _ _ hbytes,
      filterMap_token?_dataPieces (fun e he => absurd he List.not_mem_nil) hps]
    rfl
  · rw [hproducts]
    exact Piece.merged_tokensFrom _ _ hbytes
  · obtain ⟨ps', hps', heq⟩ := Except.bind_eq_ok_iff.1 h
    cases heq
    refine ⟨values.filterMap (elementWarning? kind), ?_, forall₂_filterMap (fun e => exists_elementWarning?)
      (fun e => elementWarning?_eq_none) values⟩
    rw [hproducts, ← Except.ok.inj (hps'.symm.trans hps)]

/-- Data cannot be encoded if this is so for one of its elements. -/
theorem exists_error_iff {kind : DataKind} {values : List Expr} :
    (∃ d, data kind values = .error d) ↔ ∃ e ∈ values, isRejected kind e = true := by
  constructor
  · rintro ⟨d, hd⟩
    by_contra hnone
    push Not at hnone
    obtain ⟨ps, hps⟩ := exists_dataPieces (fun e he => Bool.eq_false_iff.2 (hnone e he)) []
    rw [data, hps] at hd
    cases hd
  · rintro ⟨e, he, hrejected⟩
    rw [data]
    cases hps : dataPieces kind [] values with
    | error d => exact ⟨d, rfl⟩
    | ok ps =>
      rw [not_isRejected_of_dataPieces hps e he] at hrejected
      cases hrejected

/-- The error of data is that of the first element that cannot be encoded. -/
theorem rejectsFirst_of_data {kind : DataKind} {values : List Expr} {d : Diagnostic}
    (h : data kind values = .error d) : RejectsFirst kind values d := by
  rw [data] at h
  cases hps : dataPieces kind [] values with
  | error d' =>
    rw [hps] at h
    cases h
    exact rejectsFirst_of_dataPieces hps
  | ok ps =>
    rw [hps] at h
    cases h

theorem isRejected_iff {kind : DataKind} {e : Expr} :
    isRejected kind e = true ↔ (kind = .bytes ∨ kind = .words) ∧ e.isString = true := by
  cases kind <;> simp [isRejected, numberWidth?]

/-- Data is encoded unless a text is among the elements of DB or DW, and then the error is at the first of them. What
it is encoded to is exact. -/
theorem data_exact (kind : DataKind) (values : List Expr) :
    ((∃ d, data kind values = .error d) ↔
        (kind = .bytes ∨ kind = .words) ∧ ∃ e ∈ values, e.isString = true) ∧
      (∀ d, data kind values = .error d → ∃ before e after, values = before ++ e :: after ∧ e.isString = true ∧
        (∀ e' ∈ before, e'.isString = false) ∧ d.loc = e.loc) ∧
      ∀ ts, data kind values = .ok ts → Exact kind values ts := by
  refine ⟨?_, fun d hd => ?_, fun ts => exact_of_data⟩
  · rw [exists_error_iff]
    simp only [isRejected_iff]
    exact ⟨fun ⟨e, he, hkind, hstring⟩ => ⟨hkind, e, he, hstring⟩,
      fun ⟨hkind, e, he, hstring⟩ => ⟨e, he, hkind, hstring⟩⟩
  · obtain ⟨before, e, after, hvalues, hrejected, hbefore, rfl⟩ := rejectsFirst_of_data hd
    obtain ⟨hkind, hstring⟩ := isRejected_iff.1 hrejected
    refine ⟨before, e, after, hvalues, hstring, fun e' he' => ?_, rfl⟩
    rw [← Bool.not_eq_true]
    intro hstring'
    have hkept := hbefore e' he'
    rw [isRejected_iff.2 ⟨hkind, hstring'⟩] at hkept
    cases hkept

/-- `DB 1,X,Y,300`: the run of X and Y stays between the bytes of the numbers, and 300 is warned of. -/
theorem data_exact_mixed :
    Exact .bytes
      [.literal Location.none 1, .identifier Location.none "X", .identifier Location.none "Y",
        .literal Location.none 300]
      [.bytes Location.none [1],
        .data Location.none .bytes [.identifier Location.none "X", .identifier Location.none "Y"],
        .bytes Location.none [44], .message (.warn Location.none "Value 300 truncated to 44")] :=
  (data_exact .bytes _).2.2 _ rfl

end Encode

end MacroAsm
