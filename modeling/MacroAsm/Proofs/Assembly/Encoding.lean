import MacroAsm.Proofs.Assembly.Program
import MacroAsm.Proofs.Encode.Pieces

/-!
# Encoding what is known

A token is encoded if nothing in it is known that could have been written as bytes or shown, in the bodies of
an IF as well (`Token.isEncoded`). The last steps of a block encode what they are given
(`Encode.isEncoded_of_instruction`, `Encode.isEncoded_of_data`). What a nested block gave is evaluated again
by every block around it, which may make it known, and then only data and texts are encoded once more.
`Pass.reduceKept` ends the program where evaluating an operand, a jump or an IF again makes something in it
known.

Main statement: `Assembler.assemble_encoded`. What assembling a program gives is output in which every data
and display statement is encoded, and everything in it is encoded unless a nested block's operand, jump or IF
became known after the block was finished. `Assembler.exists_not_isEncoded` shows that this does happen.
-/

namespace MacroAsm

namespace Token

/-- Whether nothing in a token itself is known: no element of data, not the whole text of a display, not the
value of an operand and not the target of a jump. -/
def isEncodedHere : Token → Bool
  | .data _ _ values => values.all fun e => !e.isConcrete
  | .display _ _ text => !text.all Expr.isConcrete
  | .immediate _ value _ _ => (Encode.number? value).isNone
  | .branch b => (Encode.number? b.target).isNone
  | _ => true

/-- Whether nothing is known in a token, and in the bodies of an IF. -/
def isEncoded (t : Token) : Bool := t.everywhere isEncodedHere

/-- Whether a token that was made by assembling a block is still encoded. -/
def isKept (t : Token) : Bool := t.role != .assembled || t.isEncoded

/-- Whether a token is kept, or what takes its place if it is an IF that is decided. -/
def isReady (t : Token) : Bool :=
  match t.decision? with
  | some ts => ts.all isKept
  | none => t.isKept

/-- A token that is passed on up to the last step has no bodies. -/
theorem everywhere_of_plain {p : Token → Bool} {t : Token} (h : t.role = .plain) :
    t.everywhere p = p t := by
  cases t with
  | cond _ _ _ assembled => cases assembled <;> cases h
  | dup => cases h
  | macroDef => cases h
  | _ => rfl

theorem isOutput_of_plain {t : Token} (h : t.role = .plain) : t.isOutput = true := by
  rw [isOutput, everywhere_of_plain h, h]
  rfl

theorem role_of_isOutput {t : Token} (h : t.isOutput = true) : t.role = .assembled ∨ t.role = .plain := by
  have hrole := of_everywhere h
  simpa using hrole

theorem role_of_isStatement {t : Token} (h : t.isStatement = true) : t.role ≠ .assembled := by
  have hrole := of_everywhere h
  simpa using hrole

theorem isKept_iff {t : Token} : t.isKept = true ↔ (t.role = .assembled → t.isEncoded = true) := by
  rw [isKept, Bool.or_eq_true, bne_iff_ne, Decidable.imp_iff_not_or]

/-- Output is encoded if it is, whether it was made by assembling a block or not. -/
theorem isEncoded_of_isOutput {t : Token} (h : t.isOutput = true)
    (hplain : t.role = .plain → t.isEncoded = true) (hkept : t.isKept = true) : t.isEncoded = true := by
  rcases role_of_isOutput h with hrole | hrole
  · exact isKept_iff.1 hkept hrole
  · exact hplain hrole

/-- Only an assembled IF is decided, and one of its arms takes its place. -/
theorem decision?_cases {t : Token} {ts : List Token} (h : t.decision? = some ts) :
    ∃ loc clauses otherwise, t = .cond loc clauses otherwise true ∧
      ((∃ c ∈ clauses, ts = c.body) ∨ ts = otherwise.getD []) := by
  cases t with
  | cond loc clauses otherwise assembled =>
    cases assembled with
    | false => cases h
    | true =>
      have hdecide : Conditional.decide? otherwise clauses = .ok (some ts) := by
        rw [decision?] at h
        cases hdecide : Conditional.decide? otherwise clauses with
        | error c =>
          rw [hdecide] at h
          cases h
        | ok r =>
          rw [hdecide] at h
          exact congrArg Except.ok h
      exact ⟨loc, clauses, otherwise, rfl, Conditional.decide?_mem hdecide⟩
  | _ => cases h

/-- The tokens that take the place of a decided IF come from its arms. -/
theorem everywhere_of_decision? {p : Token → Bool} {t : Token} (h : t.everywhere p = true)
    {ts : List Token} (hts : t.decision? = some ts) : ∀ t' ∈ ts, t'.everywhere p = true := by
  obtain ⟨loc, clauses, otherwise, rfl, hfrom⟩ := decision?_cases hts
  obtain ⟨-, hclauses, hotherwise⟩ := everywhere_cond.1 h
  rcases hfrom with ⟨c, hc, rfl⟩ | rfl
  · exact hclauses c hc
  · cases otherwise with
    | none => exact fun t ht => absurd ht List.not_mem_nil
    | some body => exact hotherwise body rfl

/-- Only an IF that was made by assembling a block is decided. -/
theorem role_of_decision? {t : Token} {ts : List Token} (h : t.decision? = some ts) :
    t.role = .assembled := by
  obtain ⟨_, _, _, rfl, -⟩ := decision?_cases h
  rfl

/-- What is kept may be handled further. -/
theorem isReady_of_isKept {t : Token} (h : t.isKept = true) : t.isReady = true := by
  rw [isReady]
  split
  · rename_i ts hts
    refine List.all_eq_true.2 fun t' ht' => isKept_iff.2 fun _ => ?_
    exact everywhere_of_decision? (isKept_iff.1 h (role_of_decision? hts)) hts t' ht'
  · exact h

/-- Only dispatches are instructions or macro calls. -/
theorem exists_dispatch_of_role {t : Token} (h : t.role = .calling) : ∃ d, t = .dispatch d := by
  cases t with
  | dispatch d => exact ⟨d, rfl⟩
  | declare _ how _ => cases how <;> cases h
  | cond _ _ _ assembled => cases assembled <;> cases h
  | _ => cases h

/-- What is passed on up to the last step is encoded, apart from data and texts. -/
theorem isEncoded_of_plain {t : Token} (h : t.role = .plain)
    (hdata : ∀ loc kind values, t ≠ .data loc kind values)
    (hdisplay : ∀ loc kind text, t ≠ .display loc kind text) : t.isEncoded = true := by
  rw [isEncoded, everywhere_of_plain h]
  cases t with
  | data loc kind values => exact absurd rfl (hdata loc kind values)
  | display loc kind text => exact absurd rfl (hdisplay loc kind text)
  | immediate => cases h
  | branch => cases h
  | _ => rfl

end Token

namespace Encode

/-- A diagnostic is output that is encoded. -/
theorem isEncoded_of_isMessage {t : Token} (h : t.isMessage = true) :
    t.isOutput = true ∧ t.isEncoded = true := by
  cases t with
  | message d => exact ⟨rfl, rfl⟩
  | _ => cases h

/-- What is encoded of an instruction is output in which nothing is known. -/
theorem isEncoded_of_instruction {table : InstructionSet} {mnemonic : Text} {d : Dispatch}
    {ts : List Token} (h : instruction table mnemonic d = .ok ts) :
    ∀ t ∈ ts, t.isOutput = true ∧ t.isEncoded = true := by
  intro t ht
  rcases instruction_cases h ht with ⟨_, _, rfl⟩ | ⟨_, _, rfl⟩ | ⟨_, value, loc, size, signed, rfl, hnone, -, -⟩
  · exact ⟨rfl, rfl⟩
  · exact ⟨rfl, rfl⟩
  · refine ⟨rfl, ?_⟩
    rw [Token.isEncoded, Token.everywhere, Token.isEncodedHere, hnone]
    · rfl
    all_goals simp

/-- What is encoded of a data statement is output in which nothing is known. -/
theorem isEncoded_of_data {kind : DataKind} {values : List Expr} {ts : List Token}
    (h : data kind values = .ok ts) : ∀ t ∈ ts, t.isOutput = true ∧ t.isEncoded = true := by
  intro t ht
  rcases data_cases h ht with ⟨_, _, rfl⟩ | ⟨_, _, rfl⟩ | ⟨loc, group, rfl, hgroup⟩
  · exact ⟨rfl, rfl⟩
  · exact ⟨rfl, rfl⟩
  · refine ⟨rfl, ?_⟩
    rw [Token.isEncoded, Token.everywhere, Token.isEncodedHere]
    · refine List.all_eq_true.2 fun e he => ?_
      rw [(hgroup e he).2]
      rfl
    all_goals simp

end Encode

/-- A relative jump or call is left as it is, or becomes a jump to one of its operands that is encoded. -/
theorem Finish.relaxDispatch_cases (bankSwitched : Bool) (d : Dispatch) :
    (relaxDispatch bankSwitched d).1 = .dispatch d ∨
      ∃ b, (relaxDispatch bankSwitched d).1 = .branch b ∧ b.target ∈ d.operands ∧
        (Token.branch b).isEncoded = true := by
  rw [relaxDispatch.eq_def]
  split
  · dsimp only
    split
    · exact Or.inl rfl
    · split
      · exact Or.inl rfl
      · rename_i name _ _ _
        cases hbranch : branch? d name.upper with
        | none => exact Or.inl rfl
        | some b =>
          refine Or.inr ⟨b, rfl, ?_⟩
          -- the target is a name or a fragment
          obtain ⟨⟨isCall, long⟩, -, hbranch⟩ := Option.bind_eq_some_iff.1 hbranch
          obtain ⟨⟨condition, target⟩, htarget, hb⟩ := Option.bind_eq_some_iff.1 hbranch
          cases hb
          rw [jumpTarget?.eq_def] at htarget
          split at htarget <;> rename_i hoperands <;> cases htarget <;> rw [hoperands] <;> exact ⟨by simp, rfl⟩
  · exact Or.inl rfl

namespace Token

/-- A token on its way from the second stage of a block to its last steps: it is output, or an instruction or
a macro call, or a statement whose body is replayed. -/
def IsCarried (t : Token) : Prop :=
  t.isOutput = true ∨ t.role = .calling ∨ t.role = .replaying ∧ t.isStatement = true

/-- A statement that no earlier step carries out is on its way to the last steps. -/
theorem isCarried_of_isStatement {t : Token} (h : t.isStatement = true) (hsharing : t.role ≠ .sharing)
    (hbinding : t.role ≠ .binding) : t.IsCarried := by
  cases hrole : t.role with
  | sharing => exact absurd hrole hsharing
  | binding => exact absurd hrole hbinding
  | replaying => exact Or.inr (Or.inr ⟨hrole, h⟩)
  | calling => exact Or.inr (Or.inl hrole)
  | assembled => exact absurd hrole (role_of_isStatement h)
  | plain => exact Or.inl (isOutput_of_plain hrole)

/-- Evaluating a token keeps it on its way. -/
theorem IsCarried.rolesFrom {t t' : Token} (h : t.IsCarried) (hroles : t.RolesFrom t') : t'.IsCarried := by
  rcases h with h | h | ⟨hrole, h⟩
  · exact Or.inl (hroles.isOutput h)
  · exact Or.inr (Or.inl (hroles.1.trans h))
  · exact Or.inr (Or.inr ⟨hroles.1.trans hrole, hroles.isStatement h⟩)

/-- What is not output any more when bodies are replayed and macros are called. -/
theorem IsCarried.bodies {t : Token} (h : t.IsCarried) :
    ∀ body ∈ t.bodies, ∀ t' ∈ body, t'.isStatement = true := by
  intro body hbody
  rcases h with h | h | ⟨-, h⟩
  · -- output has no bodies that are still to be assembled
    cases t with
    | cond _ _ _ assembled =>
      cases assembled with
      | true => exact absurd hbody List.not_mem_nil
      | false => rcases role_of_isOutput h with hrole | hrole <;> cases hrole
    | dup => rcases role_of_isOutput h with hrole | hrole <;> cases hrole
    | macroDef => rcases role_of_isOutput h with hrole | hrole <;> cases hrole
    | _ => exact absurd hbody List.not_mem_nil
  · obtain ⟨d, rfl⟩ := exists_dispatch_of_role h
    exact absurd hbody List.not_mem_nil
  · exact everywhere_of_mem_bodies h hbody

theorem Reduces.rolesFrom {u : Surroundings} {t t' : Token} (h : t.Reduces u t') : t.RolesFrom t' := by
  obtain ⟨s, s', hexec⟩ := h
  exact gives_reduce t s t' (by rw [hexec])

end Token

/-- Evaluates a token again if it is marked, and ends the program if an operand, a jump or an IF of a nested
block is not encoded any more. -/
def Pass.reduceKept : Workbench → Pass := Pass.reduceChecked Token.isReady

namespace Grammar

/-- Programs of statements, and output in which data and texts are encoded. If nothing becomes known late, as
`kept` tells, then all of it is. -/
def encoding (kept : Bool) : Grammar :=
  ⟨fun t => t.isStatement = true, fun t => t.isOutput = true ∧ (t.role = .plain → t.isEncoded = true) ∧
    (kept = true → t.isKept = true), fun _ => True⟩

/-- An item on its way to the last steps of a block. -/
def Travels (kept : Bool) (item : Item) : Prop :=
  item.token.IsCarried ∧ (kept = true → item.token.isKept = true)

variable {kept : Bool}

theorem output_encoding {t : Token} (h : t.isOutput = true ∧ t.isEncoded = true) :
    (encoding kept).output t :=
  ⟨h.1, fun _ => h.2, fun _ => Token.isKept_iff.2 fun _ => h.2⟩

theorem travels_of_output {t : Token} (h : (encoding kept).output t) (pending : Bool) :
    Travels kept ⟨t, pending⟩ :=
  ⟨Or.inl h.1, h.2.2⟩

theorem reports_travels : Reports (Travels kept) := by
  rintro ⟨t, pending⟩ h
  exact travels_of_output (output_encoding (Encode.isEncoded_of_isMessage h)) pending

/-- An IF over output is output, and encoded if the output is. -/
theorem output_cond {loc : Location} {clauses : List Clause} {otherwise : Option (List Token)}
    (hclauses : ∀ c ∈ clauses, ∀ t ∈ c.body, (encoding kept).output t)
    (hotherwise : ∀ body ∈ otherwise, ∀ t ∈ body, (encoding kept).output t) :
    (encoding kept).output (.cond loc clauses otherwise true) := by
  refine ⟨?_, nofun, fun hkept => Token.isKept_iff.2 fun _ => ?_⟩
  · exact Token.everywhere_cond.2 ⟨rfl, fun c hc t ht => (hclauses c hc t ht).1,
      fun body hbody t ht => (hotherwise body hbody t ht).1⟩
  · have hencoded : ∀ t, (encoding kept).output t → t.isEncoded = true :=
      fun t ht => Token.isEncoded_of_isOutput ht.1 ht.2.1 (ht.2.2 hkept)
    exact Token.everywhere_cond.2 ⟨rfl, fun c hc t ht => hencoded t (hclauses c hc t ht),
      fun body hbody t ht => hencoded t (hotherwise body hbody t ht)⟩

/-- Items on their way to the last steps admit what handlings emit, also if no body is to be replayed any
more. -/
theorem admits_travels {P : Item → Prop} (hP : ∀ t pending, (encoding kept).output t → P ⟨t, pending⟩) :
    (encoding kept).Admits P where
  message := by
    rintro ⟨t, pending⟩ h
    exact hP t pending (output_encoding (Encode.isEncoded_of_isMessage h))
  fragment _ _ _ := hP _ _ (output_encoding ⟨rfl, rfl⟩)
  spliced t ht := hP t _ ht

/-- They admit an IF over output. -/
theorem admitsCond_travels {P : Item → Prop} (hP : ∀ t pending, (encoding kept).output t → P ⟨t, pending⟩)
    (loc : Location) : (encoding kept).AdmitsCond P loc :=
  fun _ _ hclauses hotherwise => hP _ _ (output_cond (fun c hc t ht => (hclauses c hc t ht).1)
    fun body hbody t ht => (hotherwise body hbody t ht).1)

/-- The second step of a block has seen to it that a token is a statement other than GLOBAL and EXTERN. -/
def Declared (item : Item) : Prop := item.token.isStatement = true ∧ item.token.role ≠ .sharing

/-- Diagnostics are statements. -/
theorem reports_declared : Reports Declared := by
  rintro ⟨t, pending⟩ h
  cases t with
  | message d => exact ⟨rfl, nofun⟩
  | _ => cases h

/-- An item that was evaluated again, if need be. -/
def Returns (kept : Bool) (item : Item) : Prop :=
  item.token.IsCarried ∧ (kept = true → item.token.isReady = true)

/-- An item on its way to the last steps, with nothing left to be expanded. -/
def Arrives (kept : Bool) (item : Item) : Prop :=
  Travels kept item ∧ item.token.role ≠ .replaying

/-- Output on its way to the last step. -/
def Leaves (kept : Bool) (item : Item) : Prop :=
  item.token.isOutput = true ∧ (kept = true → item.token.isKept = true)

/-- Output is no statement whose body is replayed. -/
theorem arrives_of_output {t : Token} (h : (encoding kept).output t) (pending : Bool) :
    Arrives kept ⟨t, pending⟩ := by
  refine ⟨travels_of_output h pending, ?_⟩
  rcases Token.role_of_isOutput h.1 with hrole | hrole <;> rw [hrole] <;> nofun

section Steps

variable {w : Workbench} {inMacro : Bool}

/-- The statements of a block that are carried out first leave the others. -/
theorem maps_declare : (Pass.ofToken (Declare.declareGlobals w)).Maps (encoding kept).Leads inMacro
    ((encoding kept).Knows fun item => (encoding kept).source item.token)
    ((encoding kept).Knows Declared) :=
  maps_declareGlobals reports_declared fun _ hitem hrole => ⟨hitem, hrole⟩

/-- Statements are evaluated. -/
theorem maps_evaluate : (Pass.reduceFirst w).Maps (encoding kept).Leads inMacro
    ((encoding kept).Knows Declared) ((encoding kept).Knows Declared) := by
  refine maps_reduceFirst reports_declared fun item t' pending hitem hreduces _ => ?_
  refine ⟨hreduces.rolesFrom.isStatement hitem.1, ?_⟩
  rw [hreduces.rolesFrom.1]
  exact hitem.2

/-- Statements that bind names are carried out. -/
theorem maps_bind (hw : (encoding kept).Equips w) : (Pass.localize w).Maps (encoding kept).Leads inMacro
    ((encoding kept).Knows Declared) ((encoding kept).Knows (Travels kept)) := by
  have houtput := fun t pending (ht : (encoding kept).output t) => travels_of_output ht pending
  refine maps_localize (admits_travels houtput) hw (fun loc _ _ _ _ => admitsCond_travels houtput loc)
    (fun item hitem body hbody => Token.everywhere_of_mem_bodies hitem.1 hbody)
    (fun _ _ _ _ _ _ _ _ _ _ => trivial) ?_ ?_
  · intro item hitem ts hts
    exact absurd (Token.role_of_decision? hts) (Token.role_of_isStatement hitem.1)
  · intro item hitem hbinding _
    refine ⟨Token.isCarried_of_isStatement hitem.1 hitem.2 hbinding, fun _ => Token.isKept_iff.2 ?_⟩
    exact fun hrole => absurd hrole (Token.role_of_isStatement hitem.1)

/-- What waits is evaluated again, and checked if that is asked for. -/
theorem maps_again : (Pass.reduceChecked (fun t => !kept || t.isReady) w).Maps (encoding kept).Leads
    inMacro ((encoding kept).Knows (Travels kept)) ((encoding kept).Knows (Returns kept)) := by
  refine maps_reduceChecked ?_ ?_ ?_
  · intro item hmessage
    have htravels : Travels kept item := reports_travels item hmessage
    exact ⟨htravels.1, fun hkept => Token.isReady_of_isKept (htravels.2 hkept)⟩
  · intro item t' hitem hreduces hcheck
    refine ⟨hitem.1.rolesFrom hreduces.rolesFrom, fun hkept => ?_⟩
    rwa [hkept, Bool.not_true, Bool.false_or] at hcheck
  · exact fun item hitem _ => ⟨hitem.1, fun hkept => Token.isReady_of_isKept (hitem.2 hkept)⟩

/-- Assembled IFs are decided, and what can be expanded by now is. -/
theorem maps_decide (hw : (encoding kept).Equips w) : (Pass.localize w).Maps (encoding kept).Leads
    inMacro ((encoding kept).Knows (Returns kept)) ((encoding kept).Knows (Travels kept)) := by
  have houtput := fun t pending (ht : (encoding kept).output t) => travels_of_output ht pending
  refine maps_localize (admits_travels houtput) hw (fun loc _ _ _ _ => admitsCond_travels houtput loc)
    (fun item hitem => hitem.1.bodies) (fun _ _ _ _ _ _ _ _ _ _ => trivial) ?_ ?_
  · intro item hitem ts hts t ht
    -- the IF is output, so what takes its place is
    have houtput : item.token.isOutput = true := by
      rcases hitem.1 with h | h | ⟨h, -⟩
      · exact h
      · exact absurd (h.symm.trans (Token.role_of_decision? hts)) nofun
      · exact absurd (h.symm.trans (Token.role_of_decision? hts)) nofun
    refine ⟨Or.inl (Token.everywhere_of_decision? houtput hts t ht), fun hkept => ?_⟩
    have hready := hitem.2 hkept
    rw [Token.isReady, hts] at hready
    exact List.all_eq_true.1 hready t ht
  · intro item hitem _ hnone
    refine ⟨hitem.1, fun hkept => ?_⟩
    have hready := hitem.2 hkept
    rwa [Token.isReady, hnone] at hready

/-- What is left is expanded, so that no body is to be replayed any more. -/
theorem maps_expand (hw : (encoding kept).Equips w) : (Pass.expandRest w).Maps (encoding kept).Leads
    inMacro ((encoding kept).Knows (Travels kept)) ((encoding kept).Knows (Arrives kept)) :=
  maps_expandRest (admits_travels fun _ pending ht => arrives_of_output ht pending) hw
    (fun _ hitem => hitem.1.bodies) fun _ hitem hrole => ⟨hitem, hrole⟩

/-- Jumps to labels are left to the linker. -/
theorem maps_jump : (Pass.ofToken Finish.relax).Maps (encoding kept).Leads inMacro
    ((encoding kept).Knows (Arrives kept)) ((encoding kept).Knows (Arrives kept)) := by
  refine maps_relax ?_ ?_ fun _ hitem _ => hitem
  · rintro ⟨t, pending⟩ hmessage
    exact arrives_of_output (output_encoding (Encode.isEncoded_of_isMessage hmessage)) pending
  · intro d pending hitem bankSwitched
    rcases Finish.relaxDispatch_cases bankSwitched d with heq | ⟨b, heq, -, hencoded⟩
    · rw [heq]
      exact hitem
    · rw [heq]
      exact arrives_of_output (output_encoding ⟨rfl, hencoded⟩) false

/-- Instructions are encoded. -/
theorem maps_instruct : (Pass.ofToken (Finish.encode w)).Maps (encoding kept).Leads inMacro
    ((encoding kept).Knows (Arrives kept)) ((encoding kept).Knows (Leaves kept)) := by
  have houtput : ∀ {t : Token} {pending : Bool}, (encoding kept).output t → Leaves kept ⟨t, pending⟩ :=
    fun h => ⟨h.1, h.2.2⟩
  refine maps_encode ?_ ?_ ?_
  · rintro ⟨_, pending⟩ hmessage
    exact houtput (output_encoding (Encode.isEncoded_of_isMessage hmessage))
  · intro d pending _ mnemonic ts hts t ht
    exact houtput (output_encoding (Encode.isEncoded_of_instruction hts t ht))
  · rintro item ⟨⟨hcarried, hkept⟩, hrole⟩ hdispatch
    rcases hcarried with h | h | ⟨h, -⟩
    · exact ⟨h, hkept⟩
    · obtain ⟨d, heq⟩ := Token.exists_dispatch_of_role h
      exact absurd heq (hdispatch d)
    · exact absurd h hrole

/-- Data are encoded, and texts are shown. -/
theorem maps_finish : (Pass.ofToken (Finish.complete w)).Maps (encoding kept).Leads inMacro
    ((encoding kept).Knows (Leaves kept))
    ((encoding kept).Knows fun item => (encoding kept).output item.token) := by
  refine maps_complete ?_ ?_ ?_ ?_
  · exact fun item hmessage => output_encoding (Encode.isEncoded_of_isMessage hmessage)
  · exact fun _ _ _ _ _ ts hts t ht => output_encoding (Encode.isEncoded_of_data hts t ht)
  · intro loc kind text _ _ htext
    have hhere : (Token.display loc kind text).isEncodedHere = true := by
      rw [Token.isEncodedHere, htext]
      rfl
    exact output_encoding ⟨rfl, hhere⟩
  · intro item hitem hdata hdisplay
    exact ⟨hitem.1, fun hplain => Token.isEncoded_of_plain hplain hdata hdisplay, hitem.2⟩

/-- Blocks of statements are assembled into output. -/
theorem assembles_encoding (hw : (encoding kept).Equips w) :
    (encoding kept).Assembles (Pass.reduceChecked fun t => !kept || t.isReady) w := by
  have hstable := (encoding kept).stable_knows
  refine ⟨Travels kept, ⟨Declared, .last maps_declare, ?_⟩, ?_⟩
  · exact .step maps_evaluate (hstable _) (.last (maps_bind hw))
  · refine .step maps_again (hstable _) (.step (maps_decide hw) (hstable _) ?_)
    refine .step (maps_expand hw) (hstable _) (.step maps_jump (hstable _) ?_)
    exact .step maps_instruct (hstable _) (.last maps_finish)

/-- They are if what becomes known late is not checked for. -/
theorem assembles_reduceAgain (hw : (encoding false).Equips w) :
    (encoding false).Assembles Pass.reduceAgain w := by
  have hassembles := assembles_encoding hw
  simp only [Bool.not_false, Bool.true_or] at hassembles
  rwa [Pass.reduceAgain_eq]

end Steps

end Grammar

namespace Assembler

variable {a : Assembler} {scope : Scope} {source : List Token}

/-- The blocks of a program are equipped for statements and output. -/
theorem Accepts.equips (h : a.Accepts scope source) (b : Block) (depth : Nat) :
    (Grammar.encoding false).Equips ⟨a, b, a.runner depth⟩ := by
  rw [runner_eq]
  exact Grammar.equips_block (fun _ ht => ht) (fun _ _ hw => Grammar.assembles_reduceAgain hw) h b depth

/-- What a program gives is output of the grammar, if what becomes known late is checked for as `kept`
tells. -/
theorem output_assembleWith (kept : Bool) (h : a.Accepts scope source) :
    ∀ t ∈ (a.assembleWith (Pass.reduceChecked fun t => !kept || t.isReady) scope source).tokens,
      (Grammar.encoding kept).output t :=
  (Grammar.leads_assembleWith (fun _ ht => ht)
    (fun _ ht => Grammar.output_encoding (Encode.isEncoded_of_isMessage ht))
    (fun _ _ hw => Grammar.assembles_encoding hw) h).2

/-- Everything that assembling a program gives is encoded, if the program is assembled in the same way where an operand,
a jump or an IF of a nested block must not become known after the block was finished. -/
theorem isEncoded_of_assembleWith (h : a.Accepts scope source)
    (hsame : (a.assembleWith Pass.reduceKept scope source).tokens = (a.assemble scope source).tokens) :
    ∀ t ∈ (a.assemble scope source).tokens, t.isEncoded = true := by
  have hkept : Pass.reduceKept = Pass.reduceChecked fun t => !true || t.isReady := by
    simp only [Pass.reduceKept, Bool.not_true, Bool.false_or]
  intro t ht
  rw [← hsame, hkept] at ht
  have houtput := output_assembleWith true h t ht
  exact Token.isEncoded_of_isOutput houtput.1 houtput.2.1 (houtput.2.2 rfl)

/-- What assembling a program gives is output in which every data and display statement is encoded. All of
it is encoded, in the bodies of IFs as well, if the program is assembled in the same way where an operand, a
jump or an IF of a nested block must not become known after the block was finished. -/
theorem assemble_encoded (h : a.Accepts scope source) :
    (∀ t ∈ (a.assemble scope source).tokens,
      t.isOutput = true ∧ (t.role = .plain → t.isEncoded = true)) ∧
    ((a.assembleWith Pass.reduceKept scope source).tokens = (a.assemble scope source).tokens →
      ∀ t ∈ (a.assemble scope source).tokens, t.isEncoded = true) := by
  have hany : Pass.reduceAgain = Pass.reduceChecked fun t => !false || t.isReady := by
    rw [Pass.reduceAgain_eq]
    simp only [Bool.not_false, Bool.true_or]
  refine ⟨fun t ht => ?_, isEncoded_of_assembleWith h⟩
  rw [assemble_eq, hany] at ht
  have houtput := output_assembleWith false h t ht
  exact ⟨houtput.1, houtput.2.1⟩

/-- An assembler without instructions and files. -/
def plainAssembler : Assembler := .bare 2

theorem accepts_initial (h : ∀ t ∈ source, t.isStatement = true) :
    plainAssembler.Accepts Scope.initial source :=
  ⟨h, nofun, List.nodup_singleton _, nofun, ⟨Frame.all_empty.insert _ nofun, nofun⟩⟩

/-- A name of the source. -/
def nameOf (name : Text) : Expr := .identifier Location.none name

/-- A macro M with a body, a call of it, and `X EQU 5` after it. -/
def lateBound (body : List Token) : List Token :=
  [.macroDef Location.none (nameOf "M") [] body, .dispatch ⟨Location.none, nameOf "M", []⟩,
    .assign Location.none .equate (nameOf "X") (.literal Location.none 5)]

/-- A program of this form is accepted. -/
theorem accepts_lateBound {body : List Token} (h : ∀ t ∈ body, t.isStatement = true) :
    plainAssembler.Accepts Scope.initial (lateBound body) := by
  refine accepts_initial (List.forall_mem_cons.2 ⟨Source.isStatement_macroDef h, ?_⟩)
  exact List.forall_mem_cons.2 ⟨rfl, List.forall_mem_singleton.2 rfl⟩

/-- The bytes that a list of tokens consists of, if it is one token of bytes. -/
def onlyBytes? : List Token → Option (Location × List UInt8)
  | [.bytes loc data] => some (loc, data)
  | _ => none

/-- A list that consists of bytes is one token. -/
theorem eq_of_onlyBytes? {ts : List Token} {loc : Location} {data : List UInt8}
    (h : onlyBytes? ts = some (loc, data)) : ts = [.bytes loc data] := by
  rw [onlyBytes?.eq_def] at h
  split at h
  · cases h
    rfl
  · cases h

/-- `DB X` in the macro waits for X, and is encoded by the program. -/
theorem assemble_encoded_lateData :
    plainAssembler.Accepts Scope.initial
        (lateBound [.data Location.none .bytes [nameOf "X"]]) ∧
      ∀ t ∈ (plainAssembler.assemble Scope.initial
        (lateBound [.data Location.none .bytes [nameOf "X"]])).tokens, t.isEncoded = true := by
  have haccepts : plainAssembler.Accepts Scope.initial
      (lateBound [.data Location.none .bytes [nameOf "X"]]) :=
    accepts_lateBound (List.forall_mem_singleton.2 rfl)
  have hbytes : onlyBytes? (plainAssembler.assemble Scope.initial
      (lateBound [.data Location.none .bytes [nameOf "X"]])).tokens = some (Location.none, [5]) := by
    decide +kernel
  have hkept : onlyBytes? (plainAssembler.assembleWith Pass.reduceKept Scope.initial
      (lateBound [.data Location.none .bytes [nameOf "X"]])).tokens = some (Location.none, [5]) := by
    decide +kernel
  refine ⟨haccepts, (assemble_encoded haccepts).2 ?_⟩
  rw [eq_of_onlyBytes? hbytes, eq_of_onlyBytes? hkept]

/-- `JRS X` in the macro is a jump to a name when the macro is done, and a jump to a number in the output. -/
theorem exists_not_isEncoded :
    plainAssembler.Accepts Scope.initial
        (lateBound [.dispatch ⟨Location.none, nameOf "JRS", [nameOf "X"]⟩]) ∧
      ¬ ∀ t ∈ (plainAssembler.assemble Scope.initial
        (lateBound [.dispatch ⟨Location.none, nameOf "JRS", [nameOf "X"]⟩])).tokens, t.isEncoded = true := by
  refine ⟨accepts_lateBound (List.forall_mem_singleton.2 rfl), fun hall => ?_⟩
  have hany : (plainAssembler.assemble Scope.initial
      (lateBound [.dispatch ⟨Location.none, nameOf "JRS", [nameOf "X"]⟩])).tokens.any
        (fun t => !t.isEncoded) = true := by
    decide +kernel
  obtain ⟨t, ht, hnot⟩ := List.any_eq_true.1 hany
  rw [hall t ht] at hnot
  cases hnot

end Assembler

end MacroAsm
