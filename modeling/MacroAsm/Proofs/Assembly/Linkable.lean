import MacroAsm.Proofs.Assembly.Ordering

/-!
# What is left to the linker

A linker takes the places of labels, bytes, data and texts that are not known yet, operands, jumps, space,
alignment, dependencies, END, and the IFs that only it can decide, over assembled arms (`Token.isLinkable`).
Diagnostics are among what a program gives as well, but not within an arm: they are taken out of it when it is
assembled, and evaluating the IF again brings none back (`Token.isQuiet`, `Grammar.closed_quiet`). The EXITM
that ends a macro call is left in an arm, and nowhere else: outside of a macro the last step reports it
(`Workbench.isExit_of_mem_run`).

Main statement: `Assembler.assemble_delivered`. Nothing but diagnostics and what a linker takes comes out of a
program, whether it is interrupted or not.
-/

namespace MacroAsm

namespace Token

/-- Whether a token is EXITM. -/
def isExit : Token → Bool
  | .exitMacro _ => true
  | _ => false

/-- Whether a token is of a kind that stands in the arms of an IF that is left to the linker. -/
def isLinkerKind : Token → Bool
  | .fragment .. | .align .. | .allocate .. | .display .. | .data .. | .stop _ | .exitMacro _ | .bytes ..
  | .immediate .. | .branch _ | .dependency .. => true
  | .cond _ _ _ assembled => assembled
  | _ => false

/-- Whether a token is of such a kind, and everything in its arms is. -/
def isLinkable (t : Token) : Bool := t.everywhere isLinkerKind

/-- Whether a token may come out of a program: it is a diagnostic, or something else than EXITM that a linker
takes. -/
def isDelivered : Token → Bool
  | .message _ => true
  | .exitMacro _ => false
  | t => t.isLinkable

/-- Whether no assembled IF in a token has a diagnostic in its arms. -/
def isQuiet (t : Token) : Bool :=
  t.everywhere fun t => t.traits.role != .assembled || !t.traits.isLoud

/-- The arms of an IF without diagnostics in them. -/
theorem isLoud_eq_false_iff {loc : Location} {clauses : List Clause} {otherwise : Option (List Token)}
    {assembled : Bool} : (Token.cond loc clauses otherwise assembled).isLoud = false ↔
      (∀ c ∈ clauses, ∀ t ∈ c.body, t.isMessage = false) ∧
        ∀ body ∈ otherwise, ∀ t ∈ body, t.isMessage = false := by
  rw [isLoud, Bool.or_eq_false_iff, clausesLoud, optionLoud, List.any_eq_false]
  cases otherwise <;> simp

theorem isQuiet_of_isStatement {t : Token} (h : t.isStatement = true) : t.isQuiet = true :=
  everywhere_imp (fun t ht => by rw [traits, ht, Bool.true_or]) t h

/-- The arms of an assembled IF that is quiet are without diagnostics. -/
theorem isMessage_of_isQuiet {loc : Location} {clauses : List Clause} {otherwise : Option (List Token)}
    (h : (Token.cond loc clauses otherwise true).isQuiet = true) :
    (∀ c ∈ clauses, ∀ t ∈ c.body, t.isMessage = false) ∧
      ∀ body ∈ otherwise, ∀ t ∈ body, t.isMessage = false := by
  have hhere := of_everywhere h
  rw [Bool.or_eq_true, Bool.not_eq_true'] at hhere
  have hloud : (Token.cond loc clauses otherwise true).isLoud = false := hhere.resolve_left Bool.false_ne_true
  exact isLoud_eq_false_iff.1 hloud

/-- No diagnostic is in an arm of an assembled IF that is quiet. -/
theorem isMessage_of_mem_nested {t : Token} (houtput : t.isOutput = true) (hquiet : t.isQuiet = true)
    {body : List Token} (hbody : body ∈ t.nested) : ∀ t' ∈ body, t'.isMessage = false := by
  have hrole := role_of_isOutput houtput
  cases t with
  | cond loc clauses otherwise assembled =>
    cases assembled with
    | false => rcases hrole with h | h <;> cases h
    | true =>
      obtain ⟨hclauses, hotherwise⟩ := isMessage_of_isQuiet hquiet
      rcases List.mem_append.1 hbody with hbody | hbody
      · obtain ⟨c, hc, rfl⟩ := List.mem_map.1 hbody
        exact hclauses c hc
      · exact hotherwise body (Option.mem_toList.1 hbody)
  | dup => rcases hrole with h | h <;> cases h
  | macroDef => rcases hrole with h | h <;> cases h
  | _ => exact absurd hbody List.not_mem_nil

/-- What was assembled is left to the linker, apart from diagnostics, if they are not in the arms of IFs. -/
theorem isLinkable_of_isOutput (t : Token) (houtput : t.isOutput = true) (hquiet : t.isQuiet = true)
    (hmessage : t.isMessage = false) : t.isLinkable = true := by
  induction t using nested_induction with
  | h t ih =>
    refine everywhere_iff.2 ⟨?_, fun body hbody t' ht' => ?_⟩
    · have hrole := role_of_isOutput houtput
      cases t with
      | message => cases hmessage
      | fragment | align | allocate | display | data | stop | exitMacro | bytes | immediate | branch
      | dependency => rfl
      | declare _ how _ => cases how <;> rcases hrole with h | h <;> cases h
      | cond _ _ _ assembled =>
        cases assembled with
        | true => rfl
        | false => rcases hrole with h | h <;> cases h
      | _ => rcases hrole with h | h <;> cases h
    · exact ih body hbody t' ht' ((everywhere_iff.1 houtput).2 body hbody t' ht')
        ((everywhere_iff.1 hquiet).2 body hbody t' ht') (isMessage_of_mem_nested houtput hquiet hbody t' ht')

end Token

namespace Grammar

/-- No step of a block loses a property of traits, wherever it holds in the bodies of statements, if what is passed on
up to the last step has it, what an instruction with it becomes, and an assembled IF that comes from an IF with it. -/
theorem closed_everywhere {q : Token.Traits → Bool}
    (hplain : ∀ message terminal, (terminal = true → message = true) →
      q ⟨.plain, message, terminal, false, false, false⟩ = true)
    (hcalling : q ⟨.calling, false, false, false, false, false⟩ = true →
      q ⟨.assembled, false, false, false, false, false⟩ = true)
    (hcond : ∀ loud, q ⟨.binding, false, false, loud, true, false⟩ = true →
      q ⟨.assembled, false, false, false, true, false⟩ = true) :
    Closed (fun t => t.everywhere (fun t => q t.traits) = true) fun _ => True where
  message t ht := by
    cases t with
    | message d => exact hplain true d.isFatal fun _ => rfl
    | _ => cases ht
  fragment _ _ _ := hplain false false nofun
  cond loc clauses otherwise hif clauses' otherwise' hclauses hotherwise := by
    refine Token.everywhere_cond.2 ⟨?_, fun c hc t ht => (hclauses c hc t ht).1,
      fun body hbody t ht => (hotherwise body hbody t ht).1⟩
    have hloud : (Token.cond loc clauses' otherwise' true).isLoud = false := Token.isLoud_eq_false_iff.2
      ⟨fun c hc t ht => (hclauses c hc t ht).2, fun body hbody t ht => (hotherwise body hbody t ht).2⟩
    rw [Token.traits, hloud]
    exact hcond _ (Token.everywhere_cond.1 hif).1
  reduces _ _ _ ht hreduces := hreduces.rolesFrom.2.2 q ht
  bodies _ ht _ hbody := Token.everywhere_of_mem_bodies ht hbody
  decision _ _ ht hts := Token.everywhere_of_decision? ht hts
  removed _ _ _ _ _ _ _ _ _ _ := trivial
  relaxed bankSwitched d h := by
    rcases Finish.relaxDispatch_cases bankSwitched d with heq | ⟨b, heq, -⟩
    · rwa [heq]
    · rw [heq]
      exact hcalling h
  instruction _ _ _ _ hd hts t ht := by
    rcases Encode.instruction_cases hts ht with ⟨_, _, rfl⟩ | ⟨_, _, rfl⟩ | ⟨_, _, _, _, _, rfl, -⟩
    · exact hplain true false nofun
    · exact hplain false false nofun
    · exact hcalling hd
  data _ _ _ hts t ht := by
    rcases Encode.data_cases hts ht with ⟨_, _, rfl⟩ | ⟨_, _, rfl⟩ | ⟨_, _, rfl, -⟩
    · exact hplain true false nofun
    · exact hplain false false nofun
    · exact hplain false false nofun

/-- No step of a block brings a diagnostic into the arms of an IF. -/
theorem closed_quiet : Closed (fun t => t.isQuiet = true) fun _ => True :=
  closed_everywhere (q := fun traits => traits.role != .assembled || !traits.isLoud)
    (fun _ _ _ => rfl) (fun _ => rfl) fun _ _ => rfl

end Grammar

section Exit

variable {w : Workbench}

/-- Outside of a macro the last step emits no EXITM. -/
theorem Pass.maps_complete_outside (hw : w.block.inMacro = false) :
    (Pass.ofToken (Finish.complete w)).Maps (fun _ _ => True) w.block.inMacro (fun _ _ => True)
      fun _ item => item.token.isExit = false := by
  have hR : Progress fun _ _ : State => True := ⟨fun _ => trivial, fun _ _ _ _ _ => trivial⟩
  have hQ : Stable (fun _ _ => True) fun _ item => item.token.isExit = false := fun _ _ _ _ h => h
  have hinv := Emission.invariant_collects hR hQ
  have hmessage : ∀ t : Token, t.isMessage = true → t.isExit = false := by
    intro t ht
    cases t with
    | message d => rfl
    | _ => cases ht
  refine maps_of_collects hR hQ (fun _ item h => hmessage item.token h) fun item p _ hp => ?_
  obtain ⟨token, pending⟩ := item
  cases token with
  | exitMacro loc =>
    rw [Pass.ofToken, Finish.complete, hw, if_neg Bool.false_ne_true]
    exact .report hinv hp _
  | data loc kind values =>
    rw [Pass.ofToken, Finish.complete]
    cases hr : Encode.data kind values with
    | error d => exact .report hinv hp d
    | ok ts =>
      refine hp.emitAll hinv fun t ht => ?_
      rcases Encode.data_cases hr ht with ⟨_, _, rfl⟩ | ⟨_, _, rfl⟩ | ⟨_, _, rfl, -⟩ <;> rfl
  | display loc kind text =>
    rw [Pass.ofToken, Finish.complete]
    split
    · refine (Emission.Yields.require hinv hp fun _ _ => trivial).bind (Q := fun _ _ => True) hinv
        fun shown q _ hq _ => ?_
      exact hq.emitItem hinv rfl
    · exact hp.emitItem hinv rfl
  | _ => exact hp.emitItem hinv rfl

/-- Whatever the last step of a stage emits is all that the stage gives. -/
theorem Stage.chain_of_last {inMacro : Bool} {last : Pass} {Q : State → Item → Prop}
    (hlast : last.Maps (fun _ _ => True) inMacro (fun _ _ => True) Q) (passes : List Pass) :
    Stage.Chain (fun _ _ => True) inMacro (fun _ _ => True) passes last Q := by
  induction passes with
  | nil => exact .last hlast
  | cons p passes ih =>
    exact .step (fun _ _ _ => ⟨trivial, fun _ _ => trivial⟩) (fun _ _ _ _ _ => trivial) ih

/-- Outside of a macro a block leaves no EXITM. -/
theorem Workbench.isExit_of_mem_run (hw : w.block.inMacro = false) (source : List Token) (s : State) :
    ∀ t ∈ ((w.run source).run s).1.tokens, t.isExit = false := by
  intro t ht
  rw [run, StateM.run_bind, StateM.run_bind] at ht
  obtain ⟨i, hi, rfl⟩ := List.mem_map.1 ht
  have hR : Progress fun _ _ : State => True := ⟨fun _ => trivial, fun _ _ _ _ _ => trivial⟩
  exact (Stage.run_maps hR (fun _ _ _ _ h => h) (fun _ _ _ _ h => h)
    (Stage.chain_of_last (Pass.maps_complete_outside hw) _) fun _ _ => trivial).2 i hi

end Exit

namespace Assembly

/-- What is delivered of batches up to an interruption is in them. -/
theorem mem_deliverFrom {n : Nat} {bs : List Batch} {delivered : Nat} {s : State} {t : Token}
    (h : t ∈ (deliverFrom n bs delivered s).1) : t ∈ bs.flatMap Batch.tokens := by
  induction bs generalizing delivered s with
  | nil => exact h
  | cons b rest ih =>
    rw [List.flatMap_cons, List.mem_append]
    rw [deliverFrom] at h
    split at h
    · exact absurd h List.not_mem_nil
    · split at h
      · exact Or.inl h
      · exact (List.mem_append.1 h).imp id ih

/-- What is delivered of a program up to an interruption is part of its output. -/
theorem mem_tokens_of_mem_interrupt {x : Assembly} {n : Nat} {t : Token} (h : t ∈ (x.interrupt n).tokens) :
    t ∈ x.tokens := by
  have hdelivered : ∀ t ∈ (deliverFrom n x.batches 0 x.start).1, t ∈ x.batches.flatMap Batch.tokens :=
    fun t ht => mem_deliverFrom ht
  rw [interrupt] at h
  rw [tokens, List.mem_append]
  split at h
  · rename_i ts s hfrom
    rw [hfrom] at hdelivered
    exact Or.inl (hdelivered t h)
  · rename_i ts hfrom
    rw [hfrom] at hdelivered
    exact (List.mem_append.1 h).imp (hdelivered t) id

end Assembly

namespace Assembler

variable {a : Assembler} {scope : Scope} {source : List Token}

/-- No diagnostic is in an arm of an IF that a program gives. -/
theorem isQuiet_of_mem_assemble (h : a.Accepts scope source) :
    ∀ t ∈ (a.assemble scope source).tokens, t.isQuiet = true := by
  rw [assemble_eq]
  exact (Grammar.leads_assembleWith (fun _ => Token.isQuiet_of_isStatement) Grammar.closed_quiet.message
    (fun w _ hw => Grammar.closed_quiet.assembles hw) h).2

/-- What a program gives was assembled. -/
theorem isOutput_of_mem_assemble (h : a.Accepts scope source) :
    ∀ t ∈ (a.assemble scope source).tokens, t.isOutput = true := by
  rw [assemble_eq]
  exact fun t ht => ((Grammar.leads_assembleWith (fun _ ht => ht)
    (fun _ ht => Grammar.output_encoding (Encode.isEncoded_of_isMessage ht))
    (fun _ _ hw => Grammar.assembles_reduceAgain hw) h).2 t ht).1

/-- A program gives no EXITM. -/
theorem isExit_of_mem_assemble (a : Assembler) (scope : Scope) (source : List Token) :
    ∀ t ∈ (a.assemble scope source).tokens, t.isExit = false := by
  intro t ht
  rcases hr : (Workbench.run ⟨a, a.outermost, a.runner a.maxDepth⟩ source).run (Assembler.start scope) with
    ⟨trail, s⟩
  have hexit := Workbench.isExit_of_mem_run (w := ⟨a, a.outermost, a.runner a.maxDepth⟩) rfl source
    (Assembler.start scope)
  rw [hr] at hexit
  rw [tokens_assemble hr] at ht
  rcases List.mem_append.1 ht with ht | ht
  · exact hexit t ht
  · split at ht
    · exact absurd ht List.not_mem_nil
    · have hmessage := (Scope.mem_accountFor ht).1
      cases t with
      | message d => rfl
      | _ => cases hmessage

/-- Nothing comes out of a program but diagnostics and what a linker takes, and nothing else is in the arms of
the IFs that are left to it, apart from EXITM. -/
theorem assemble_delivered (h : a.Accepts scope source) :
    (∀ t ∈ (a.assemble scope source).tokens, t.isDelivered = true) ∧
      ∀ n, ∀ t ∈ ((a.assemble scope source).interrupt n).tokens, t.isDelivered = true := by
  have hall : ∀ t ∈ (a.assemble scope source).tokens, t.isDelivered = true := by
    intro t ht
    have houtput := isOutput_of_mem_assemble h t ht
    have hquiet := isQuiet_of_mem_assemble h t ht
    have hexit := isExit_of_mem_assemble a scope source t ht
    cases t with
    | message d => rfl
    | exitMacro loc => cases hexit
    | _ => exact Token.isLinkable_of_isOutput _ houtput hquiet rfl
  exact ⟨hall, fun n t ht => hall t (Assembly.mem_tokens_of_mem_interrupt ht)⟩

/-- A macro with an IF that only the linker can decide, in whose arm a warning is shown before EXITM. -/
def warningArm : List Token :=
  [.macroDef Location.none (nameOf "M") []
    [.cond Location.none [.mk (nameOf "X")
      [.display Location.none .warning [.quoted Location.none "W"],
        .data Location.none .bytes [.literal Location.none 1], .exitMacro Location.none]] none false],
    .dispatch ⟨Location.none, nameOf "M", []⟩]

/-- The warning is a diagnostic of the program, and the IF is left to the linker. -/
theorem assemble_delivered_warningArm :
    plainAssembler.Accepts Scope.initial warningArm ∧
      (∀ t ∈ (plainAssembler.assemble Scope.initial warningArm).tokens, t.isDelivered = true) ∧
      ∀ n, ∀ t ∈ ((plainAssembler.assemble Scope.initial warningArm).interrupt n).tokens,
        t.isDelivered = true := by
  have haccepts : plainAssembler.Accepts Scope.initial warningArm := accepts_initial (by decide)
  exact ⟨haccepts, assemble_delivered haccepts⟩

/-- The arm of the IF is left with bytes and EXITM. -/
example : ((plainAssembler.assemble Scope.initial warningArm).tokens.any fun t => match t with
    | .cond _ [.mk _ [.bytes _ _, .exitMacro _]] none true => true
    | _ => false) = true := by
  decide +kernel

end Assembler

end MacroAsm
