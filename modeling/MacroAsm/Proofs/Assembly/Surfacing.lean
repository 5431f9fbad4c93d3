import MacroAsm.Proofs.Assembly.Cutoff
import MacroAsm.Proofs.Assembly.Linkable
import MacroAsm.Proofs.Assembly.Posting
import MacroAsm.Proofs.Assembly.Program

/-!
# Diagnostics reach the top

Blocks nest, so what is said in a block is on its way through all the blocks around it. As every block keeps
account of what is said in it, and in those nested in it (`Assembler.accounts_runner`), so does the program. Here
the properties of programs are fixed on which this depends: no END and no EXITM cuts a block short
(`Assembler.Endless`), and no diagnostic hides in the arm of an IF (`Token.isQuiet`).

Main statement: `Assembler.assemble_reported`. If a fatal diagnostic is produced, at whatever depth, then the
program ends with one, and has no other. If none is, and there is no END or EXITM, every diagnostic comes out
exactly as often as it was produced.
-/

namespace MacroAsm

namespace Token

/-- Whether there is neither END nor EXITM in a token. -/
def isEndless (t : Token) : Bool := t.everywhere fun t => !(t.isStop || t.isExit)

/-- Whether a token is END or EXITM is one of its traits. -/
theorem isEndless_eq (t : Token) :
    t.isEndless = t.everywhere fun t => t.traits.isMessage || !t.traits.isTerminal := by
  have hsame : (fun t : Token => !(t.isStop || t.isExit)) = fun t => t.traits.isMessage || !t.traits.isTerminal := by
    funext t
    cases t with
    | message d => rfl
    | _ => rfl
  rw [isEndless, hsame]

end Token

namespace Grammar

variable {S S' : Token → Prop} {gone : Text → Prop}

/-- No step of a block makes END or EXITM. -/
theorem closed_endless : Closed (fun t => t.isEndless = true) fun _ => True := by
  simp only [Token.isEndless_eq]
  refine closed_everywhere (q := fun traits => traits.isMessage || !traits.isTerminal)
    (fun message terminal hterminal => ?_) (fun _ => rfl) fun _ _ => rfl
  cases terminal with
  | false => exact Bool.or_true _
  | true => rw [hterminal rfl, Bool.true_or]

/-- Two properties that no step of a block loses. -/
theorem Closed.and (h : Closed S gone) (h' : Closed S' gone) : Closed (fun t => S t ∧ S' t) gone where
  message t ht := ⟨h.message t ht, h'.message t ht⟩
  fragment loc id label := ⟨h.fragment loc id label, h'.fragment loc id label⟩
  cond loc clauses otherwise hif clauses' otherwise' hclauses hotherwise :=
    ⟨h.cond loc clauses otherwise hif.1 clauses' otherwise'
        (fun c hc t ht => ⟨(hclauses c hc t ht).1.1, (hclauses c hc t ht).2⟩)
        fun body hbody t ht => ⟨(hotherwise body hbody t ht).1.1, (hotherwise body hbody t ht).2⟩,
      h'.cond loc clauses otherwise hif.2 clauses' otherwise'
        (fun c hc t ht => ⟨(hclauses c hc t ht).1.2, (hclauses c hc t ht).2⟩)
        fun body hbody t ht => ⟨(hotherwise body hbody t ht).1.2, (hotherwise body hbody t ht).2⟩⟩
  reduces u t t' ht hreduces := ⟨h.reduces u t t' ht.1 hreduces, h'.reduces u t t' ht.2 hreduces⟩
  bodies t ht body hbody t' ht' := ⟨h.bodies t ht.1 body hbody t' ht', h'.bodies t ht.2 body hbody t' ht'⟩
  decision t ts ht hts t' ht' := ⟨h.decision t ts ht.1 hts t' ht', h'.decision t ts ht.2 hts t' ht'⟩
  removed u loc what names ht := h.removed u loc what names ht.1
  relaxed bankSwitched d ht := ⟨h.relaxed bankSwitched d ht.1, h'.relaxed bankSwitched d ht.2⟩
  instruction table mnemonic d ts hd hts t ht :=
    ⟨h.instruction table mnemonic d ts hd.1 hts t ht, h'.instruction table mnemonic d ts hd.2 hts t ht⟩
  data kind values ts hts t ht := ⟨h.data kind values ts hts t ht, h'.data kind values ts hts t ht⟩

/-- Where there is no END and no EXITM, and no diagnostic in the arm of an IF, no block is cut short. -/
theorem uncut_endless : Uncut fun t => t.isEndless = true ∧ t.isQuiet = true where
  terminal t ht hterminal := by
    have hhere := Token.of_everywhere ht.1
    cases t with
    | message d => rfl
    | stop loc => cases hhere
    | exitMacro loc => cases hhere
    | _ => cases hterminal
  decision t ts ht hts := by
    obtain ⟨loc, clauses, otherwise, rfl, hfrom⟩ := Token.decision?_cases hts
    obtain ⟨hclauses, hotherwise⟩ := Token.isMessage_of_isQuiet ht.2
    rcases hfrom with ⟨c, hc, rfl⟩ | rfl
    · exact hclauses c hc
    · cases otherwise with
      | none => exact fun t ht => absurd ht List.not_mem_nil
      | some body => exact hotherwise body rfl

end Grammar

namespace Assembler

variable {a : Assembler} {scope : Scope} {source : List Token}

section Nested

variable {whole : Prop} {S : Token → Prop} {gone : Text → Prop}

/-- Blocks that are nested to any depth keep account of diagnostics. -/
theorem accounts_runner (hS : Grammar.Closed S gone) (hwhole : whole → Grammar.Uncut S)
    (hincluder : ∀ find, a.includer = some find → ∀ loc path loader body,
      find loc path loader = .ok body → ∀ t ∈ body, S t) (b : Block) (depth : Nat) :
    Workbench.Accounts whole (Grammar.uniform S gone) ⟨a, b, a.runner depth⟩ (a.hear depth) := by
  refine ⟨a.finishes_runner depth, hS.equips hincluder b depth, ?_⟩
  induction depth generalizing b with
  | zero => exact nofun
  | succ depth ih =>
    intro run hrun b body s hbody hs
    rw [runner_succ, Option.some.injEq] at hrun
    subst hrun
    have hw : Workbench.Accounts whole (Grammar.uniform S gone) ⟨a, b, a.runner depth⟩ (a.hear depth) :=
      ⟨a.finishes_runner depth, hS.equips hincluder b depth, ih b⟩
    have hreports := Telling.reports_block hS hwhole hw hbody (s := { s with bankSwitched := false }) hs
    have hordered := Workbench.ordered_run ⟨a, b, a.runner depth⟩ body { s with bankSwitched := false }
    rw [Recorded.Reports, Telling.act_block] at hreports
    rcases hr : (Workbench.run ⟨a, b, a.runner depth⟩ body).run { s with bankSwitched := false } with ⟨t, s'⟩
    rw [hr] at hreports hordered
    rw [run_shield hr]
    rcases hreports with ⟨⟨-, before, i, hitems, d, hmessage, hd⟩, hproduced⟩ | ⟨hsafe, hcount⟩
    · refine Or.inl ⟨⟨before.map Item.token, d, ?_, hd, fun t ht => ?_⟩, fun hwhole hsafe => ?_⟩
      · rw [Trail.tokens, hitems, List.map_append, List.map_singleton, hmessage]
      · obtain ⟨i, hi, rfl⟩ := List.mem_map.1 ht
        refine hordered.before i ?_
        rwa [hitems, List.dropLast_concat]
      · obtain ⟨d, hd, hfatal⟩ := hproduced hwhole
        exact Bool.false_ne_true ((hsafe d hd).symm.trans hfatal)
    · refine Or.inr ⟨hsafe, fun hwhole => ⟨fun t ht => ?_, fun d => ?_⟩⟩
      · obtain ⟨i, hi, rfl⟩ := List.mem_map.1 ht
        exact hordered.isOpen (hcount hwhole).1 i hi
      · have hd := (hcount hwhole).2 d
        have hnone : (Item.diagnostics Trail.empty.items).count d = 0 := rfl
        rw [hnone, List.count_nil, Nat.zero_add] at hd
        exact hd

end Nested

/-- There is no END and no EXITM in a program, in the files that are found for it, or in the macros that it begins
with. -/
structure Endless (a : Assembler) (scope : Scope) (source : List Token) : Prop where
  /-- The program. -/
  source : ∀ t ∈ source, t.isEndless = true
  /-- Included files. -/
  includer : ∀ find, a.includer = some find → ∀ loc path loader body,
    find loc path loader = .ok body → ∀ t ∈ body, t.isEndless = true
  /-- The macros that are there already. -/
  macros : scope.Everywhere fun _ sym => ∀ m, sym.template = some m → ∀ t ∈ m.body, t.isEndless = true

/-- The diagnostics of the chronicle of a program: those of its block, and those of the account of its names. -/
theorem diagnostics_chronicle (a : Assembler) (scope : Scope) (source : List Token) :
    Event.diagnostics (a.chronicle scope source) =
      Event.diagnostics ((Telling.block (a.hear a.maxDepth) ⟨a, a.outermost, a.runner a.maxDepth⟩ source).log
        (start scope)) ++ Token.diagnostics (a.assemble scope source).closing := by
  rw [chronicle, ← List.singleton_append, Event.diagnostics_append, Event.diagnostics_append,
    Event.diagnostics_said]
  rfl

/-- The account of the names of a program is without fatal diagnostics. -/
theorem isFatal_of_mem_closing {d : Diagnostic} (hd : d ∈ Token.diagnostics (a.assemble scope source).closing) :
    d.isFatal = false := by
  rcases hr : (Workbench.run ⟨a, a.outermost, a.runner a.maxDepth⟩ source).run (start scope) with ⟨trail, s⟩
  have hmem := Token.mem_diagnostics.1 hd
  rw [assemble, hr] at hmem
  dsimp only at hmem
  split at hmem
  · exact absurd hmem List.not_mem_nil
  · exact (mem_account hmem).2

/-- A block that ends with a fatal diagnostic ends the program with it. -/
theorem assemble_of_ends {trail : Trail} {s : State}
    (hr : (Workbench.run ⟨a, a.outermost, a.runner a.maxDepth⟩ source).run (start scope) = (trail, s))
    (hends : Stage.Ends Diagnostic.IsFatal trail) :
    ∃ before d, (a.assemble scope source).tokens = before ++ [.message d] ∧ d.isFatal = true ∧
      (∀ t ∈ before, t.isFatal = false) ∧ (a.assemble scope source).closing = [] := by
  obtain ⟨-, before, i, hitems, d, hmessage, hfatal⟩ := hends
  have hordered := Workbench.ordered_run ⟨a, a.outermost, a.runner a.maxDepth⟩ source (start scope)
  rw [hr] at hordered
  have htokens : trail.tokens = before.map Item.token ++ [.message d] := by
    rw [Trail.tokens, hitems, List.map_append, List.map_singleton, hmessage]
  have hany : trail.tokens.any Token.isFatal = true :=
    List.any_eq_true.2 ⟨.message d, htokens ▸ List.mem_append_right _ (List.mem_singleton.2 rfl), hfatal⟩
  refine ⟨before.map Item.token, d, ?_, hfatal, fun t ht => ?_, ?_⟩
  · rw [tokens_assemble hr, if_pos hany, List.append_nil, htokens]
  · -- a fatal diagnostic would end the block
    obtain ⟨j, hj, rfl⟩ := List.mem_map.1 ht
    have hterminal : j.token.isTerminal false = false := by
      refine hordered.before j ?_
      rwa [hitems, List.dropLast_concat]
    cases htoken : j.token with
    | message d' =>
      rw [htoken] at hterminal
      exact hterminal
    | _ => rfl
  · rw [assemble, hr]
    dsimp only
    rw [if_pos hany]

/-- Diagnostics reach the top. If a fatal diagnostic is produced, by any step of a block that is nested to any
depth, then the program ends with one. It is the only fatal one and the last token, and no names are accounted
for after it. If no fatal one is produced, and there is no END or EXITM, then every diagnostic comes out exactly
as often as it was produced. -/
theorem assemble_reported (h : a.Accepts scope source) :
    ((∃ d ∈ Event.diagnostics (a.chronicle scope source), d.isFatal = true) →
      ∃ before d, (a.assemble scope source).tokens = before ++ [.message d] ∧ d.isFatal = true ∧
        (∀ t ∈ before, t.isFatal = false) ∧ (a.assemble scope source).closing = []) ∧
    (a.Endless scope source → (∀ d ∈ Event.diagnostics (a.chronicle scope source), d.isFatal = false) →
      ∀ d, (Token.diagnostics (a.assemble scope source).tokens).count d =
        (Event.diagnostics (a.chronicle scope source)).count d) := by
  rcases hr : (Workbench.run ⟨a, a.outermost, a.runner a.maxDepth⟩ source).run (start scope) with ⟨trail, s⟩
  rw [diagnostics_chronicle]
  refine ⟨fun ⟨d, hd, hfatal⟩ => ?_, fun hendless hmild d => ?_⟩
  · -- the tokens that the program is made of do not matter here
    have hw : Workbench.Accounts False Grammar.any ⟨a, a.outermost, a.runner a.maxDepth⟩ (a.hear a.maxDepth) :=
      accounts_runner Grammar.closed_any nofun (fun _ _ _ _ _ _ _ _ _ => trivial) a.outermost a.maxDepth
    have hreports : (Telling.block (a.hear a.maxDepth) ⟨a, a.outermost, a.runner a.maxDepth⟩ source).Reports False
        [] Trail.empty (start scope) :=
      Telling.reports_block Grammar.closed_any nofun hw (fun _ _ => trivial)
        (Grammar.sound_start (fun _ _ => trivial) h)
    rw [Recorded.Reports, Telling.act_block, hr] at hreports
    rcases hreports with ⟨hends, -⟩ | ⟨hsafe, -⟩
    · exact assemble_of_ends hr hends
    · rcases List.mem_append.1 hd with hd | hd
      · exact absurd ((hsafe d hd).symm.trans hfatal) Bool.false_ne_true
      · exact absurd ((isFatal_of_mem_closing hd).symm.trans hfatal) Bool.false_ne_true
  · have hS := Grammar.closed_endless.and Grammar.closed_quiet
    have hw : Workbench.Accounts True (Grammar.uniform (fun t => t.isEndless = true ∧ t.isQuiet = true) fun _ => True)
        ⟨a, a.outermost, a.runner a.maxDepth⟩ (a.hear a.maxDepth) :=
      accounts_runner hS (fun _ => Grammar.uncut_endless) (fun find hfind loc path loader body hbody t ht =>
        ⟨hendless.includer find hfind loc path loader body hbody t ht,
          Token.isQuiet_of_isStatement (h.includer find hfind loc path loader body hbody t ht)⟩)
        a.outermost a.maxDepth
    have hsound : (Grammar.uniform (fun t => t.isEndless = true ∧ t.isQuiet = true) fun _ => True).Sound
        (start scope).scope := Grammar.sound_of_macros h
      ⟨fun entry hentry m hm t ht => ⟨hendless.macros.root entry hentry m hm t ht,
          Token.isQuiet_of_isStatement (h.macros.root entry hentry m hm t ht)⟩,
        fun f hf entry hentry m hm t ht => ⟨hendless.macros.inner f hf entry hentry m hm t ht,
          Token.isQuiet_of_isStatement (h.macros.inner f hf entry hentry m hm t ht)⟩⟩
    have hreports := Telling.reports_block hS (fun _ => Grammar.uncut_endless) hw
      (fun t ht => ⟨hendless.source t ht, Token.isQuiet_of_isStatement (h.source t ht)⟩) hsound
    have htokens : (a.assemble scope source).tokens = trail.tokens ++ (a.assemble scope source).closing := by
      rw [← Trail.tokens_eq_flatMap, Assembly.tokens, assemble, hr]
    rw [Recorded.Reports, Telling.act_block, hr] at hreports
    rcases hreports with ⟨-, hproduced⟩ | ⟨-, hcount⟩
    · obtain ⟨d', hd', hfatal⟩ := hproduced trivial
      exact absurd ((hmild d' (List.mem_append_left _ hd')).symm.trans hfatal) Bool.false_ne_true
    · have hd := (hcount trivial).2 d
      have hnone : (Item.diagnostics Trail.empty.items).count d = 0 := rfl
      rw [hnone, List.count_nil, Nat.zero_add] at hd
      rw [htokens, Token.diagnostics_append, List.count_append, List.count_append, ← hd]
      rfl

/-- A macro whose body is an IF that only the linker can decide, and two calls of it. -/
def undecidedTwice (body : List Token) : List Token :=
  [.macroDef Location.none (nameOf "M") [] [.cond Location.none [.mk (nameOf "X") body] none false],
    .dispatch ⟨Location.none, nameOf "M", []⟩, .dispatch ⟨Location.none, nameOf "M", []⟩]

/-- A warning is shown in the arm. -/
def warningTwice : List Token :=
  undecidedTwice [.display Location.none .warning [.quoted Location.none "W"]]

/-- A file is included in the arm, where there is no loader. -/
def inclusionTwice : List Token :=
  undecidedTwice [.inclusion Location.none (.quoted Location.none "F") none]

/-- The first inclusion ends the program. Both warnings come out of it, and that X is never defined. -/
theorem assemble_reported_undecidedTwice :
    (plainAssembler.Accepts Scope.initial inclusionTwice ∧
      (∃ d ∈ Event.diagnostics (plainAssembler.chronicle Scope.initial inclusionTwice), d.isFatal = true) ∧
      ∃ before d, (plainAssembler.assemble Scope.initial inclusionTwice).tokens = before ++ [.message d] ∧
        d.isFatal = true ∧ (∀ t ∈ before, t.isFatal = false) ∧
        (plainAssembler.assemble Scope.initial inclusionTwice).closing = []) ∧
    plainAssembler.Accepts Scope.initial warningTwice ∧ plainAssembler.Endless Scope.initial warningTwice ∧
      (∀ d ∈ Event.diagnostics (plainAssembler.chronicle Scope.initial warningTwice), d.isFatal = false) ∧
      ∀ d, (Token.diagnostics (plainAssembler.assemble Scope.initial warningTwice).tokens).count d =
        (Event.diagnostics (plainAssembler.chronicle Scope.initial warningTwice)).count d := by
  have hinclusion : plainAssembler.Accepts Scope.initial inclusionTwice := accepts_initial (by decide)
  have hwarning : plainAssembler.Accepts Scope.initial warningTwice := accepts_initial (by decide)
  have hendless : plainAssembler.Endless Scope.initial warningTwice :=
    ⟨by decide, nofun, ⟨Frame.all_empty.insert _ nofun, nofun⟩⟩
  have hfatal : ∃ d ∈ Event.diagnostics (plainAssembler.chronicle Scope.initial inclusionTwice),
      d.isFatal = true := List.any_eq_true.1 (by decide +kernel)
  have hmild : ∀ d ∈ Event.diagnostics (plainAssembler.chronicle Scope.initial warningTwice),
      d.isFatal = false := by
    decide +kernel
  exact ⟨⟨hinclusion, hfatal, (assemble_reported hinclusion).1 hfatal⟩, hwarning, hendless, hmild,
    (assemble_reported hwarning).2 hendless hmild⟩

/-- The two warnings, and the account of X. -/
example : (Token.diagnostics (plainAssembler.assemble Scope.initial warningTwice).tokens).map
    Diagnostic.level = [.warn, .warn, .fail] := by
  decide +kernel

end Assembler

end MacroAsm
