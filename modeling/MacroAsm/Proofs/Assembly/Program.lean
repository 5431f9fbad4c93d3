import MacroAsm.Define
import MacroAsm.Proofs.Assembly.Reachable
import MacroAsm.Proofs.Source.Statement

/-!
# Assembling programs

A program that is assembled is made of statements, and so are the files it includes and the macros it is
given (`Assembler.Accepts`). Programs and files that are read are (`Assembler.accepts_of_parse`). Assembling
such a program makes the scope evolve, and what it gives is output of the grammar in which its blocks are
assembled (`Grammar.leads_assembleWith`).

As for blocks, how items are evaluated again is a parameter here (`Assembler.assembleWith`).
-/

namespace MacroAsm

/-- A scope of nothing but a root frame, which binds each name once. Only what the linker resolves has no
value in it. -/
structure Scope.IsRoot (s : Scope) : Prop where
  /-- No unit is open. -/
  inner : s.inner = []
  /-- Each name is bound once. -/
  nodup : s.root.names.Nodup
  /-- What has no value is global. -/
  shared : s.root.All fun sym => sym.isSet = true ∨ sym.global = true

namespace Define

/-- What is kept while definitions are entered: a root scope without macros. -/
def Holds (s : Scope) : Prop := s.IsRoot ∧ s.root.All fun sym => sym.template = none

/-- A definition is entered in a root scope. -/
theorem holds_enter {s s' : Scope} {d : Define} (hs : Holds s) (h : enter s d = .ok s') : Holds s' := by
  obtain ⟨⟨hinner, hnodup, hshared⟩, hplain⟩ := hs
  -- the name is in the root frame once it was declared
  have hdeclared : ∀ {t : Scope}, s.declareGlobal d.name = .ok t →
      t.inner = [] ∧ t.root.names.Nodup ∧ (t.root.All fun sym => sym.isSet = true ∨ sym.global = true) ∧
        t.root.All fun sym => sym.template = none := by
    intro t ht
    rw [Scope.declareGlobal, hinner] at ht
    split at ht
    · cases ht
      split
      · exact ⟨hinner, hnodup, hshared, hplain⟩
      · refine ⟨rfl, Frame.nodup_modify hnodup _ _, hshared.modify fun _ _ _ => Or.inr rfl, ?_⟩
        exact hplain.modify fun _ _ hsym => hsym
    · cases ht
      exact ⟨rfl, Frame.nodup_insert hnodup _ _, hshared.insert _ (Or.inr rfl), hplain.insert _ rfl⟩
  obtain ⟨t, ht, heq⟩ := Except.bind_eq_ok_iff.1 h
  obtain ⟨hinner', hnodup', hshared', hplain'⟩ := hdeclared ht
  cases heq
  refine ⟨⟨hinner', Frame.nodup_modify hnodup' _ _, ?_⟩, hplain'.modify fun _ _ hsym => hsym⟩
  exact hshared'.modify fun _ _ _ => Or.inl rfl

/-- The root scope of definitions. -/
theorem holds_rootScope {defines : List Define} {scope : Scope} (h : rootScope defines = .ok scope) :
    Holds scope := by
  have hfold : ∀ {s : Scope}, Holds s → defines.foldlM enter s = .ok scope → Holds scope := by
    clear h
    induction defines with
    | nil =>
      intro s hs h
      cases h
      exact hs
    | cons d rest ih =>
      intro s hs h
      rw [List.foldlM_cons] at h
      obtain ⟨s', hs', hrest⟩ := Except.bind_eq_ok_iff.1 h
      exact ih (holds_enter hs hs') hrest
  refine hfold ⟨⟨rfl, ?_, ?_⟩, ?_⟩ h
  · exact List.nodup_singleton _
  · exact Frame.all_empty.insert _ (Or.inl rfl)
  · exact Frame.all_empty.insert _ rfl

end Define

namespace Assembler

theorem isRoot_initial : Scope.initial.IsRoot :=
  ⟨rfl, List.nodup_singleton _, Frame.all_empty.insert _ (Or.inl rfl)⟩

/-- What a program is assembled from: it is made of statements, and so are included files and the macros of
the root scope, in which each name is bound once. -/
structure Accepts (a : Assembler) (scope : Scope) (source : List Token) : Prop where
  /-- The program. -/
  source : ∀ t ∈ source, t.isStatement = true
  /-- Included files. -/
  includer : ∀ find, a.includer = some find → ∀ loc path loader body,
    find loc path loader = .ok body → ∀ t ∈ body, t.isStatement = true
  /-- The root frame binds each name once. -/
  root : scope.root.names.Nodup
  /-- Definitions and internal state are in the root frame. -/
  inner : ∀ f ∈ scope.inner, f.IsInner
  /-- The macros that are there already. -/
  macros : scope.Everywhere fun _ sym => ∀ m, sym.template = some m → ∀ t ∈ m.body, t.isStatement = true

/-- A program that is read, over the root scope of definitions, is made of statements, and so are the files
that are found for it. -/
theorem accepts_of_parse {a : Assembler} {origin : Location} {text : Text} {source : List Token}
    {defines : List Define} {scope : Scope} (hsource : Source.parseProgram origin text = .ok source)
    (hscope : Define.rootScope defines = .ok scope)
    (hincluder : ∀ find, a.includer = some find → ∃ files directories,
      find = Files.includer files directories) : a.Accepts scope source := by
  obtain ⟨hroot, hplain⟩ := Define.holds_rootScope hscope
  refine ⟨Source.gives_parseProgram origin text source hsource, ?_, hroot.nodup, ?_, ⟨?_, ?_⟩⟩
  · intro find hfind loc path loader body hbody
    obtain ⟨files, directories, rfl⟩ := hincluder find hfind
    exact Files.isStatement_of_includer hbody
  · rw [hroot.inner]
    exact fun f hf => absurd hf List.not_mem_nil
  · intro entry hentry m hm
    rw [hplain entry hentry] at hm
    cases hm
  · rw [hroot.inner]
    exact fun f hf => absurd hf List.not_mem_nil

/-- A property of tokens holds everywhere in a program, in the files that it includes and in the macros of the root
scope. -/
structure Throughout (p : Token → Bool) (a : Assembler) (scope : Scope) (source : List Token) : Prop where
  /-- The program. -/
  source : ∀ t ∈ source, t.everywhere p = true
  /-- Included files. -/
  includer : ∀ find, a.includer = some find → ∀ loc path loader body,
    find loc path loader = .ok body → ∀ t ∈ body, t.everywhere p = true
  /-- The macros that are there already. -/
  macros : scope.Everywhere fun _ sym => ∀ m, sym.template = some m → ∀ t ∈ m.body, t.everywhere p = true

/-- Assembles a program over a root scope, given how items are evaluated again. -/
def assembleWith (again : Workbench → Pass) (a : Assembler) (scope : Scope) (source : List Token) :
    Assembly :=
  let start := Assembler.start scope
  let (trail, s) :=
    (Workbench.runWith again ⟨a, a.outermost, a.runnerWith again a.maxDepth⟩ source).run start
  let (closing, final) :=
    if trail.tokens.any Token.isFatal then ([], s) else (account false).run s
  ⟨start, trail.batches, closing, final⟩

/-- A program is assembled by evaluating again what is marked. -/
theorem assemble_eq (a : Assembler) (scope : Scope) (source : List Token) :
    a.assemble scope source = a.assembleWith Pass.reduceAgain scope source := by
  rewrite [assemble, assembleWith, runner_eq, Workbench.run_eq]
  generalize (Workbench.runWith Pass.reduceAgain
    ⟨a, a.outermost, a.runnerWith Pass.reduceAgain a.maxDepth⟩ source).run (Assembler.start scope) = r
  rfl

/-- What assembling a program gives, read off what its block gives. -/
theorem assembleWith_eq (again : Workbench → Pass) (a : Assembler) (scope : Scope) (source : List Token)
    {r : Trail × State}
    (hr : (Workbench.runWith again ⟨a, a.outermost, a.runnerWith again a.maxDepth⟩ source).run
      (Assembler.start scope) = r) :
    a.assembleWith again scope source = ⟨Assembler.start scope, r.1.batches,
      (if r.1.tokens.any Token.isFatal then ([], r.2) else (account false).run r.2).1,
      (if r.1.tokens.any Token.isFatal then ([], r.2) else (account false).run r.2).2⟩ := by
  rw [assembleWith, hr]

/-- The scope at the end of a program is the one that its block leaves. -/
theorem scope_assemble {a : Assembler} {scope : Scope} {source : List Token} {trail : Trail} {s : State}
    (h : (Workbench.run ⟨a, a.outermost, a.runner a.maxDepth⟩ source).run (start scope) =
      (trail, s)) :
    (a.assemble scope source).scope = s.scope := by
  rw [assemble, h, Assembly.scope]
  dsimp only
  split
  · rfl
  · exact Scope.accountFor_outermost _ _

end Assembler

namespace Grammar

variable {g : Grammar} {again : Workbench → Pass} {a : Assembler} {scope : Scope} {source : List Token}

/-- The scope in which a program begins is sound if its macros are made of source tokens. -/
theorem sound_of_macros (h : a.Accepts scope source) (hmacros : scope.Everywhere g.IsSymbol) :
    g.Sound (Assembler.start scope).scope :=
  ⟨⟨List.cons_ne_nil _ _, h.root, List.forall_mem_cons.2 ⟨Frame.isInner_empty, h.inner⟩⟩,
    hmacros.root, List.forall_mem_cons.2 ⟨Frame.all_empty, hmacros.inner⟩⟩

/-- The scope in which a program begins is sound. -/
theorem sound_start (hsource : ∀ t : Token, t.isStatement = true → g.source t)
    (h : a.Accepts scope source) : g.Sound (Assembler.start scope).scope := by
  have hframe : ∀ {f : Frame} {inner : Bool},
      f.All (fun sym => ∀ m, sym.template = some m → ∀ t ∈ m.body, t.isStatement = true) →
      f.All (g.IsSymbol inner) :=
    fun hf entry hentry m hm t ht => hsource t (hf entry hentry m hm t ht)
  exact sound_of_macros h ⟨hframe h.macros.root, fun f hf => hframe (h.macros.inner f hf)⟩

/-- The blocks of a program are equipped for the grammar. -/
theorem equips_block (hsource : ∀ t : Token, t.isStatement = true → g.source t)
    (hblock : ∀ w : Workbench, w.assembler = a → g.Equips w → g.Assembles again w)
    (h : a.Accepts scope source) (b : Block) (depth : Nat) : g.Equips ⟨a, b, a.runnerWith again depth⟩ := by
  have hincluder : ∀ find, a.includer = some find → ∀ loc path loader body,
      find loc path loader = .ok body → ∀ t ∈ body, g.source t :=
    fun find hfind loc path loader body hbody t ht =>
      hsource t (h.includer find hfind loc path loader body hbody t ht)
  exact ⟨fun run hrun => obeys_runnerWith hincluder hblock _ run hrun, hincluder⟩

/-- Assembling a program over a sound scope makes the scope evolve, and what it gives is output. -/
theorem leads_assembleWith_of_sound (hmessage : ∀ t : Token, t.isMessage = true → g.output t)
    (hblock : g.Assembles again ⟨a, a.outermost, a.runnerWith again a.maxDepth⟩)
    (hsource : ∀ t ∈ source, g.source t) (hstart : g.Sound (Assembler.start scope).scope) :
    g.Leads (Assembler.start scope) (a.assembleWith again scope source).final ∧
      ∀ t ∈ (a.assembleWith again scope source).tokens, g.output t := by
  obtain ⟨hleads, houtput⟩ := leads_runWith hblock hsource hstart
  have hs := hstart.evolves hleads
  generalize hr : (Workbench.runWith again
    ⟨a, a.outermost, a.runnerWith again a.maxDepth⟩ source).run (Assembler.start scope) = r
    at hleads houtput hs
  rw [Assembler.assembleWith_eq again a scope source hr, Assembly.tokens]
  dsimp only
  rw [Trail.tokens_eq_flatMap]
  split
  · refine ⟨hleads, fun t ht => houtput t ?_⟩
    rwa [List.append_nil] at ht
  · obtain ⟨-, hreports⟩ := hoists_account false hs
    have hsame : ((account false).run r.2).2.scope = r.2.scope := Scope.accountFor_outermost _ _
    refine ⟨.trans hleads (Leads.of_scope_eq hsame), fun t ht => ?_⟩
    rcases List.mem_append.1 ht with ht | ht
    · exact houtput t ht
    · exact hmessage t (hreports t ht)

/-- Assembling a program makes the scope evolve, and what it gives is output. -/
theorem leads_assembleWith (hsource : ∀ t : Token, t.isStatement = true → g.source t)
    (hmessage : ∀ t : Token, t.isMessage = true → g.output t)
    (hblock : ∀ w : Workbench, w.assembler = a → g.Equips w → g.Assembles again w)
    (h : a.Accepts scope source) :
    g.Leads (Assembler.start scope) (a.assembleWith again scope source).final ∧
      ∀ t ∈ (a.assembleWith again scope source).tokens, g.output t :=
  leads_assembleWith_of_sound hmessage (hblock _ rfl (equips_block hsource hblock h a.outermost a.maxDepth))
    (fun t ht => hsource t (h.source t ht)) (sound_start hsource h)

end Grammar

end MacroAsm
