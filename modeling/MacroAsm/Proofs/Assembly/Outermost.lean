import MacroAsm.Proofs.Assembly.Linkable
import MacroAsm.Proofs.Assembly.StandIn

/-!
# Instructions outside of bodies

What a nested block gives is evaluated again by the blocks around it, but its operands, jumps and IFs are not encoded
again, even if they are known by then (`Assembler.exists_not_isEncoded`). A block without instructions, macro calls and
IFs gives none of them. So if a program has no IF, and instructions and macro calls at its top level only, then the
operands and jumps in its output come from the last steps of its outermost block, and everything that it gives is
encoded (`Assembler.isEncoded_of_callsOutside`).
-/

namespace MacroAsm

namespace Token

/-- Whether a token is no instruction, macro call or IF, nor made of one. -/
def isIdle (t : Token) : Bool := t.role != .assembled && t.role != .calling && !t.isCond

/-- Whether a token is an instruction or a macro call, or there is neither of them in it, nor an IF. -/
def isOutermost (t : Token) : Bool := t.role == .calling || t.everywhere isIdle

theorem isReady_of_role {t : Token} (h : t.role ≠ .assembled) : t.isReady = true :=
  isReady_of_isKept (isKept_iff.2 fun hrole => absurd hrole h)

theorem role_of_isIdle {t : Token} (h : t.isIdle = true) : t.role ≠ .assembled := by
  rw [isIdle, Bool.and_assoc, Bool.and_eq_true, bne_iff_ne] at h
  exact h.1

theorem isOutermost_of_isIdle {t : Token} (h : t.everywhere isIdle = true) : t.isOutermost = true := by
  rw [isOutermost, h, Bool.or_true]

theorem isOutermost_iff {t : Token} : t.isOutermost = true ↔ t.role = .calling ∨ t.everywhere isIdle = true := by
  rw [isOutermost, Bool.or_eq_true, beq_iff_eq]

theorem role_of_isOutermost {t : Token} (h : t.isOutermost = true) : t.role ≠ .assembled := by
  rcases isOutermost_iff.1 h with hrole | hidle
  · rw [hrole]
    nofun
  · exact role_of_isIdle (of_everywhere hidle)

/-- There is neither an instruction, a macro call nor an IF in the bodies of a statement of the outermost block. -/
theorem isIdle_of_mem_bodies {t : Token} (h : t.isOutermost = true) {body : List Token} (hbody : body ∈ t.bodies) :
    ∀ t' ∈ body, t'.everywhere isIdle = true := by
  rcases isOutermost_iff.1 h with hrole | hidle
  · obtain ⟨d, rfl⟩ := exists_dispatch_of_role hrole
    exact absurd hbody List.not_mem_nil
  · exact everywhere_of_mem_bodies hidle hbody

theorem RolesFrom.isOutermost {t t' : Token} (h : t.RolesFrom t') (ht : t.isOutermost = true) :
    t'.isOutermost = true := by
  rw [isOutermost_iff] at ht ⊢
  refine ht.imp (fun hrole => h.1.trans hrole) fun hidle => ?_
  exact h.2.2 (fun traits => traits.role != .assembled && traits.role != .calling && !traits.isCond) hidle

end Token

namespace Grammar

/-- Tokens with neither an instruction, a macro call nor an IF in them. -/
abbrev Idle (t : Token) : Prop := t.everywhere Token.isIdle = true

/-- Items of the outermost block of a program. -/
def Outermost (item : Item) : Prop := item.token.isOutermost = true

/-- No step of a block makes an instruction, a macro call or an IF, nor what becomes of them. -/
theorem closed_idle : Closed Idle fun _ => True :=
  closed_everywhere (q := fun traits => traits.role != .assembled && traits.role != .calling && !traits.isCond)
    (fun _ _ _ => rfl) nofun nofun

section Steps

variable {g : Grammar} {P : Item → Prop} {w : Workbench} {inMacro : Bool}

/-- Evaluating again what no block has assembled makes nothing known of what one has. -/
theorem sameOn_reduceKept (h : ∀ item, P item → item.token.role ≠ .assembled) :
    (Pass.reduceAgain w).SameOn inMacro (g.Knows P) (.reduceKept w) := by
  refine sameOn_reduceChecked inMacro fun item t' hitem hreduces => Token.isReady_of_role ?_
  rw [hreduces.rolesFrom.1]
  exact h item hitem

theorem reports_outermost : Reports Outermost :=
  fun item hmessage => Token.isOutermost_of_isIdle (closed_idle.message item.token hmessage)

theorem admits_outermost : (uniform Idle fun _ => True).Admits Outermost where
  message := reports_outermost
  fragment loc id label := Token.isOutermost_of_isIdle (closed_idle.fragment loc id label)
  spliced _ ht := Token.isOutermost_of_isIdle ht

/-- GLOBAL and EXTERN are carried out. -/
theorem maps_declare_outermost : (Pass.ofToken (Declare.declareGlobals w)).Maps (uniform Idle fun _ => True).Leads
    inMacro ((uniform Idle fun _ => True).Knows Outermost) ((uniform Idle fun _ => True).Knows Outermost) :=
  maps_declareGlobals reports_outermost fun _ hitem _ => hitem

/-- Statements are evaluated. -/
theorem maps_evaluate_outermost : (Pass.reduceFirst w).Maps (uniform Idle fun _ => True).Leads inMacro
    ((uniform Idle fun _ => True).Knows Outermost) ((uniform Idle fun _ => True).Knows Outermost) :=
  maps_reduceFirst reports_outermost fun _ _ _ hitem hreduces _ => hreduces.rolesFrom.isOutermost hitem

/-- What waits is evaluated again. -/
theorem maps_again_outermost : (Pass.reduceAgain w).Maps (uniform Idle fun _ => True).Leads inMacro
    ((uniform Idle fun _ => True).Knows Outermost) ((uniform Idle fun _ => True).Knows Outermost) := by
  rw [Pass.reduceAgain_eq]
  exact maps_reduceChecked reports_outermost (fun _ _ hitem hreduces _ => hreduces.rolesFrom.isOutermost hitem)
    fun _ hitem _ => hitem

/-- Statements that bind names are carried out. -/
theorem maps_bind_outermost (hw : (uniform Idle fun _ => True).Equips w) :
    (Pass.localize w).Maps (uniform Idle fun _ => True).Leads inMacro
      ((uniform Idle fun _ => True).Knows Outermost) ((uniform Idle fun _ => True).Knows Outermost) := by
  refine maps_localize admits_outermost hw (fun loc clauses otherwise pending hitem => ?_)
    (fun item hitem body hbody => Token.isIdle_of_mem_bodies hitem hbody) (fun _ _ _ _ _ _ _ _ _ _ => trivial)
    (fun item hitem ts hts => ?_) fun _ hitem _ _ => hitem
  · rcases Token.isOutermost_iff.1 hitem with hrole | hidle
    · cases hrole
    · cases Token.of_everywhere hidle
  · exact absurd (Token.role_of_decision? hts) (Token.role_of_isOutermost hitem)

/-- What is left is expanded. -/
theorem maps_expand_outermost (hw : (uniform Idle fun _ => True).Equips w) :
    (Pass.expandRest w).Maps (uniform Idle fun _ => True).Leads inMacro
      ((uniform Idle fun _ => True).Knows Outermost) ((uniform Idle fun _ => True).Knows Outermost) :=
  maps_expandRest admits_outermost hw (fun _ hitem _ hbody => Token.isIdle_of_mem_bodies hitem hbody)
    fun _ hitem _ => hitem

/-- The third stage of the outermost block evaluates nothing again that a block has assembled. -/
theorem twins_outermost (hw : (uniform Idle fun _ => True).Equips w) {other : Option Runner}
    (h : Option.Rel (uniform Idle fun _ => True).Agree w.runner other) :
    Stage.Twins (uniform Idle fun _ => True).Leads w.block.inMacro ((uniform Idle fun _ => True).Knows Outermost)
      [.reduceAgain w, .localize w, .expandRest w, .ofToken Finish.relax, .ofToken (Finish.encode w)]
      (.ofToken (Finish.complete w))
      [.reduceKept w, .localize { w with runner := other }, .expandRest { w with runner := other },
        .ofToken Finish.relax, .ofToken (Finish.encode w)]
      (.ofToken (Finish.complete w)) := by
  have hstable := (uniform Idle fun _ => True).stable_knows
  have hreports : Reports fun _ => True := fun _ _ => trivial
  obtain ⟨hbind, hexpand⟩ := sameOn_runner w.block.inMacro
    (fun item (hitem : Outermost item) body hbody => Token.isIdle_of_mem_bodies hitem hbody) hw h
  refine .step maps_again_outermost (sameOn_reduceKept fun _ => Token.role_of_isOutermost) (hstable _) ?_
  refine .step (maps_bind_outermost hw) hbind (hstable _) (.step (maps_expand_outermost hw) hexpand (hstable _) ?_)
  refine .step (maps_relax hreports (fun _ _ _ _ => trivial) fun _ _ _ => trivial) (fun _ _ _ => rfl) (hstable _) ?_
  refine .step (maps_encode hreports (fun _ _ _ _ _ _ _ _ => trivial) fun _ _ _ => trivial) (fun _ _ _ => rfl)
    (hstable _) (.last (maps_complete (Q := fun _ => True) hreports ?_ ?_ ?_) fun _ _ _ => rfl)
  · exact fun _ _ _ _ _ _ _ _ _ => trivial
  · exact fun _ _ _ _ _ _ => trivial
  · exact fun _ _ _ _ => trivial

end Steps

end Grammar

namespace Workbench

open Grammar

variable {w : Workbench} {other : Option Runner} {source : List Token} {s : State}

/-- A nested block with neither an instruction, a macro call nor an IF in it leaves nothing that may not become
known. -/
theorem run_runWith_idle (hw : (uniform Idle fun _ => True).Equips w)
    (h : Option.Rel (uniform Idle fun _ => True).Agree w.runner other) (hsource : ∀ t ∈ source, Idle t)
    (hs : (uniform Idle fun _ => True).Sound s.scope) :
    (Workbench.runWith Pass.reduceKept { w with runner := other } source).run s = (w.run source).run s := by
  obtain ⟨hbind, hexpand⟩ := sameOn_runner w.block.inMacro (fun item => closed_idle.bodies item.token) hw h
  have hdeclared := closed_idle.knows_declareStage hw hsource hs
  have hbound := closed_idle.knows_bindStage hw hdeclared
  have hfirst : Workbench.declareStage { w with runner := other } source = w.declareStage source := rfl
  have hsecond := closed_idle.run_bindStage hw hbind hdeclared
  have hthird := closed_idle.run_finishStage hw
    (sameOn_reduceKept fun _ hitem => Token.role_of_isIdle (Token.of_everywhere hitem)) hbind hexpand hbound
  rw [run_runWith, run_bound, hfirst, run, StateM.run_bind, StateM.run_bind, ← hthird, ← hsecond]
  rfl

/-- Neither does the block of a program with instructions and macro calls at its top level only. -/
theorem run_runWith_outermost (hw : (uniform Idle fun _ => True).Equips w)
    (h : Option.Rel (uniform Idle fun _ => True).Agree w.runner other) (hsource : ∀ t ∈ source, t.isOutermost = true)
    (hs : (uniform Idle fun _ => True).Sound s.scope) :
    (Workbench.runWith Pass.reduceKept { w with runner := other } source).run s = (w.run source).run s := by
  have hR : Progress (uniform Idle fun _ => True).Leads :=
    ((uniform Idle fun _ => True).invariant fun _ => True).toProgress
  have hstable := (uniform Idle fun _ => True).stable_knows
  obtain ⟨hbind, -⟩ := sameOn_runner w.block.inMacro
    (fun item (hitem : Outermost item) body hbody => Token.isIdle_of_mem_bodies hitem hbody) hw h
  obtain ⟨-, hdeclared⟩ := leads_declareStage (.last maps_declare_outermost) hsource hs
  obtain ⟨-, hbound⟩ := leads_bindStage
    (.step maps_evaluate_outermost (hstable _) (.last (maps_bind_outermost hw))) hdeclared
  have htwins : Stage.Twins (uniform Idle fun _ => True).Leads w.block.inMacro
      ((uniform Idle fun _ => True).Knows Outermost) [.reduceFirst w] (.localize w) [.reduceFirst w]
      (.localize { w with runner := other }) :=
    .step maps_evaluate_outermost (fun _ _ _ => rfl) (hstable _) (.last (maps_bind_outermost hw) hbind)
  have hfirst : Workbench.declareStage { w with runner := other } source = w.declareStage source := rfl
  have hsecond : (Workbench.bindStage { w with runner := other } ((w.declareStage source).run s).1.items).run
      ((w.declareStage source).run s).2 =
        (w.bindStage ((w.declareStage source).run s).1.items).run ((w.declareStage source).run s).2 :=
    htwins.run hR (hstable _) fun i hi => hdeclared i (Stage.mem_messagesFirst.1 hi)
  have hthird := (twins_outermost hw h).run hR (hstable _) fun i hi => hbound i (Stage.mem_messagesFirst.1 hi)
  rw [run_runWith, run_bound, hfirst, hsecond, run, StateM.run_bind, StateM.run_bind, finishStage, ← hthird]
  rfl

end Workbench

namespace Assembler

open Grammar

variable {a : Assembler} {scope : Scope} {source : List Token}

/-- A program with no IF, and with instructions and macro calls at its top level only. -/
structure CallsOutside (a : Assembler) (scope : Scope) (source : List Token) : Prop where
  /-- The program. -/
  source : ∀ t ∈ source, t.isOutermost = true
  /-- Included files. -/
  includer : ∀ find, a.includer = some find → ∀ loc path loader body,
    find loc path loader = .ok body → ∀ t ∈ body, t.everywhere Token.isIdle = true
  /-- The macros that are there already. -/
  macros : scope.Everywhere fun _ sym =>
    ∀ m, sym.template = some m → ∀ t ∈ m.body, t.everywhere Token.isIdle = true

/-- What nested blocks leave of statements without an instruction, a macro call or an IF in them may become known. -/
theorem agree_runnerKept (hincluder : ∀ find, a.includer = some find → ∀ loc path loader body,
      find loc path loader = .ok body → ∀ t ∈ body, Idle t) (depth : Nat) :
    Option.Rel (uniform Idle fun _ => True).Agree (a.runner depth) (a.runnerWith Pass.reduceKept depth) := by
  have hsucc : ∀ depth, a.runnerWith Pass.reduceKept (depth + 1) = some fun b source =>
      shield (Workbench.runWith Pass.reduceKept ⟨a, b, a.runnerWith Pass.reduceKept depth⟩ source) := fun _ => rfl
  refine Grammar.agree_runner rfl hsucc (fun b depth ih body hbody s hs => ?_) depth
  exact Workbench.run_runWith_idle (w := ⟨a, b, a.runner depth⟩) (closed_idle.equips hincluder b depth) ih hbody hs

/-- In such a program nothing that a nested block leaves becomes known late. -/
theorem assembleWith_reduceKept (haccepts : a.Accepts scope source) (h : a.CallsOutside scope source) :
    a.assembleWith Pass.reduceKept scope source = a.assemble scope source := by
  have hrun : (Workbench.runWith Pass.reduceKept ⟨a, a.outermost, a.runnerWith Pass.reduceKept a.maxDepth⟩ source).run
      (start scope) = (Workbench.run ⟨a, a.outermost, a.runner a.maxDepth⟩ source).run (start scope) :=
    Workbench.run_runWith_outermost (w := ⟨a, a.outermost, a.runner a.maxDepth⟩)
      (closed_idle.equips h.includer a.outermost a.maxDepth) (agree_runnerKept h.includer a.maxDepth) h.source
      (sound_of_macros haccepts h.macros)
  rewrite [assembleWith, assemble, hrun]
  generalize (Workbench.run ⟨a, a.outermost, a.runner a.maxDepth⟩ source).run (start scope) = r
  rfl

/-- Everything is encoded that comes out of a program with no IF, and with instructions and macro calls at its top
level only. -/
theorem isEncoded_of_callsOutside (haccepts : a.Accepts scope source) (h : a.CallsOutside scope source) :
    ∀ t ∈ (a.assemble scope source).tokens, t.isEncoded = true :=
  isEncoded_of_assembleWith haccepts (congrArg Assembly.tokens (assembleWith_reduceKept haccepts h))

end Assembler

end MacroAsm
