import MacroAsm.Proofs.Assembly.Ordering

/-!
# What END cuts off

END ends the stage that emits it, and whatever follows is not taken up by that stage. By then the stages
before it have seen the whole block: an END that an expansion emits comes out of the second stage, when the
first one has passed on every statement of the block. What the first stage does to the statements that
follow is no more than to pass them on (`Workbench.run_declareStage_append`), unless there is a GLOBAL, an
EXTERN or a diagnostic among them, and as the second stage sees them after everything else, it ends before
it takes up the first of them (`Workbench.run_bindStage_append`).

So a program whose last statement ends it is assembled as if nothing followed
(`Assembler.assemble_cut`): neither what it gives, nor the account of its names, nor any state on the way
depends on what does.
-/

namespace MacroAsm

namespace Token

/-- Whether a token is END. -/
def isStop : Token → Bool
  | .stop _ => true
  | _ => false

/-- Whether a statement is not looked at before the whole block was seen: it is neither a GLOBAL or EXTERN,
which are carried out ahead of the others, nor a diagnostic, which is moved ahead of them. -/
def isHeld (t : Token) : Bool := t.role != .sharing && !t.isMessage

/-- END is terminal in every block. -/
theorem isTerminal_of_isStop {t : Token} (h : t.isStop = true) (inMacro : Bool) :
    t.isTerminal inMacro = true := by
  cases t with
  | stop loc => rfl
  | _ => cases h

theorem isMessage_of_isHeld {t : Token} (h : t.isHeld = true) : t.isMessage = false := by
  rw [isHeld, Bool.and_eq_true] at h
  simpa using h.2

/-- The first stage passes on what it does not look at. -/
theorem declareGlobals_of_isHeld (w : Workbench) {t : Token} (h : t.isHeld = true) :
    Declare.declareGlobals w t = Emission.emit t := by
  cases t with
  | declare loc how names =>
    cases how with
    | locally => rfl
    | _ => cases h
  | _ => rfl

end Token

namespace Stage

/-- Items that are no diagnostics stay behind the others. -/
theorem messagesFirst_append {items held : List Item} (h : ∀ i ∈ held, i.token.isMessage = false) :
    messagesFirst (items ++ held) = messagesFirst items ++ held := by
  have hnone : held.filter (fun i => i.token.isMessage) = [] :=
    List.filter_eq_nil_iff.2 fun i hi => by simp [h i hi]
  have hall : held.filter (fun i => !i.token.isMessage) = held :=
    List.filter_eq_self.2 fun i hi => by simp [h i hi]
  rw [messagesFirst, List.filter_append, List.filter_append, hnone, hall, List.append_nil,
    ← List.append_assoc, ← messagesFirst]

/-- A stage that was stopped takes up nothing more. -/
theorem run_append_of_stopped {inMacro : Bool} {passes : List Pass} {last : Pass} {items : List Item}
    {s : State} (h : ((run inMacro passes last items).run s).1.stopped = true) (rest : List Item) :
    (run inMacro passes last (items ++ rest)).run s = (run inMacro passes last items).run s := by
  rcases hrun : (feed (through inMacro last passes) items Trail.empty).run s with ⟨t, s'⟩
  rw [run, hrun] at h
  rw [run, run, run_feed_append hrun, hrun, run_feed_of_stopped h]

end Stage

namespace Workbench

variable {w : Workbench} {source post : List Token} {t : Token} {s : State}

/-- The first stage passes on a statement that it does not look at. -/
theorem run_through_held (w : Workbench) (ht : t.isHeld = true) (trail : Trail) (s : State) :
    (Stage.through w.block.inMacro (.ofToken (Declare.declareGlobals w)) [] (.settled t) trail).run s =
      (trail.add ⟨[.settled t], t.isTerminal w.block.inMacro, s⟩, s) := by
  have hexec : (Pass.ofToken (Declare.declareGlobals w) (.settled t)).exec (Output.empty w.block.inMacro, s) =
      (.ok ⟨⟩, ((Output.empty w.block.inMacro).push (.settled t), s)) := by
    rw [Pass.ofToken, Item.settled, Token.declareGlobals_of_isHeld w ht, Emission.exec_emit]
    rfl
  exact Stage.run_through_last (Pass.run_handle_of_ok (Token.isMessage_of_isHeld ht) hexec)

/-- Statements that are not looked at are passed on by the first stage, as many of them as it takes up. -/
theorem run_feed_held (hpost : ∀ p ∈ post, p.isHeld = true) (t : Trail) (s : State) :
    ∃ held : List Item, (∀ i ∈ held, i.token.isMessage = false) ∧
      ((Stage.feed (Stage.through w.block.inMacro (.ofToken (Declare.declareGlobals w)) [])
        (post.map .settled) t).run s).1.items = t.items ++ held ∧
      ((Stage.feed (Stage.through w.block.inMacro (.ofToken (Declare.declareGlobals w)) [])
        (post.map .settled) t).run s).2 = s := by
  induction post generalizing t with
  | nil => exact ⟨[], nofun, (List.append_nil _).symm, rfl⟩
  | cons p rest ih =>
    rw [List.forall_mem_cons] at hpost
    cases hstopped : t.stopped with
    | true =>
      rw [Stage.run_feed_of_stopped hstopped]
      exact ⟨[], nofun, (List.append_nil _).symm, rfl⟩
    | false =>
      rw [List.map_cons, Stage.run_feed_cons hstopped (run_through_held w hpost.1 t s)]
      obtain ⟨held, hheld, hitems, hs⟩ := ih hpost.2
        (t.add ⟨[.settled p], p.isTerminal w.block.inMacro, s⟩)
      refine ⟨.settled p :: held, List.forall_mem_cons.2 ⟨Token.isMessage_of_isHeld hpost.1, hheld⟩, ?_, hs⟩
      rw [Trail.items_add, List.append_assoc] at hitems
      exact hitems

/-- What follows adds nothing to the first stage but items that it passes on. -/
theorem run_declareStage_append (w : Workbench) (source : List Token) (s : State)
    (hpost : ∀ p ∈ post, p.isHeld = true) :
    ∃ held : List Item, (∀ i ∈ held, i.token.isMessage = false) ∧
      ((w.declareStage (source ++ post)).run s).1.items =
        ((w.declareStage source).run s).1.items ++ held ∧
      ((w.declareStage (source ++ post)).run s).2 = ((w.declareStage source).run s).2 := by
  rcases hrun : (w.declareStage source).run s with ⟨t, s'⟩
  rw [declareStage, Stage.run] at hrun
  rw [declareStage, Stage.run, List.map_append, Stage.run_feed_append hrun]
  exact run_feed_held hpost t s'

/-- Once END came out of the second stage, it takes up nothing of what is behind. -/
theorem run_bindStage_append (hw : w.Finishes) {items held : List Item}
    (hheld : ∀ i ∈ held, i.token.isMessage = false)
    (hstop : ∃ i ∈ ((w.bindStage items).run s).1.items, i.token.isStop = true) :
    (w.bindStage (items ++ held)).run s = (w.bindStage items).run s := by
  have hstopped : ((w.bindStage items).run s).1.stopped = true := by
    obtain ⟨i, hi, histop⟩ := hstop
    by_contra hopen
    have hnot := (ordered_bindStage hw items s).isOpen (Bool.eq_false_of_not_eq_true hopen) i hi
    rw [Token.isTerminal_of_isStop histop] at hnot
    cases hnot
  rw [bindStage, Stage.messagesFirst_append hheld]
  exact Stage.run_append_of_stopped hstopped held

/-- Whether END comes out of the second stage of a block: it is among the statements, or a statement that is
expanded on first sight emits it. -/
def Ends (w : Workbench) (source : List Token) (s : State) : Prop :=
  let declared := (w.declareStage source).run s
  ∃ i ∈ ((w.bindStage declared.1.items).run declared.2).1.items, i.token.isStop = true

/-- A block out of whose second stage END comes is assembled as if nothing followed. -/
theorem run_append_of_ends (hw : w.Finishes) (hpost : ∀ t ∈ post, t.isHeld = true)
    (hends : w.Ends source s) : (w.run (source ++ post)).run s = (w.run source).run s := by
  obtain ⟨held, hheld, hitems, hs⟩ := run_declareStage_append w source s hpost
  rw [run, run, StateM.run_bind, StateM.run_bind, StateM.run_bind, StateM.run_bind, hitems, hs,
    run_bindStage_append hw hheld hends]

/-- The first stage takes up nothing behind END. -/
theorem run_append_stop (loc : Location) (pre post : List Token) :
    (w.run (pre ++ .stop loc :: post)).run s = (w.run (pre ++ [.stop loc])).run s := by
  have hstopped : ((w.declareStage (pre ++ [.stop loc])).run s).1.stopped = true := by
    rcases hpre : (Stage.feed (Stage.through w.block.inMacro (.ofToken (Declare.declareGlobals w)) [])
      (pre.map .settled) Trail.empty).run s with ⟨t, s'⟩
    rw [declareStage, Stage.run, List.map_append, Stage.run_feed_append hpre, List.map_singleton]
    cases ht : t.stopped with
    | true => rwa [Stage.run_feed_of_stopped ht]
    | false =>
      rw [Stage.run_feed_cons ht (Stage.run_through_last (Pass.run_handle_of_ok rfl rfl))]
      exact Bool.or_true _
  have hsame : (w.declareStage (pre ++ .stop loc :: post)).run s =
      (w.declareStage (pre ++ [.stop loc])).run s := by
    rw [List.append_cons, declareStage, List.map_append]
    exact Stage.run_append_of_stopped hstopped _
  rw [run, run, StateM.run_bind, StateM.run_bind, StateM.run_bind, StateM.run_bind, hsame]

end Workbench

namespace Assembler

/-- Whether END comes out of a program on first sight, wherever it stands: among the statements, or in a
file, an arm, an iteration or a macro, in any nesting, that is expanded on first sight. -/
def Ends (a : Assembler) (scope : Scope) (source : List Token) : Prop :=
  Workbench.Ends ⟨a, a.outermost, a.runner a.maxDepth⟩ source (start scope)

/-- A program whose last statement is END, or is expanded on first sight and emits END, is assembled as if
nothing followed. What it gives, the account of its names and the states it goes through are the same, and
so is the scope it leaves. -/
theorem assemble_cut (a : Assembler) (scope : Scope) (pre : List Token) (t : Token) (post : List Token)
    (ht : t.isStop = true ∨ a.Ends scope (pre ++ [t])) (hpost : ∀ p ∈ post, p.isHeld = true) :
    a.assemble scope (pre ++ t :: post) = a.assemble scope (pre ++ [t]) := by
  have hsame : (Workbench.run ⟨a, a.outermost, a.runner a.maxDepth⟩ (pre ++ t :: post)).run (start scope) =
      (Workbench.run ⟨a, a.outermost, a.runner a.maxDepth⟩ (pre ++ [t])).run (start scope) := by
    rcases ht with hstop | hends
    · cases t with
      | stop loc => exact Workbench.run_append_stop loc pre post
      | _ => cases hstop
    · rw [List.append_cons]
      exact Workbench.run_append_of_ends (finishes_runner a a.maxDepth) hpost hends
  rw [assemble, assemble, hsame]

/-- An assembler that finds the same file wherever it looks: `M`, the call of a macro. -/
def callingAssembler : Assembler :=
  { Assembler.bare 4 with
    includer := some fun loc path _ => .ok [.dependency loc path, .dispatch ⟨Location.none, nameOf "M", []⟩] }

/-- The definition of a macro M whose body is `DUP 1`, `IF 1`, END, ENDIF, ENDD. -/
def endingMacro : Token :=
  .macroDef Location.none (nameOf "M") []
    [.dup Location.none none (.count (.literal Location.none 1))
      [.cond Location.none [.mk (.literal Location.none 1) [.stop Location.none]] none false]]

/-- A file is included in which the macro is called. What follows reads a name that is never defined, and
defines one that is never read; neither is accounted for. -/
theorem assemble_cut_nested :
    callingAssembler.Ends Scope.initial
        ([endingMacro] ++ [.inclusion Location.none (.quoted Location.none "F") none]) ∧
      (∀ p ∈ [Token.data Location.none .bytes [nameOf "X"], .label Location.none (nameOf "Y")],
        p.isHeld = true) ∧
      callingAssembler.assemble Scope.initial
          ([endingMacro] ++ .inclusion Location.none (.quoted Location.none "F") none ::
            [.data Location.none .bytes [nameOf "X"], .label Location.none (nameOf "Y")]) =
        callingAssembler.assemble Scope.initial
          ([endingMacro] ++ [.inclusion Location.none (.quoted Location.none "F") none]) := by
  have hends : callingAssembler.Ends Scope.initial
      ([endingMacro] ++ [Token.inclusion Location.none (.quoted Location.none "F") none]) :=
    List.any_eq_true.1 (by decide +kernel)
  have hheld : ∀ p ∈ [Token.data Location.none .bytes [nameOf "X"], .label Location.none (nameOf "Y")],
      p.isHeld = true := by
    decide
  exact ⟨hends, hheld, assemble_cut _ _ _ _ _ (Or.inr hends) hheld⟩

end Assembler

end MacroAsm
