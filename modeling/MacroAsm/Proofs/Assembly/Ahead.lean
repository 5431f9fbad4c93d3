import MacroAsm.Proofs.Assembly.Cutoff

/-!
# GLOBAL and EXTERN hold wherever they stand

The first stage carries out GLOBAL and EXTERN and passes on every other statement without looking at it
(`Token.declareGlobals_of_isHeld`). So what such a declaration does is the same whether a statement stands
before it or behind it, and all that the declaration leaves is diagnostics
(`Pass.ordered_handle_of_isSharing`), which the second stage takes up ahead of everything else.

A declaration that ends the stage keeps the statements behind it from being passed on, but its fatal
diagnostic ends the second stage too, before that takes up the first statement
(`Stage.stopped_run_messagesFirst`). Hence a block is assembled alike whether a declaration stands behind
other statements or before them (`Workbench.run_declared`), and so is a program
(`Assembler.assemble_declared`): with the same output, the same states on the way and the same scope.
-/

namespace MacroAsm

namespace Token

/-- Whether a statement is a GLOBAL or EXTERN. -/
def isSharing (t : Token) : Bool := t.role == .sharing

/-- At the outermost level only END ends the stage that passes it on. -/
theorem isTerminal_of_isHeld {t : Token} (h : t.isHeld = true) : t.isTerminal false = t.isStop := by
  cases t with
  | message d => cases h
  | _ => rfl

end Token

/-- GLOBAL and EXTERN leave nothing but diagnostics. -/
theorem Pass.ordered_handle_of_isSharing (w : Workbench) (inMacro : Bool) {g : Token} (hg : g.isSharing = true)
    (s : State) : (((Pass.ofToken (Declare.declareGlobals w)).handle inMacro (.settled g)).run s).1.Ordered
      inMacro fun i => i.token.isMessage = true := by
  have hrole : g.role = .sharing := by simpa [Token.isSharing] using hg
  exact ordered_handle (fun _ h => h)
    (Declare.emits_declareGlobals (fun _ h => h) fun hpassed => absurd hrole hpassed) s

namespace Stage

variable {inMacro : Bool} {passes : List Pass} {last : Pass}

/-- Diagnostics are taken up ahead of what is no diagnostic, whichever stood first. -/
theorem messagesFirst_swap {reports : List Item} (hreports : ∀ i ∈ reports, i.token.isMessage = true)
    {item : Item} (hitem : item.token.isMessage = false) (before after : List Item) :
    messagesFirst (before ++ item :: (reports ++ after)) = messagesFirst (before ++ reports ++ item :: after) := by
  have hnone : reports.filter (fun i => !i.token.isMessage) = [] :=
    List.filter_eq_nil_iff.2 fun i hi => by simp [hreports i hi]
  simp [messagesFirst, List.filter_append, hitem, hnone]

/-- A stage that begins with diagnostics of which one is terminal is stopped there. -/
theorem stopped_feed_messages {messages : List Item} (hmessages : ∀ i ∈ messages, i.token.isMessage = true)
    (h : ∃ i ∈ messages, i.token.isTerminal inMacro = true) (rest : List Item) (t : Trail) (s : State) :
    ((feed (through inMacro last passes) (messages ++ rest) t).run s).1.stopped = true := by
  induction messages generalizing t with
  | nil => simp at h
  | cons m messages ih =>
    rw [List.forall_mem_cons] at hmessages
    cases ht : t.stopped with
    | true => rwa [run_feed_of_stopped ht]
    | false =>
      rw [List.cons_append, run_feed_cons ht (run_through_message ht hmessages.1)]
      cases hm : m.token.isTerminal inMacro with
      | true => rw [run_feed_of_stopped (by simp)]; simp
      | false =>
        obtain ⟨i, hi, hterminal⟩ := h
        rcases List.mem_cons.1 hi with rfl | hi
        · rw [hm] at hterminal
          cases hterminal
        · exact ih hmessages.2 ⟨i, hi, hterminal⟩ _

/-- A stage that is given a terminal diagnostic is stopped before it takes up anything else. -/
theorem stopped_run_messagesFirst {items : List Item}
    (h : ∃ i ∈ items, i.token.isMessage = true ∧ i.token.isTerminal inMacro = true) (s : State) :
    ((run inMacro passes last (messagesFirst items)).run s).1.stopped = true := by
  obtain ⟨i, hi, hmessage, hterminal⟩ := h
  exact stopped_feed_messages (fun i hi => (List.mem_filter.1 hi).2)
    ⟨i, List.mem_filter.2 ⟨hi, hmessage⟩, hterminal⟩ _ _ s

/-- What a stage with one step adds to a trail depends on the trail only as far as that goes on or not. -/
theorem run_feed_last (inMacro : Bool) (last : Pass) (items : List Item) (t t' : Trail)
    (h : t.stopped = t'.stopped) (s : State) : ∃ added : List Item,
      ((feed (through inMacro last []) items t).run s).1.items = t.items ++ added ∧
      ((feed (through inMacro last []) items t').run s).1.items = t'.items ++ added ∧
      ((feed (through inMacro last []) items t).run s).2 =
        ((feed (through inMacro last []) items t').run s).2 := by
  induction items generalizing t t' s with
  | nil => exact ⟨[], (List.append_nil _).symm, (List.append_nil _).symm, rfl⟩
  | cons item rest ih =>
    cases ht : t.stopped with
    | true =>
      rw [run_feed_of_stopped ht, run_feed_of_stopped (h ▸ ht)]
      exact ⟨[], by simp, by simp, rfl⟩
    | false =>
      rcases hrun : (last.handle inMacro item).run s with ⟨out, s'⟩
      rw [run_feed_cons ht (run_through_last hrun), run_feed_cons (h ▸ ht) (run_through_last hrun)]
      obtain ⟨added, hadded, hadded', hs⟩ :=
        ih (t.add ⟨out.items, out.closed, s'⟩) (t'.add ⟨out.items, out.closed, s'⟩) (by simp [h]) s'
      rw [Trail.items_add, List.append_assoc] at hadded hadded'
      exact ⟨out.items ++ added, hadded, hadded', hs⟩

end Stage

namespace Workbench

variable {w : Workbench} {g t : Token}

/-- Diagnostics that were reported before a statement or behind it are the same to the second stage. -/
theorem run_bindStage_swap {reports : List Item} (hreports : ∀ i ∈ reports, i.token.isMessage = true)
    {item : Item} (hitem : item.token.isMessage = false) (before after : List Item) (s : State) :
    (w.bindStage (before ++ item :: (reports ++ after))).run s =
      (w.bindStage (before ++ reports ++ item :: after)).run s := by
  rw [bindStage, bindStage, Stage.messagesFirst_swap hreports hitem]

/-- The second stage does not take up a statement behind a fatal diagnostic. -/
theorem run_bindStage_fatal {reports : List Item} (hreports : ∀ i ∈ reports, i.token.isMessage = true)
    (hfatal : ∃ i ∈ reports, i.token.isTerminal w.block.inMacro = true) {item : Item}
    (hitem : item.token.isMessage = false) (before : List Item) (s : State) :
    (w.bindStage (before ++ item :: reports)).run s = (w.bindStage (before ++ reports)).run s := by
  obtain ⟨i, hi, hterminal⟩ := hfatal
  have hstopped : ((w.bindStage (before ++ reports)).run s).1.stopped = true :=
    Stage.stopped_run_messagesFirst ⟨i, List.mem_append_right before hi, hreports i hi, hterminal⟩ s
  have hswap := run_bindStage_swap (w := w) hreports hitem before [] s
  rw [List.append_nil] at hswap
  rw [hswap, bindStage, Stage.messagesFirst_append (by simpa using hitem)]
  exact Stage.run_append_of_stopped hstopped [item]

/-- A declaration does the same ahead of a statement as behind it, and the second stage does not tell which
of them stood first. -/
theorem run_declareStage_swap (hg : g.isSharing = true) (ht : t.isHeld = true)
    (hend : t.isTerminal w.block.inMacro = false) (p q : List Token) (s : State) :
    ((w.declareStage (p ++ t :: g :: q)).run s).2 = ((w.declareStage (p ++ g :: t :: q)).run s).2 ∧
      ∀ s', (w.bindStage ((w.declareStage (p ++ t :: g :: q)).run s).1.items).run s' =
        (w.bindStage ((w.declareStage (p ++ g :: t :: q)).run s).1.items).run s' := by
  rcases hp : (Stage.feed (Stage.through w.block.inMacro (.ofToken (Declare.declareGlobals w)) [])
    (p.map .settled) Trail.empty).run s with ⟨before, s1⟩
  simp only [declareStage, Stage.run, List.map_append, List.map_cons, Stage.run_feed_append hp]
  cases hbefore : before.stopped with
  | true => simp only [Stage.run_feed_of_stopped hbefore, implies_true, and_self]
  | false =>
    have hmessage : (Item.settled t).token.isMessage = false := Token.isMessage_of_isHeld ht
    rcases hout : ((Pass.ofToken (Declare.declareGlobals w)).handle w.block.inMacro (.settled g)).run s1
      with ⟨out, s2⟩
    have hordered := Pass.ordered_handle_of_isSharing w w.block.inMacro hg s1
    rw [hout] at hordered
    have hreports : ∀ i ∈ out.items, i.token.isMessage = true :=
      fun i hi => hordered.holds i (List.mem_reverse.1 hi)
    -- the statement is passed on, and the declaration is carried out from the same state
    rw [Stage.run_feed_cons hbefore (run_through_held w ht before s1), hend,
      Stage.run_feed_cons (by simp [hbefore]) (Stage.run_through_last hout),
      Stage.run_feed_cons hbefore (Stage.run_through_last hout)]
    cases hclosed : out.closed with
    | true =>
      rw [Stage.run_feed_of_stopped (by simp), Stage.run_feed_of_stopped (by simp)]
      refine ⟨rfl, fun s' => ?_⟩
      obtain ⟨i, hi, hterminal⟩ := hordered.isClosed hclosed
      simpa using run_bindStage_fatal hreports ⟨i, List.mem_reverse.2 hi, hterminal⟩ hmessage before.items s'
    | false =>
      rw [Stage.run_feed_cons (by simp [hbefore]) (run_through_held w ht _ s2), hend]
      obtain ⟨after, hbehind, hahead, hs⟩ := Stage.run_feed_last w.block.inMacro
        (.ofToken (Declare.declareGlobals w)) (q.map .settled)
        ((before.add ⟨[.settled t], false, s1⟩).add ⟨out.items, false, s2⟩)
        ((before.add ⟨out.items, false, s2⟩).add ⟨[.settled t], false, s2⟩) (by simp) s2
      simp only [Trail.items_add, List.append_assoc] at hbehind hahead
      refine ⟨hs, fun s' => ?_⟩
      have hswap := run_bindStage_swap (w := w) hreports hmessage before.items after s'
      simpa [hbehind, hahead, List.append_assoc] using hswap

/-- A block is assembled alike whether a declaration stands before a statement or behind it. -/
theorem run_swap (hg : g.isSharing = true) (ht : t.isHeld = true) (hend : t.isTerminal w.block.inMacro = false)
    (p q : List Token) (s : State) : (w.run (p ++ t :: g :: q)).run s = (w.run (p ++ g :: t :: q)).run s := by
  obtain ⟨hs, hbind⟩ := run_declareStage_swap (w := w) hg ht hend p q s
  simp only [run, StateM.run_bind]
  rw [hs, hbind]

/-- A declaration holds for a block wherever it stands in it: it may as well stand ahead of all statements that
do not end the block. -/
theorem run_declared (hg : g.isSharing = true) {held : List Token}
    (hheld : ∀ t ∈ held, t.isHeld = true ∧ t.isTerminal w.block.inMacro = false) (p q : List Token) (s : State) :
    (w.run (p ++ held ++ g :: q)).run s = (w.run (p ++ g :: (held ++ q))).run s := by
  induction held generalizing p with
  | nil => rw [List.append_nil, List.nil_append]
  | cons t rest ih =>
    rw [List.forall_mem_cons] at hheld
    have hrest := ih hheld.2 (p ++ [t])
    simp only [List.append_assoc, List.cons_append, List.nil_append] at hrest ⊢
    rw [hrest]
    exact run_swap hg hheld.1.1 hheld.1.2 p (rest ++ q) s

end Workbench

namespace Assembler

/-- A program is assembled alike whether a GLOBAL or EXTERN stands before a statement or behind it, unless
that statement is END, another of them or a diagnostic. What it gives, the account of its names and the states
it goes through are the same, and so is the scope it leaves. -/
theorem assemble_declared (a : Assembler) (scope : Scope) (p q : List Token) {g t : Token}
    (hg : g.isSharing = true) (ht : t.isHeld = true) (hend : t.isStop = false) :
    a.assemble scope (p ++ t :: g :: q) = a.assemble scope (p ++ g :: t :: q) := by
  have hterminal : t.isTerminal a.outermost.inMacro = false := (Token.isTerminal_of_isHeld ht).trans hend
  have hrun := Workbench.run_swap (w := ⟨a, a.outermost, a.runner a.maxDepth⟩) hg ht hterminal p q (start scope)
  simp only [assemble, hrun]

/-- A name that is used and then made weak and global behind its own label. That it is, wherever it is told so. -/
theorem assemble_declared_weak :
    (Token.declare Location.none (.globally true) [nameOf "X"]).isSharing = true ∧
      (Token.label Location.none (nameOf "X")).isHeld = true ∧
      (Token.label Location.none (nameOf "X")).isStop = false ∧
      plainAssembler.assemble Scope.initial ([.data Location.none .bytes [nameOf "X"]] ++
          .label Location.none (nameOf "X") :: .declare Location.none (.globally true) [nameOf "X"] :: []) =
        plainAssembler.assemble Scope.initial ([.data Location.none .bytes [nameOf "X"]] ++
          .declare Location.none (.globally true) [nameOf "X"] :: .label Location.none (nameOf "X") :: []) ∧
      ((plainAssembler.assemble Scope.initial ([.data Location.none .bytes [nameOf "X"]] ++
          .label Location.none (nameOf "X") :: .declare Location.none (.globally true) [nameOf "X"] :: [])).scope.root.find?
        "X").map (fun sym => (sym.weak, sym.global)) = some (true, true) :=
  ⟨rfl, rfl, rfl, assemble_declared plainAssembler Scope.initial [.data Location.none .bytes [nameOf "X"]] []
    rfl rfl rfl, by decide +kernel⟩

end Assembler

end MacroAsm
