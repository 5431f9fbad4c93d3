import MacroAsm.Proofs.Assembly.Linkage
import MacroAsm.Proofs.Assembly.Loading

/-!
# The dependencies of a program

What a block loads in its second stage has to come through the third one. It does not if an IF that is decided in
the third stage drops an arm with the dependency, or if END or EXITM comes out of what is expanded there.

`Workbench.runThorough` is the assembly of a block that gives up where a dependency gets lost between the two
stages. A program that is assembled with this care without a failure is assembled in the same way without it
(`Assembler.assemble_eq_assembleThorough`), and gives the dependency on every file that it loads, at top level or in
an arm of an IF (`Assembler.mem_allFiles_of_loads`). It is at top level if no dependency is in an arm only
(`Assembler.Exposes`). A program with neither END, EXITM nor an IF loses none (`Assembler.exposes_of_straight`).
-/

namespace MacroAsm

variable {file : Text} {inMacro : Bool}

open Token (AnyTells)

/-- Where there is no IF, only the dependency on a file tells of it. -/
theorem Token.eq_dependency_of_mem_files {t : Token} (h : t.isStraight = true) (hfile : file ∈ t.files) :
    ∃ loc, t = .dependency loc file := by
  cases t with
  | dependency loc =>
    cases List.mem_singleton.1 hfile
    exact ⟨loc, rfl⟩
  | cond => cases h
  | _ => cases hfile

/-- There is a text that is not in a list, as there are longer ones. -/
theorem Text.exists_notMem (ts : List Text) : ∃ t : Text, t ∉ ts := by
  obtain ⟨n, hn⟩ : ∃ n, ∀ t ∈ ts, t.length < n := by
    induction ts with
    | nil => exact ⟨0, fun _ h => absurd h List.not_mem_nil⟩
    | cons u rest ih =>
      obtain ⟨n, hn⟩ := ih
      refine ⟨max (u.length + 1) n, List.forall_mem_cons.2 ⟨by omega, fun t ht => ?_⟩⟩
      exact (hn t ht).trans_le (Nat.le_max_right _ _)
  refine ⟨⟨List.replicate n 0⟩, fun h => ?_⟩
  have hlt := hn _ h
  rw [Text.length, List.length_replicate] at hlt
  exact Nat.lt_irrefl n hlt

/-- A trail tells of a file. -/
def Trail.Tells (file : Text) (t : Trail) : Prop := AnyTells file t.tokens

/-- A step passes on what tells of a file if it does so with dependencies and IFs. -/
theorem Pass.relays_of_files {p : Pass} (h : ∀ (item : Item) s, file ∈ item.token.files →
      ∃ i s', (p item).exec (Output.empty inMacro, s) = (.ok ⟨⟩, ((Output.empty inMacro).push i, s')) ∧
        i.token = item.token) :
    p.Relays (Token.Tells file) inMacro := by
  intro item s hmessage htells
  rcases htells with hfile | hfails
  · obtain ⟨i, s', hexec, heq⟩ := h item s hfile
    exact ⟨i, s', run_handle_of_ok hmessage hexec, heq⟩
  · rw [Conditional.isMessage_of_fails hfails] at hmessage
    cases hmessage

namespace Stage

variable {p p' last last' : Pass} {passes passes' : List Pass} {f f' : Item → Trail → StateM State Trail}
  {T : Token → Prop}

section Relays

theorem tells_feed (hf : Grows f) {t : Trail} (ht : t.Tells file) (items : List Item) (s : State) :
    ((feed f items t).run s).1.Tells file :=
  ht.mono ((hf.feed items t s).map Item.token).subset

/-- What the items of a list tell of reaches the end, if they are expanded and none before the last is terminal. -/
theorem tells_feed_of_delivers (hf : Delivers inMacro f) (hrelays : Relays (Token.Tells file) f) {items : List Item}
    (hexpanded : ∀ i ∈ items, i.IsExpanded) (hordered : ∀ i ∈ items.dropLast, i.token.isTerminal inMacro = false)
    {t : Trail} (ht : t.stopped = false) (s : State) (h : AnyTells file (items.map Item.token)) :
    ((feed f items t).run s).1.Tells file := by
  induction items generalizing t s with
  | nil =>
    obtain ⟨t', ht', -⟩ := h
    cases ht'
  | cons i rest ih =>
    rw [List.forall_mem_cons] at hexpanded
    rw [run_feed_cons ht rfl]
    obtain ⟨t', ht', htells⟩ := h
    rcases List.mem_cons.1 ht' with rfl | hlater
    · exact tells_feed hf.grows (hrelays i t s ht htells) rest _
    · have hrest : rest ≠ [] := by
        rintro rfl
        cases hlater
      rw [List.dropLast_cons_of_ne_nil hrest, List.forall_mem_cons] at hordered
      cases hstopped : ((f i t).run s).1.stopped with
      | false => exact ih hexpanded.2 hordered.2 hstopped _ ⟨t', hlater, htells⟩
      | true =>
        rcases hf.goesOn i t s hexpanded.1 ht hstopped with hterminal | hfails
        · rw [hordered.1] at hterminal
          cases hterminal
        · exact tells_feed hf.grows (AnyTells.of_fails hfails) rest _

/-- What comes right after the diagnostics that a stage handles first is told of, or one of them is a failure. -/
theorem tells_feed_messages {messages : List Item} (hmessages : ∀ i ∈ messages, i.token.isMessage = true) {i : Item}
    (hi : ∀ t s, t.stopped = false → ((through inMacro last passes i t).run s).1.Tells file) (rest : List Item)
    {t : Trail} (ht : t.stopped = false) (s : State) :
    ((feed (through inMacro last passes) (messages ++ i :: rest) t).run s).1.Tells file := by
  have hgrows := grows_through inMacro last passes
  induction messages generalizing t with
  | nil =>
    rw [List.nil_append, run_feed_cons ht rfl]
    exact tells_feed hgrows (hi t s ht) rest _
  | cons m messages ih =>
    rw [List.forall_mem_cons] at hmessages
    rw [List.cons_append, run_feed_cons ht (run_through_message ht hmessages.1)]
    cases hfails : m.token.fails with
    | true =>
      refine tells_feed hgrows ⟨m.token, ?_, Or.inr hfails⟩ _ s
      rw [Trail.tokens_add]
      exact List.mem_append_right _ List.mem_cons_self
    | false =>
      refine ih hmessages.2 ?_
      rw [Trail.stopped_add, ht, Bool.false_or, Token.isTerminal_of_isMessage hmessages.1]
      refine Bool.eq_false_iff.2 fun hfatal => ?_
      rw [Token.fails_of_isFatal hfatal] at hfails
      cases hfails

end Relays

section Unless

/-- Two ways to handle an item do the same, unless what the first one gives tells of a file. -/
def Unless (file : Text) (f f' : Item → Trail → StateM State Trail) : Prop :=
  ∀ item t s, t.stopped = false → (f' item t).run s = (f item t).run s ∨ ((f item t).run s).1.Tells file

/-- The items of a list are handled one after the other. -/
theorem Unless.feed (hgrows : Grows f) (h : Unless file f f') (items : List Item) (t : Trail) (s : State) :
    (feed f' items t).run s = (feed f items t).run s ∨ ((feed f items t).run s).1.Tells file := by
  induction items generalizing t s with
  | nil => exact Or.inl rfl
  | cons item rest ih =>
    cases hstopped : t.stopped with
    | true => exact Or.inl (by rw [run_feed_of_stopped hstopped, run_feed_of_stopped hstopped])
    | false =>
      rcases hf : (f item t).run s with ⟨t', s'⟩
      rw [run_feed_cons hstopped hf]
      rcases h item t s hstopped with heq | htells
      · rw [run_feed_cons hstopped (heq.trans hf)]
        exact ih t' s'
      · rw [hf] at htells
        exact Or.inr (tells_feed hgrows htells rest s')

/-- The last step. -/
theorem unless_last (h : last.Unless file inMacro last') :
    Unless file (through inMacro last []) (through inMacro last' []) := by
  intro item t s _
  rcases hout : (last.handle inMacro item).run s with ⟨out, s'⟩
  rcases h item s with heq | ⟨htells, -⟩
  · rw [run_through_last hout, run_through_last (heq.trans hout)]
    exact Or.inl rfl
  · rw [hout] at htells
    rw [run_through_last hout]
    refine Or.inr ?_
    rw [Trail.Tells, Trail.tokens_add]
    exact htells.mono (List.subset_append_right _ _)

/-- The steps that follow one that emits the same. -/
theorem Unless.through_cons (h : Unless file (through inMacro last passes) (through inMacro last' passes'))
    {item : Item} {out : Output} {s s' : State} (hout : (p.handle inMacro item).run s = (out, s'))
    (hout' : (p'.handle inMacro item).run s = (out, s')) (t : Trail) :
    (through inMacro last' (p' :: passes') item t).run s = (through inMacro last (p :: passes) item t).run s ∨
      ((through inMacro last (p :: passes) item t).run s).1.Tells file := by
  rw [run_through_cons hout, run_through_cons hout']
  exact (h.feed (grows_through inMacro last passes) out.items t s').imp_left fun heq => by rw [heq]

theorem unless_same (h : Unless file (through inMacro last passes) (through inMacro last' passes')) :
    Unless file (through inMacro last (p :: passes)) (through inMacro last' (p :: passes')) :=
  fun _ t _ _ => h.through_cons rfl rfl t

/-- A step that may tell of a file, before steps that relay what it tells. -/
theorem unless_step (h : p.Unless file inMacro p') (hdelivers : Delivers inMacro (through inMacro last passes))
    (hrelays : Relays (Token.Tells file) (through inMacro last passes))
    (hrest : Unless file (through inMacro last passes) (through inMacro last' passes')) :
    Unless file (through inMacro last (p :: passes)) (through inMacro last' (p' :: passes')) := by
  intro item t s ht
  rcases hout : (p.handle inMacro item).run s with ⟨out, s'⟩
  rcases h item s with heq | ⟨htells, hordered⟩
  · exact hrest.through_cons hout (heq.trans hout) t
  · rw [hout] at htells hordered
    rw [run_through_cons hout]
    refine Or.inr (tells_feed_of_delivers hdelivers hrelays (fun i hi => hordered.holds i (List.mem_reverse.1 hi))
      (fun i hi => ?_) ht s' htells)
    have hi : i ∈ out.reversed.reverse.dropLast := hi
    rw [List.dropLast_reverse, List.mem_reverse] at hi
    exact hordered.before i hi

end Unless

end Stage

namespace Pass

/-- The steps after what can be expanded was expanded pass on what tells of a file. -/
theorem relays_finish (w : Workbench) :
    ∀ q ∈ [Pass.ofToken (Finish.complete w), .expandRest w, .ofToken Finish.relax, .ofToken (Finish.encode w)],
      q.Relays (Token.Tells file) inMacro := by
  simp only [List.forall_mem_cons]
  refine ⟨?_, ?_, ?_, ?_, fun _ h => absurd h List.not_mem_nil⟩
  all_goals
    refine relays_of_files fun item s hfile => ?_
    obtain ⟨token, pending⟩ := item
    cases token with
    | dependency | cond => exact ⟨_, _, rfl, rfl⟩
    | _ => cases hfile

end Pass

namespace Workbench

variable {w : Workbench} {find' : Includer} {other : Option Runner}

/-- The second stage of a block. -/
theorem unless_bindStage (hw : w.Unless file find' other) (items : List Item) (s : State) :
    ((w.including find' other).bindStage items).run s = (w.bindStage items).run s ∨
      ((w.bindStage items).run s).1.Tells file := by
  have hstage : Stage.Unless file (Stage.through w.block.inMacro (.localize w) [.reduceFirst w])
      (Stage.through w.block.inMacro (.localize (w.including find' other)) [.reduceFirst w]) :=
    Stage.unless_same (Stage.unless_last (Pass.unless_localize hw))
  exact hstage.feed (Stage.grows_through _ _ _) _ Trail.empty s

/-- The third stage of a block. -/
theorem unless_finishStage (hw : w.Unless file find' other) (items : List Item) (s : State) :
    ((w.including find' other).finishStage items).run s = (w.finishStage items).run s ∨
      ((w.finishStage items).run s).1.Tells file := by
  have hrelays := @Pass.relays_finish file w.block.inMacro w
  have hrest : Stage.Unless file
      (Stage.through w.block.inMacro (.ofToken (Finish.complete w))
        [.expandRest w, .ofToken Finish.relax, .ofToken (Finish.encode w)])
      (Stage.through w.block.inMacro (.ofToken (Finish.complete w))
        [.expandRest (w.including find' other), .ofToken Finish.relax, .ofToken (Finish.encode w)]) := by
    refine Stage.unless_step (Pass.unless_expandRest hw) (Stage.delivers_finish w)
      (Stage.relays_through fun q hq => hrelays q ?_) fun _ _ _ _ => Or.inl rfl
    rcases List.mem_cons.1 hq with rfl | hq
    · exact List.mem_cons_self
    · exact List.mem_cons_of_mem _ (List.mem_cons_of_mem _ hq)
  have hstage := Stage.unless_same (p := .reduceAgain w) (Stage.unless_step (Pass.unless_localize hw)
    (Stage.delivers_expandRest w) (Stage.relays_through hrelays) hrest)
  exact hstage.feed (Stage.grows_through _ _ _) _ Trail.empty s

/-- A block that begins with the dependency on a file tells of it after the second stage. -/
theorem tells_bindStage (w : Workbench) (loc : Location) (rest : List Token) (s s' : State) :
    ((w.bindStage ((w.declareStage (.dependency loc file :: rest)).run s).1.items).run s').1.Tells file := by
  -- the dependency is the first item that the first stage gives
  have hfirst : [Item.settled (.dependency loc file)] <+:
      ((w.declareStage (.dependency loc file :: rest)).run s).1.items := by
    have hhandle : ((Pass.ofToken (Declare.declareGlobals w)).handle w.block.inMacro
        (.settled (.dependency loc file))).run s =
          ((Output.empty w.block.inMacro).push (.settled (.dependency loc file)), s) := rfl
    rw [declareStage, Stage.run, List.map_cons, Stage.run_feed_cons rfl (Stage.run_through_last hhandle)]
    refine List.IsPrefix.trans ?_ (Stage.Grows.feed (Stage.grows_through _ _ _) _ _ _)
    exact List.prefix_rfl
  obtain ⟨more, hmore⟩ := hfirst
  rw [← hmore]
  have hfilter : Stage.messagesFirst ([Item.settled (.dependency loc file)] ++ more) =
      more.filter (fun i => i.token.isMessage) ++
        Item.settled (.dependency loc file) :: more.filter fun i => !i.token.isMessage := by
    simp [Stage.messagesFirst, Item.settled, Token.isMessage]
  rw [bindStage, Stage.run, hfilter]
  refine Stage.tells_feed_messages (fun i hi => (List.mem_filter.1 hi).2) (fun t s ht => ?_) _ rfl s'
  -- both steps pass it on
  have hrelays : Stage.Relays (· = .dependency loc file)
      (Stage.through w.block.inMacro (.localize w) [.reduceFirst w]) := by
    refine Stage.relays_through ?_
    simp only [List.forall_mem_cons]
    refine ⟨?_, ?_, fun _ h => absurd h List.not_mem_nil⟩
    all_goals
      rintro ⟨token, pending⟩ s hmessage rfl
      exact ⟨_, _, Pass.run_handle_of_ok hmessage rfl, rfl⟩
  obtain ⟨t', ht', rfl⟩ := hrelays (.settled (.dependency loc file)) t s ht rfl
  exact ⟨_, ht', Or.inl List.mem_cons_self⟩

/-- Whether a dependency in some tokens is in none of others. -/
def drops (before after : List Token) : Bool :=
  (Token.allFiles before).any fun file => !(Token.allFiles after).contains file

/-- What is reported where a dependency gets lost. -/
def dropped : Diagnostic := .fatal Location.none "A dependency is lost"

/-- Assembles the statements of a block, and gives the block up if a dependency that it has after the second stage
is lost after the third one, unless that ends with a fatal diagnostic. -/
def runThorough (w : Workbench) (source : List Token) : StateM State Trail := do
  let declared ← w.declareStage source
  let bound ← w.bindStage declared.items
  let trail ← w.finishStage bound.items
  if drops bound.tokens trail.tokens && !trail.tokens.any Token.isFatal then
    return Trail.empty.add ⟨[.message dropped], true, ← get⟩
  else return trail

/-- What is assembled thoroughly. -/
theorem run_runThorough (w : Workbench) (source : List Token) {s : State} {declared bound trail : Trail × State}
    (hdeclared : (w.declareStage source).run s = declared)
    (hbound : (w.bindStage declared.1.items).run declared.2 = bound)
    (htrail : (w.finishStage bound.1.items).run bound.2 = trail) :
    (w.runThorough source).run s =
      if drops bound.1.tokens trail.1.tokens && !trail.1.tokens.any Token.isFatal then
        (Trail.empty.add ⟨[.message dropped], true, trail.2⟩, trail.2)
      else trail := by
  rw [runThorough, StateM.run_bind, hdeclared, StateM.run_bind, hbound, StateM.run_bind, htrail]
  split <;> rfl

theorem tells_dropped (s : State) : (Trail.empty.add ⟨[.message dropped], true, s⟩).Tells file :=
  ⟨.message dropped, List.mem_cons_self, Or.inr rfl⟩

/-- What a block tells of after its second stage it tells of in the end. -/
theorem tells_runThorough {source : List Token} {s : State} {declared bound : Trail × State}
    (hdeclared : (w.declareStage source).run s = declared)
    (hbound : (w.bindStage declared.1.items).run declared.2 = bound) (h : bound.1.Tells file) :
    ((w.runThorough source).run s).1.Tells file := by
  rw [run_runThorough w source hdeclared hbound rfl]
  split
  · exact tells_dropped _
  · rename_i hdrops
    obtain ⟨t, ht, hfile | hfails⟩ := h
    · rw [Bool.and_eq_true, not_and, Bool.not_eq_true', Bool.not_eq_false] at hdrops
      by_cases hkept : drops bound.1.tokens ((w.finishStage bound.1.items).run bound.2).1.tokens = true
      · obtain ⟨t', ht', hfatal⟩ := List.any_eq_true.1 (hdrops hkept)
        exact AnyTells.of_fails ⟨t', ht', Token.fails_of_isFatal hfatal⟩
      · rw [Bool.not_eq_true, drops, List.any_eq_false] at hkept
        have hmem := hkept file (Token.mem_allFiles.2 ⟨t, ht, hfile⟩)
        rw [Bool.not_eq_true', Bool.not_eq_false, List.contains_iff_mem] at hmem
        exact AnyTells.of_files hmem
    · exact AnyTells.of_fails (Stage.fails_run ⟨t, ht, hfails⟩ _)

section Straight

open Grammar (uniform Straight)

/-- Without END, EXITM and IF no dependency gets lost. -/
theorem run_runThorough_straight {hear : Hearing} (hw : w.Accounts True (uniform Straight fun _ => True) hear)
    (h : Option.Rel (uniform Straight fun _ => True).Agree w.runner other) {source : List Token}
    (hsource : ∀ t ∈ source, Straight t) {s : State} (hs : (uniform Straight fun _ => True).Sound s.scope) :
    (Workbench.runThorough { w with runner := other } source).run s = (w.run source).run s := by
  obtain ⟨declared, bound, hdeclared, hbound, htrail, hstraight, hkept⟩ := exists_stages_straight hw h hsource hs
  rw [run_runThorough _ source hdeclared hbound htrail]
  refine if_neg fun hlost => ?_
  rw [Bool.and_eq_true, Bool.not_eq_true', drops, List.any_eq_true] at hlost
  obtain ⟨⟨file, hfile, hmissing⟩, hcalm⟩ := hlost
  obtain ⟨t, ht, htells⟩ := Token.mem_allFiles.1 hfile
  obtain ⟨loc, rfl⟩ := Token.eq_dependency_of_mem_files (Token.of_everywhere (hstraight t ht)) htells
  rw [Bool.not_eq_true', List.contains_eq_mem, decide_eq_false_iff_not] at hmissing
  exact hmissing (Token.mem_allFiles.2 ⟨_, hkept hcalm _ ht rfl, htells⟩)

end Straight

/-- Assembling a block thoroughly. -/
theorem unless_run (hw : w.Unless file find' other) (source : List Token) (s : State) :
    ((w.including find' other).run source).run s = (w.runThorough source).run s ∨
      ((w.runThorough source).run s).1.Tells file := by
  rcases hdeclared : (w.declareStage source).run s with ⟨declared, s₁⟩
  rcases hbound : (w.bindStage declared.items).run s₁ with ⟨bound, s₂⟩
  have hbind := unless_bindStage hw declared.items s₁
  rw [hbound] at hbind
  rcases hbind with heq | htells
  · rcases htrail : (w.finishStage bound.items).run s₂ with ⟨trail, s₃⟩
    have hfinish := unless_finishStage hw bound.items s₂
    have hsame : ((w.including find' other).declareStage source).run s = (declared, s₁) := hdeclared
    rw [htrail] at hfinish
    rw [run, StateM.run_bind, hsame, StateM.run_bind, heq, run_runThorough w source hdeclared hbound htrail]
    split
    · exact Or.inr (tells_dropped _)
    · exact hfinish
  · exact Or.inr (tells_runThorough hdeclared hbound htells)

theorem tells_of_dependency (w : Workbench) (loc : Location) (rest : List Token) (s : State) :
    ((w.runThorough (.dependency loc file :: rest)).run s).1.Tells file :=
  tells_runThorough rfl rfl (tells_bindStage w loc rest s _)

/-- A block that is assembled thoroughly leaves nothing to be expanded, and no item before the last that is
terminal. -/
theorem runThorough_finishes (hw : w.Finishes) (source : List Token) (s : State) :
    (∀ t ∈ ((w.runThorough source).run s).1.tokens, t.isExpanded = true) ∧
      w.block.Orders ((w.runThorough source).run s).1.tokens := by
  rw [run_runThorough w source rfl rfl rfl]
  split
  · exact ⟨List.forall_mem_singleton.2 rfl, fun _ ht => absurd ht List.not_mem_nil⟩
  · refine ⟨List.forall_mem_map.2 (hw.isExpanded_of_mem_finishStage _ _), ?_⟩
    rw [Block.Orders, Trail.tokens, ← List.map_dropLast]
    exact List.forall_mem_map.2 (ordered_finishStage w _ _).before

end Workbench

namespace Assembler

variable {a : Assembler} {scope : Scope} {source : List Token}

/-- Assembles nested blocks thoroughly. -/
def runnerThorough (a : Assembler) : Nat → Option Runner
  | 0 => none
  | depth + 1 => some fun b source => shield (Workbench.runThorough ⟨a, b, a.runnerThorough depth⟩ source)

/-- Nested blocks are assembled in the same way with other included files, unless they tell of a file. -/
theorem unless_runner {find find' : Includer} (hfind : a.includer = some find) (hapart : find.Apart file find')
    (depth : Nat) (b : Block) :
    Workbench.Unless file ⟨a, b, a.runnerThorough depth⟩ find' ((a.including find').runner depth) := by
  refine ⟨⟨find, hfind, hapart⟩, ?_⟩
  induction depth generalizing b with
  | zero => exact nofun
  | succ depth hnested =>
    have ih : ∀ b, Workbench.Unless file ⟨a, b, a.runnerThorough depth⟩ find' ((a.including find').runner depth) :=
      fun b => ⟨⟨find, hfind, hapart⟩, hnested b⟩
    intro run hrun
    rw [runnerThorough, Option.some.injEq] at hrun
    refine ⟨_, runner_succ (a.including find') depth, ?_⟩
    subst hrun
    have htokens : ∀ (x : StateM State Trail) s,
        ((shield x).run s).1 = (x.run { s with bankSwitched := false }).1.tokens :=
      fun x s => by rw [shield, run_shielded]
    refine ⟨fun b body s => ?_, fun b loc rest s => ?_, fun b body s => ?_, fun b body s => ?_⟩
    · have hunless := Workbench.unless_run (ih b) body { s with bankSwitched := false }
      rw [htokens]
      refine hunless.imp_left fun heq => ?_
      have hsame : (Workbench.run ⟨a.including find', b, (a.including find').runner depth⟩ body).run
          { s with bankSwitched := false } = _ := heq
      rw [shield, shield, run_shielded, run_shielded, hsame]
    · rw [htokens]
      exact Workbench.tells_of_dependency _ loc rest _
    · rw [htokens]
      exact (Workbench.runThorough_finishes (ih b).finishes body _).1
    · rw [htokens]
      exact (Workbench.runThorough_finishes (ih b).finishes body _).2

/-- Assembles a program over a root scope thoroughly. -/
def assembleThorough (a : Assembler) (scope : Scope) (source : List Token) : Assembly :=
  let start := Assembler.start scope
  let (trail, s) := (Workbench.runThorough ⟨a, a.outermost, a.runnerThorough a.maxDepth⟩ source).run start
  let (closing, final) :=
    if trail.tokens.any Token.isFatal then ([], s) else (account false).run s
  ⟨start, trail.batches, closing, final⟩

/-- A program is assembled in the same way with other included files, unless it tells of a file. -/
theorem unless_assemble {find find' : Includer} (hfind : a.includer = some find) (hapart : find.Apart file find')
    (scope : Scope) (source : List Token) :
    (a.including find').assemble scope source = a.assembleThorough scope source ∨
      AnyTells file (a.assembleThorough scope source).tokens := by
  have hunless := Workbench.unless_run (unless_runner hfind hapart a.maxDepth a.outermost) source (start scope)
  rw [assemble, assembleThorough]
  rcases hr : (Workbench.runThorough ⟨a, a.outermost, a.runnerThorough a.maxDepth⟩ source).run (start scope) with
    ⟨trail, s⟩
  rw [hr] at hunless
  refine hunless.imp (fun heq => ?_) fun htells => ?_
  · have hrun : (Workbench.run ⟨a.including find', (a.including find').outermost,
        (a.including find').runner (a.including find').maxDepth⟩ source).run (start scope) = (trail, s) := heq
    rw [hrun]
  · rw [Assembly.tokens, Trail.tokens_eq_flatMap]
    exact htells.mono (List.subset_append_left _ _)

/-- A program that is assembled thoroughly without a failure is assembled in the same way otherwise. -/
theorem assemble_eq_assembleThorough {find : Includer} (hfind : a.includer = some find)
    (hclean : ∀ t ∈ (a.assembleThorough scope source).tokens, t.fails = false) :
    a.assemble scope source = a.assembleThorough scope source := by
  -- it tells nothing of a file that no dependency names
  obtain ⟨fresh, hfresh⟩ := Text.exists_notMem (Token.allFiles (a.assembleThorough scope source).tokens)
  have hsame : a.including find = a := by rw [including, ← hfind]
  have hapart : find.Apart fresh find := fun _ _ _ => Or.inl rfl
  have hunless := unless_assemble hfind hapart scope source
  rw [hsame] at hunless
  refine hunless.resolve_right ?_
  rintro ⟨t, ht, hfile | hfails⟩
  · exact hfresh (Token.mem_allFiles.2 ⟨t, ht, hfile⟩)
  · rw [hclean t ht] at hfails
    cases hfails

/-- A program that is assembled thoroughly without a failure gives the dependency on every file that it loads. -/
theorem mem_allFiles_of_loads (hclean : ∀ t ∈ (a.assembleThorough scope source).tokens, t.fails = false)
    (h : a.Loads scope source file) : file ∈ Token.allFiles (a.assemble scope source).tokens := by
  obtain ⟨find, find', hfind, hapart, hne⟩ := h
  rw [assemble_eq_assembleThorough hfind hclean] at hne ⊢
  rcases unless_assemble hfind hapart scope source with heq | ⟨t, ht, hfile | hfails⟩
  · rw [heq] at hne
    exact absurd rfl hne
  · exact Token.mem_allFiles.2 ⟨t, ht, hfile⟩
  · rw [hclean t ht] at hfails
    cases hfails

/-- No dependency of a program gets lost on the way to the top level of its output. -/
structure Exposes (a : Assembler) (scope : Scope) (source : List Token) : Prop where
  /-- None is lost between the stages of a block. -/
  kept : ∀ t ∈ (a.assembleThorough scope source).tokens, t.fails = false
  /-- Each one in an arm of an IF that is left to the linker is at top level too. -/
  lifted : ∀ file ∈ Token.allFiles (a.assemble scope source).tokens,
    ∃ loc, .dependency loc file ∈ (a.assemble scope source).tokens

theorem Exposes.exists_dependency (h : a.Exposes scope source) (hloads : a.Loads scope source file) :
    ∃ loc, .dependency loc file ∈ (a.assemble scope source).tokens :=
  h.lifted file (mem_allFiles_of_loads h.kept hloads)

section Straight

open Grammar

/-- A program with neither END, EXITM nor an IF in it is assembled thoroughly as it is otherwise. -/
theorem assembleThorough_eq (haccepts : a.Accepts scope source) (h : a.Throughout Token.isStraight scope source) :
    a.assembleThorough scope source = a.assemble scope source := by
  have hw : ∀ b depth, Workbench.Accounts True (uniform Straight fun _ => True) ⟨a, b, a.runner depth⟩
      (a.hear depth) :=
    accounts_runner closed_straight (fun _ => uncut_straight) h.includer
  have hagree : Option.Rel (uniform Straight fun _ => True).Agree (a.runner a.maxDepth)
      (a.runnerThorough a.maxDepth) :=
    Grammar.agree_runner rfl (fun _ => rfl) (fun b depth ih _ hbody _ hs =>
      Workbench.run_runThorough_straight (hw b depth) ih hbody hs) a.maxDepth
  have hrun : (Workbench.runThorough ⟨a, a.outermost, a.runnerThorough a.maxDepth⟩ source).run (start scope) =
      (Workbench.run ⟨a, a.outermost, a.runner a.maxDepth⟩ source).run (start scope) :=
    Workbench.run_runThorough_straight (hw a.outermost a.maxDepth) hagree h.source (sound_of_macros haccepts h.macros)
  rewrite [assembleThorough, assemble, hrun]
  generalize (Workbench.run ⟨a, a.outermost, a.runner a.maxDepth⟩ source).run (start scope) = r
  rfl

/-- A program with neither END, EXITM nor an IF in it loses no dependency, if no failure is reported. -/
theorem exposes_of_straight (haccepts : a.Accepts scope source) (h : a.Throughout Token.isStraight scope source)
    (hclean : ∀ t ∈ (a.assemble scope source).tokens, t.fails = false) : a.Exposes scope source where
  kept := by rwa [assembleThorough_eq haccepts h]
  lifted file hfile := by
    have hw : (uniform Straight fun _ => True).Equips ⟨a, a.outermost, a.runner a.maxDepth⟩ :=
      closed_straight.equips h.includer a.outermost a.maxDepth
    rw [runner_eq] at hw
    have houtput := (leads_assembleWith_of_sound closed_straight.message (closed_straight.assembles hw) h.source
      (sound_of_macros haccepts h.macros)).2
    rw [← assemble_eq] at houtput
    obtain ⟨t, ht, htells⟩ := Token.mem_allFiles.1 hfile
    obtain ⟨loc, rfl⟩ := Token.eq_dependency_of_mem_files (Token.of_everywhere (houtput t ht)) htells
    exact ⟨loc, ht⟩

end Straight

end Assembler

end MacroAsm
