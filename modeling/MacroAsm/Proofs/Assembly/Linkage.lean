import MacroAsm.Proofs.Assembly.Carriage
import MacroAsm.Proofs.Assembly.StandIn
import MacroAsm.Proofs.Assembly.Surfacing

/-!
# Every label that is referred to is placed

A block binds its labels in the second stage, and their places have to come through the third one. They do not if
an IF that is decided in the third stage drops an arm with labels, or if END or EXITM comes out of what is expanded
there: then references may be left to a label that is nowhere (`Assembler.exists_unplaced`).

`Workbench.runWatched` is the assembly of a block that gives up where labels get lost between the two stages. A
program that is assembled in the same way under this watch, without a failure, refers to no label that it does not
place. No label is placed twice in any program (`Assembler.assemble_linked`).

Without END, EXITM and IF the third stage of a block passes on every place, so that a program with none of them is
assembled in the same way under this watch (`Assembler.placed_of_straight`).
-/

namespace MacroAsm

open Snapshot (Leads)
open Emission (Emits)

variable {naming : Naming} {A C : (Text → Prop) → Prop} {D : Text → Prop} {inMacro : Bool} {w : Workbench}

theorem Trail.tokens_add (t : Trail) (b : Batch) : (t.add b).tokens = t.tokens ++ b.tokens := by
  rw [tokens, items_add, List.map_append]
  rfl

/-- A step passes on a token with a property. -/
def Pass.Relays (T : Token → Prop) (inMacro : Bool) (p : Pass) : Prop :=
  ∀ item s, item.token.isMessage = false → T item.token →
    ∃ i s', (p.handle inMacro item).run s = ((Output.empty inMacro).push i, s') ∧ i.token = item.token

namespace Stage

variable {p last : Pass} {passes : List Pass} {T : Token → Prop} {f : Item → Trail → StateM State Trail}

/-- A token with a property reaches the end of a stage. -/
def Relays (T : Token → Prop) (f : Item → Trail → StateM State Trail) : Prop :=
  ∀ (item : Item) t s, t.stopped = false → T item.token → ∃ t' ∈ ((f item t).run s).1.tokens, T t'

/-- What is passed on by every step reaches the end. -/
theorem relays_through (h : ∀ q ∈ last :: passes, q.Relays T inMacro) : Relays T (through inMacro last passes) := by
  intro item t s ht hT
  induction passes generalizing item t s with
  | nil =>
    cases hmessage : item.token.isMessage with
    | true =>
      rw [run_through_message ht hmessage, Trail.tokens_add]
      exact ⟨_, List.mem_append_right _ List.mem_cons_self, hT⟩
    | false =>
      obtain ⟨i, s', hrun, heq⟩ := h last List.mem_cons_self item s hmessage hT
      rw [run_through_last hrun, Trail.tokens_add]
      exact ⟨i.token, List.mem_append_right _ List.mem_cons_self, by rwa [heq]⟩
  | cons p passes ih =>
    cases hmessage : item.token.isMessage with
    | true =>
      rw [run_through_message ht hmessage, Trail.tokens_add]
      exact ⟨_, List.mem_append_right _ List.mem_cons_self, hT⟩
    | false =>
      obtain ⟨i, s', hrun, heq⟩ := h p (List.mem_cons_of_mem _ List.mem_cons_self) item s hmessage hT
      rw [run_through_push ht hrun]
      refine ih (fun q hq => h q ?_) i t s' ht (by rwa [heq])
      rcases List.mem_cons.1 hq with rfl | hq
      · exact List.mem_cons_self
      · exact List.mem_cons_of_mem _ (List.mem_cons_of_mem _ hq)

/-- What is passed on reaches the end of a stage that goes on to its end. -/
theorem Relays.feed (hgrows : Grows f) (hrelays : Relays T f) {items : List Item} {t : Trail} {s : State}
    (hopen : ((feed f items t).run s).1.stopped = false) (h : ∃ i ∈ items, T i.token) :
    ∃ t' ∈ ((feed f items t).run s).1.tokens, T t' := by
  induction items generalizing t s with
  | nil =>
    obtain ⟨i, hi, -⟩ := h
    cases hi
  | cons item rest ih =>
    cases ht : t.stopped with
    | true =>
      rw [run_feed_of_stopped ht, ht] at hopen
      cases hopen
    | false =>
      rw [run_feed_cons ht rfl] at hopen ⊢
      obtain ⟨i, hi, hT⟩ := h
      rcases List.mem_cons.1 hi with rfl | hi
      · obtain ⟨t', ht', hT'⟩ := hrelays i t s ht hT
        exact ⟨t', ((hgrows.feed rest _ _).map Item.token).subset ht', hT'⟩
      · exact ih hopen ⟨i, hi, hT⟩

/-- Putting the diagnostics first keeps the places. -/
theorem count_allPlaces_messagesFirst (items : List Item) (id : Text) :
    (Token.allPlaces ((messagesFirst items).map Item.token)).count id =
      (Token.allPlaces (items.map Item.token)).count id := by
  have hperm : (messagesFirst items).Perm items := List.filter_append_perm (fun i : Item => i.token.isMessage) items
  rw [Token.allPlaces_eq_flatMap, Token.allPlaces_eq_flatMap]
  exact ((hperm.map Item.token).flatMap_right Token.places).count_eq id

/-- A failure among the diagnostics that a stage handles first stays. -/
theorem fails_feed_messages {messages : List Item} (hmessages : ∀ i ∈ messages, i.token.isMessage = true)
    (h : ∃ i ∈ messages, i.token.fails = true) (rest : List Item) {t : Trail} (ht : t.stopped = false) (s : State) :
    ∃ i ∈ ((feed (through inMacro last passes) (messages ++ rest) t).run s).1.items, i.token.fails = true := by
  induction messages generalizing t with
  | nil =>
    obtain ⟨i, hi, -⟩ := h
    cases hi
  | cons m messages ih =>
    rw [List.forall_mem_cons] at hmessages
    rw [List.cons_append, run_feed_cons ht (run_through_message ht hmessages.1)]
    have hlast : m ∈ (t.add ⟨[m], m.token.isTerminal inMacro, s⟩).items := by
      rw [Trail.items_add]
      exact List.mem_append_right _ List.mem_cons_self
    -- the stage goes on, unless this one fails the run
    cases hfails : m.token.fails with
    | true => exact fails_feed (grows_through inMacro last passes) ⟨m, hlast, hfails⟩ _ s
    | false =>
      refine ih hmessages.2 ?_ ?_
      · obtain ⟨i, hi, hfail⟩ := h
        rcases List.mem_cons.1 hi with rfl | hi
        · rw [hfails] at hfail
          cases hfail
        · exact ⟨i, hi, hfail⟩
      · rw [Trail.stopped_add, ht, Bool.false_or, Token.isTerminal_of_isMessage hmessages.1]
        refine Bool.eq_false_iff.2 fun hfatal => ?_
        rw [Token.fails_of_isFatal hfatal] at hfails
        cases hfails

/-- A failure that is among the items of a stage is among what it gives. -/
theorem fails_run {items : List Item} (h : ∃ t ∈ items.map Item.token, t.fails = true) (s : State) :
    ∃ t ∈ ((run inMacro passes last (messagesFirst items)).run s).1.tokens, t.fails = true := by
  obtain ⟨t, ht, hfails⟩ := h
  obtain ⟨i, hi, rfl⟩ := List.mem_map.1 ht
  have hmessage := Conditional.isMessage_of_fails hfails
  obtain ⟨j, hj, hfail⟩ := fails_feed_messages (t := Trail.empty) (fun i hi => (List.mem_filter.1 hi).2)
    ⟨i, List.mem_filter.2 ⟨hi, hmessage⟩, hfails⟩ (items.filter fun i => !i.token.isMessage) rfl s
  exact ⟨j.token, List.mem_map_of_mem hj, hfail⟩

/-- What a stage gives of a list of items. -/
theorem Carries.run (hcarries : Carries naming A (through inMacro last passes)) (items : List Item) (s : State) :
    Leads naming (Token.allPlaces (items.map Item.token)) (fun D => A D ∧ ∀ t ∈ items.map Item.token, t.Within D)
      (fun _ => True) ([], s) (((run inMacro passes last (messagesFirst items)).run s).1.tokens,
        ((run inMacro passes last (messagesFirst items)).run s).2) := by
  have hfeed := hcarries.feed (messagesFirst items) Trail.empty s
  refine (hfeed.afford fun id => Nat.le_of_eq (count_allPlaces_messagesFirst items id)).imp (fun D h => ⟨h.1, ?_⟩)
    fun _ h => h
  exact fun i hi => h.2 i.token (List.mem_map_of_mem (mem_messagesFirst.1 hi))

end Stage

namespace Workbench

/-- The first stage gives statements as they are written, and diagnostics. -/
theorem mem_declareStage {source : List Token} (hsource : ∀ t ∈ source, t.isOriginal = true) (s : State) :
    ∀ t ∈ ((w.declareStage source).run s).1.tokens, t.isMessage = true ∨ t.isOriginal = true := by
  have hR : Progress fun _ _ => True := ⟨fun _ => trivial, fun _ _ _ _ _ => trivial⟩
  have hstable : ∀ P : Item → Prop, Stable (fun _ _ => True) fun _ => P := fun _ _ _ _ _ h => h
  have hmaps : (Pass.ofToken (Declare.declareGlobals w)).Maps (fun _ _ => True) w.block.inMacro
      (fun _ i => i.token.isOriginal = true) fun _ i => i.token.isMessage = true ∨ i.token.isOriginal = true := by
    intro item s hitem
    refine ⟨trivial, fun i hi => ?_⟩
    have hordered : (((Pass.ofToken (Declare.declareGlobals w)).handle w.block.inMacro item).run s).1.Ordered
        w.block.inMacro fun i => i.token.isMessage = true ∨ i.token = item.token := by
      rw [Pass.handle]
      split
      · exact Output.Ordered.empty.push (Or.inr rfl)
      · have hemits : Emits w.block.inMacro (fun i => i.token.isMessage = true ∨ i.token = item.token)
            (Declare.declareGlobals w item.token) := Declare.emits_declareGlobals (fun _ => Or.inl) fun _ => Or.inr rfl
        have hafter := hemits (Output.empty w.block.inMacro, s) .empty
        rw [Emission.run_output]
        rcases hexec : (Declare.declareGlobals w item.token).exec (Output.empty w.block.inMacro, s) with ⟨r, q⟩
        rw [hexec] at hafter
        rw [Pass.ofToken, hexec]
        cases r with
        | ok _ => exact hafter
        | error f => exact hafter.push (Or.inl rfl)
    refine (hordered.holds i (List.mem_reverse.1 hi)).imp_right fun heq => ?_
    rw [heq]
    exact hitem
  have hitems : ∀ i ∈ source.map Item.settled, i.token.isOriginal = true := List.forall_mem_map.2 hsource
  have hmapped := (Stage.run_maps (s := s) hR (hstable _) (hstable _) (.last hmaps) hitems).2
  exact List.forall_mem_map.2 hmapped

/-- The first stage makes no label. -/
theorem leads_declareStage (w : Workbench) (source : List Token) (s : State) :
    Leads w.assembler.naming (Token.allPlaces source) (fun D => A D ∧ ∀ t ∈ source, t.Within D) (fun _ => True) ([], s)
      (((w.declareStage source).run s).1.tokens, ((w.declareStage source).run s).2) := by
  have hcarries : Stage.Carries w.assembler.naming A
      (Stage.through w.block.inMacro (.ofToken (Declare.declareGlobals w)) []) := by
    refine Stage.carries_last fun item s => ?_
    cases hmessage : item.token.isMessage with
    | true => exact (Pass.Keeps.of_isMessage hmessage).leads
    | false => exact Pass.leads_of_traces hmessage (Declare.traces_declareGlobals item.token)
  have hfeed := hcarries.feed (source.map .settled) Trail.empty s
  rw [List.map_map, show Item.token ∘ Item.settled = id from rfl, List.map_id] at hfeed
  exact hfeed.imp (fun D h => ⟨h.1, List.forall_mem_map.2 h.2⟩) fun _ h => h

/-- The second stage makes labels, and refers to what is placed. -/
theorem leads_bindStage (hw : w.Places C) (hA : ∀ D, A D → C D ∧ ∀ a ∈ w.around.args, a.Within D)
    (items : List Item) (s : State) :
    Leads w.assembler.naming (Token.allPlaces (items.map Item.token))
      (fun D => A D ∧ ∀ t ∈ items.map Item.token, t.Within D)
      (fun _ => True) ([], s) (((w.bindStage items).run s).1.tokens, ((w.bindStage items).run s).2) := by
  have hfirst : ∀ item s, (Pass.reduceFirst w).Keeps A w.block.inMacro item s :=
    Pass.keeps_reduceFirst fun D h => (hA D h).2
  refine (Stage.carries_step (fun item s => Or.inl (hfirst item s)) (Or.inl hfirst) ?_).run items s
  exact Stage.carries_last fun item s => (Pass.makes_localize hw hA item s).leads

/-- The third stage makes labels, and refers to what is placed. -/
theorem leads_finishStage (hw : w.Places C) (hA : ∀ D, A D → C D ∧ ∀ a ∈ w.around.args, a.Within D)
    (items : List Item) (s : State) :
    Leads w.assembler.naming (Token.allPlaces (items.map Item.token))
      (fun D => A D ∧ ∀ t ∈ items.map Item.token, t.Within D)
      (fun _ => True) ([], s) (((w.finishStage items).run s).1.tokens, ((w.finishStage items).run s).2) := by
  have hagain : ∀ item s, (Pass.reduceAgain w).Keeps A w.block.inMacro item s :=
    Pass.keeps_reduceAgain fun D h => (hA D h).2
  have hrelax : ∀ item s, (Pass.ofToken Finish.relax).Keeps A w.block.inMacro item s := Pass.keeps_relax
  have hencode : ∀ item s, (Pass.ofToken (Finish.encode w)).Keeps A w.block.inMacro item s := Pass.keeps_encode w
  refine (Stage.carries_step (fun item s => Or.inl (hagain item s)) (Or.inl hagain) ?_).run items s
  refine Stage.carries_step (Pass.makes_localize hw hA) (Or.inr (Stage.delivers_expandRest w)) ?_
  refine Stage.carries_step (Pass.makes_expandRest hw hA) (Or.inr (Stage.delivers_finish w)) ?_
  refine Stage.carries_step (fun item s => Or.inl (hrelax item s)) (Or.inl hrelax) ?_
  refine Stage.carries_step (fun item s => Or.inl (hencode item s)) (Or.inl hencode) ?_
  exact Stage.carries_last fun item s => (Pass.keeps_complete w item s).leads

/-- Whether labels of some tokens have no place among others. -/
def loses (before after : List Token) : Bool :=
  (Token.allPlaces before).any fun id => !(Token.allPlaces after).contains id

/-- What is reported where a label gets lost. -/
def lost : Diagnostic := .fatal Location.none "A label is not placed"

/-- Assembles the statements of the block. Under watch the block is given up if a label that was bound in the second
stage is not placed after the third one, unless that ends with a fatal diagnostic. -/
def runWatched (watch : Bool) (w : Workbench) (source : List Token) : StateM State Trail := do
  let declared ← w.declareStage source
  let bound ← w.bindStage declared.items
  let trail ← w.finishStage bound.items
  if watch && loses bound.tokens trail.tokens && !trail.tokens.any Token.isFatal then
    return Trail.empty.add ⟨[.message lost], true, ← get⟩
  else return trail

/-- Assembling a block is assembling it without watch. -/
theorem run_eq_runWatched (w : Workbench) (source : List Token) : w.run source = w.runWatched false source := by
  rw [run, runWatched]
  refine congrArg (_ >>= ·) (funext fun declared => congrArg (_ >>= ·) (funext fun bound => ?_))
  exact (bind_pure _).symm

/-- What is assembled under watch. -/
theorem run_runWatched (watch : Bool) (w : Workbench) (source : List Token) {s : State}
    {declared bound trail : Trail × State} (hdeclared : (w.declareStage source).run s = declared)
    (hbound : (w.bindStage declared.1.items).run declared.2 = bound)
    (htrail : (w.finishStage bound.1.items).run bound.2 = trail) :
    (w.runWatched watch source).run s =
      if watch && loses bound.1.tokens trail.1.tokens && !trail.1.tokens.any Token.isFatal then
        (Trail.empty.add ⟨[.message lost], true, trail.2⟩, trail.2)
      else trail := by
  rw [runWatched, StateM.run_bind, hdeclared, StateM.run_bind, hbound, StateM.run_bind, htrail]
  split <;> rfl

/-- The properties of labels that a run tells of: without watch it is only the one that all labels have. -/
def Regards (watch : Bool) (D : Text → Prop) : Prop := watch = false → D = fun _ => True

/-- What is known before a block is assembled. -/
structure Supposes (watch : Bool) (w : Workbench) (source : List Token) (D : Text → Prop) : Prop where
  /-- The block is made of statements as they are written. -/
  source : ∀ t ∈ source, t.isOriginal = true
  /-- The run tells of the property. -/
  regards : Regards watch D
  /-- The arguments of the macro call. -/
  args : ∀ a ∈ w.around.args, a.Within D

/-- What tells of a label without a property before the third stage tells it after it, unless a label is lost. -/
theorem escapes_of_not_loses {watch : Bool} (hregards : Regards watch D) {bound trail : List Token}
    (hloses : (watch && loses bound trail && !trail.any Token.isFatal) = false)
    (hfails : (∃ t ∈ bound, t.fails = true) → ∃ t ∈ trail, t.fails = true) (h : Escapes D bound) : Escapes D trail := by
  cases watch with
  | false =>
    rw [hregards rfl] at h
    exact absurd h not_escapes_true
  | true =>
    obtain ⟨id, hid, hplace | hfail⟩ := h
    · rw [Bool.true_and, Bool.and_eq_false_iff, Bool.not_eq_false', loses, List.any_eq_false] at hloses
      rcases hloses with hloses | hfatal
      · have hkept := hloses id hplace
        rw [Bool.not_eq_true', Bool.not_eq_false, List.contains_iff_mem] at hkept
        exact ⟨id, hid, Or.inl hkept⟩
      · obtain ⟨t, ht, hfatal⟩ := List.any_eq_true.1 hfatal
        exact ⟨id, hid, Or.inr ⟨t, ht, Token.fails_of_isFatal hfatal⟩⟩
    · exact ⟨id, hid, Or.inr (hfails hfail)⟩

/-- What is referred to in a block is placed, under watch, and no label is placed twice. -/
theorem leads_runWatched {watch : Bool} (hw : w.Places (Regards watch)) (source : List Token) (s : State) :
    Leads w.assembler.naming [] (w.Supposes watch source) (fun _ => True) ([], s)
      (((w.runWatched watch source).run s).1.tokens, ((w.runWatched watch source).run s).2) := by
  have hA : ∀ D, w.Supposes watch source D → Regards watch D ∧ ∀ a ∈ w.around.args, a.Within D :=
    fun D h => ⟨h.regards, h.args⟩
  have hdeclare : Leads w.assembler.naming (Token.allPlaces source) (w.Supposes watch source) (fun _ => True) ([], s)
      (((w.declareStage source).run s).1.tokens, ((w.declareStage source).run s).2) :=
    (leads_declareStage w source s).imp (fun D h => ⟨h, fun t ht => Token.within_of_isOriginal (h.source t ht)⟩)
      fun _ h => h
  have hwritten : ∀ D, w.Supposes watch source D → ∀ t ∈ ((w.declareStage source).run s).1.tokens, t.places = [] := by
    intro D h t ht
    exact (mem_declareStage h.source s t ht).elim Token.places_of_isMessage Token.places_of_isOriginal
  generalize hdeclared : (w.declareStage source).run s = declared at hdeclare hwritten
  have hbind := leads_bindStage hw hA declared.1.items declared.2
  have hreported : (∃ t ∈ declared.1.tokens, t.fails = true) →
      ∃ t ∈ ((w.bindStage declared.1.items).run declared.2).1.tokens, t.fails = true :=
    fun h => Stage.fails_run h declared.2
  generalize hbound : (w.bindStage declared.1.items).run declared.2 = bound at hbind hreported
  have hfinish := leads_finishStage hw hA bound.1.items bound.2
  have hfailed : (∃ t ∈ bound.1.tokens, t.fails = true) →
      ∃ t ∈ ((w.finishStage bound.1.items).run bound.2).1.tokens, t.fails = true := fun h => Stage.fails_run h bound.2
  generalize htrail : (w.finishStage bound.1.items).run bound.2 = trail at hfinish hfailed
  have hfirst : Leads w.assembler.naming (Token.allPlaces source) (w.Supposes watch source) (fun _ => True) ([], s)
      (bound.1.tokens, bound.2) := by
    refine hdeclare.relay hbind fun D hP _ => Or.inr ?_
    rintro ⟨id, hid, hplace | hfails⟩
    · obtain ⟨t, ht, hmem⟩ := Token.mem_allPlaces_iff.1 hplace
      rw [hwritten D hP t ht] at hmem
      cases hmem
    · exact ⟨id, hid, Or.inr (hreported hfails)⟩
  rw [run_runWatched watch w source hdeclared hbound htrail]
  have hnone : ∀ D, w.Supposes watch source D → Token.allPlaces source = [] := by
    intro D h
    rw [Token.allPlaces_eq_flatMap, List.flatMap_eq_nil_iff]
    exact fun t ht => Token.places_of_isOriginal (h.source t ht)
  cases hloses : watch && loses bound.1.tokens trail.1.tokens && !trail.1.tokens.any Token.isFatal with
  | true =>
    rw [if_pos rfl]
    exact (hfirst.giveUp hfinish rfl).unburden hnone
  | false =>
    rw [if_neg Bool.false_ne_true]
    refine (hfirst.relay hfinish fun D hP _ => Or.inr ?_).unburden hnone
    exact escapes_of_not_loses hP.regards hloses hfailed

/-- A block that is assembled under watch leaves nothing to be expanded, and no item before the last that is
terminal. -/
theorem runWatched_finishes (watch : Bool) (hw : w.Finishes) (source : List Token) (s : State) :
    (∀ t ∈ ((w.runWatched watch source).run s).1.tokens, t.isExpanded = true) ∧
      ∀ t ∈ ((w.runWatched watch source).run s).1.tokens.dropLast, t.isTerminal w.block.inMacro = false := by
  rw [run_runWatched watch w source rfl rfl rfl]
  split
  · exact ⟨List.forall_mem_singleton.2 rfl, fun _ ht => absurd ht List.not_mem_nil⟩
  · refine ⟨List.forall_mem_map.2 (hw.isExpanded_of_mem_finishStage _ _), ?_⟩
    rw [Trail.tokens, ← List.map_dropLast]
    exact List.forall_mem_map.2 (ordered_finishStage w _ _).before

end Workbench

namespace Token

/-- Whether a token is neither END nor EXITM nor an IF. -/
def isStraight (t : Token) : Bool := !(t.isStop || t.isExit || t.isCond)

/-- Whether a token is the place of a label or a dependency, which every step of a block passes on as it is. -/
def isMark : Token → Bool
  | .fragment .. | .dependency .. => true
  | _ => false

/-- Where there is no IF, only the place of a label places one. -/
theorem isMark_of_mem_places {t : Token} (h : t.isStraight = true) {id : Text} (hid : id ∈ t.places) :
    t.isMark = true := by
  cases t with
  | fragment => rfl
  | cond => cases h
  | _ => cases hid

end Token

section Straight

open Grammar

/-- Tokens with neither END nor EXITM nor an IF in them. -/
abbrev Grammar.Straight (t : Token) : Prop := t.everywhere Token.isStraight = true

/-- No step of a block makes END, EXITM or an IF if there is none. -/
theorem Grammar.closed_straight : Closed Straight fun _ => True := by
  have hsame : Token.isStraight = fun t => (t.traits.isMessage || !t.traits.isTerminal) && !t.traits.isCond := by
    funext t
    cases t <;> rfl
  show Closed (fun t => t.everywhere Token.isStraight = true) _
  rw [hsame]
  refine closed_everywhere (q := fun traits => (traits.isMessage || !traits.isTerminal) && !traits.isCond)
    (fun message terminal hterminal => ?_) (fun _ => rfl) fun _ h => by cases h
  cases terminal with
  | false => cases message <;> rfl
  | true =>
    rw [hterminal rfl]
    rfl

/-- Without END, EXITM and IF no block is cut short. -/
theorem Grammar.uncut_straight : Uncut Straight where
  terminal t ht hterminal := by
    have hhere := Token.of_everywhere ht
    cases t with
    | message d => rfl
    | stop loc => cases hhere
    | exitMacro loc => cases hhere
    | _ => cases hterminal
  decision t ts ht hts := by
    obtain ⟨loc, clauses, otherwise, rfl, -⟩ := Token.decision?_cases hts
    cases Token.of_everywhere ht

/-- Every step of the third stage of a block passes on the places of labels and dependencies. -/
theorem Pass.relays_mark (w : Workbench) {m : Token} (hm : m.isMark = true) :
    ∀ p ∈ [Pass.ofToken (Finish.complete w), .reduceAgain w, .localize w, .expandRest w, .ofToken Finish.relax,
      .ofToken (Finish.encode w)], p.Relays (· = m) inMacro := by
  simp only [List.forall_mem_cons]
  refine ⟨?_, ?_, ?_, ?_, ?_, ?_, fun _ h => absurd h List.not_mem_nil⟩
  all_goals
    rintro ⟨token, pending⟩ s hmessage rfl
    cases token with
    | fragment | dependency => cases pending <;> exact ⟨_, _, Pass.run_handle_of_ok hmessage rfl, rfl⟩
    | _ => cases hm

namespace Workbench

variable {hear : Hearing} (hw : w.Accounts True (uniform Straight fun _ => True) hear)

include hw

/-- Without END, EXITM and IF the place of a label or a dependency comes through the third stage of a block that does
not end with a fatal diagnostic. -/
theorem mark_finishStage {items : List Item} {s : State}
    (hitems : ∀ i ∈ items, (uniform Straight fun _ => True).Knows (Carries Straight) s i)
    (hcalm : ((w.finishStage items).run s).1.tokens.any Token.isFatal = false) {m : Token} (hm : m.isMark = true)
    (h : m ∈ items.map Item.token) : m ∈ ((w.finishStage items).run s).1.tokens := by
  have hreports := Telling.reports_finishStage closed_straight (fun _ => uncut_straight) hw hitems
  rw [Recorded.Reports, Telling.act_finishStage] at hreports
  rcases hreports with ⟨⟨-, before, i, hlast, d, hmessage, hd⟩, -⟩ | ⟨-, hcount⟩
  · have hmem : i.token ∈ ((w.finishStage items).run s).1.tokens := by
      rw [Trail.tokens, hlast]
      exact List.mem_map_of_mem (List.mem_append_right _ List.mem_cons_self)
    rw [List.any_eq_false] at hcalm
    have hfatal := hcalm _ hmem
    rw [hmessage] at hfatal
    exact absurd hd hfatal
  · obtain ⟨i, hi, rfl⟩ := List.mem_map.1 h
    obtain ⟨t, ht, rfl⟩ := Stage.Relays.feed (Stage.grows_through _ _ _)
      (Stage.relays_through (Pass.relays_mark w hm)) (hcount trivial).1 ⟨i, Stage.mem_messagesFirst.2 hi, rfl⟩
    exact ht

/-- Without END, EXITM and IF the stages of a block over other nested blocks, which give what they do otherwise. The
places of labels and dependencies come through the third stage, if that does not end with a fatal diagnostic. -/
theorem exists_stages_straight {other : Option Runner}
    (h : Option.Rel (uniform Straight fun _ => True).Agree w.runner other) {source : List Token}
    (hsource : ∀ t ∈ source, Straight t) {s : State} (hs : (uniform Straight fun _ => True).Sound s.scope) :
    ∃ declared bound,
      (Workbench.declareStage { w with runner := other } source).run s = declared ∧
      (Workbench.bindStage { w with runner := other } declared.1.items).run declared.2 = bound ∧
      (Workbench.finishStage { w with runner := other } bound.1.items).run bound.2 = (w.run source).run s ∧
      (∀ t ∈ bound.1.tokens, Straight t) ∧
      (((w.run source).run s).1.tokens.any Token.isFatal = false →
        ∀ m ∈ bound.1.tokens, m.isMark = true → m ∈ ((w.run source).run s).1.tokens) := by
  obtain ⟨hbind, hexpand⟩ := sameOn_runner w.block.inMacro (fun item => closed_straight.bodies item.token) hw.equips h
  have hdeclared := closed_straight.knows_declareStage hw.equips hsource hs
  have hbound := closed_straight.knows_bindStage hw.equips hdeclared
  have hrun : (w.run source).run s = (w.finishStage
      ((w.bindStage ((w.declareStage source).run s).1.items).run ((w.declareStage source).run s).2).1.items).run
      ((w.bindStage ((w.declareStage source).run s).1.items).run ((w.declareStage source).run s).2).2 := by
    rw [run, StateM.run_bind, StateM.run_bind]
  refine ⟨_, _, rfl, closed_straight.run_bindStage hw.equips hbind hdeclared, ?_, ?_, fun hcalm m hm hmark => ?_⟩
  · rw [hrun]
    exact closed_straight.run_finishStage hw.equips (fun _ _ _ => rfl) hbind hexpand hbound
  · exact List.forall_mem_map.2 fun i hi => (hbound i hi).2
  · rw [hrun] at hcalm ⊢
    exact mark_finishStage hw hbound hcalm hmark hm

/-- Without END, EXITM and IF no block is given up. -/
theorem run_runWatched_straight (watch : Bool) {other : Option Runner}
    (h : Option.Rel (uniform Straight fun _ => True).Agree w.runner other) {source : List Token}
    (hsource : ∀ t ∈ source, Straight t) {s : State} (hs : (uniform Straight fun _ => True).Sound s.scope) :
    (Workbench.runWatched watch { w with runner := other } source).run s = (w.run source).run s := by
  obtain ⟨declared, bound, hdeclared, hbound, htrail, hstraight, hkept⟩ := exists_stages_straight hw h hsource hs
  rw [run_runWatched watch _ source hdeclared hbound htrail]
  refine if_neg fun hlost => ?_
  rw [Bool.and_eq_true, Bool.and_eq_true, Bool.not_eq_true', loses, List.any_eq_true] at hlost
  obtain ⟨⟨-, id, hid, hmissing⟩, hcalm⟩ := hlost
  -- the place of the label is passed on
  obtain ⟨t, ht, hplace⟩ := Token.mem_allPlaces_iff.1 hid
  have hmark := Token.isMark_of_mem_places (Token.of_everywhere (hstraight t ht)) hplace
  rw [Bool.not_eq_true', List.contains_eq_mem, decide_eq_false_iff_not] at hmissing
  exact hmissing (Token.mem_allPlaces_iff.2 ⟨t, hkept hcalm t ht hmark, hplace⟩)

end Workbench

end Straight

namespace Assembler

open Workbench (Regards)

variable {a : Assembler} {scope : Scope} {source : List Token}

/-- Assembles nested blocks, under watch or not. -/
def runnerWatched (watch : Bool) (a : Assembler) : Nat → Option Runner
  | 0 => none
  | depth + 1 => some fun b source => shield (Workbench.runWatched watch ⟨a, b, a.runnerWatched watch depth⟩ source)

/-- Assembling nested blocks is assembling them without watch. -/
theorem runner_eq_runnerWatched (a : Assembler) (depth : Nat) : a.runner depth = a.runnerWatched false depth := by
  induction depth with
  | zero => rfl
  | succ depth ih =>
    rw [runner_succ, runnerWatched, ih]
    refine congrArg some (funext fun b => funext fun source => ?_)
    rw [Workbench.run_eq_runWatched]

/-- Included files are made of statements as they are written. -/
def IncludesOriginal (a : Assembler) : Prop :=
  ∀ find, a.includer = some find → ∀ loc path loader body, find loc path loader = .ok body →
    ∀ t ∈ body, t.isOriginal = true

/-- What is referred to in nested blocks is placed, under watch, and no label is placed twice. -/
theorem places_runnerWatched (ha : a.IncludesOriginal) (watch : Bool) (depth : Nat) (run : Runner)
    (h : a.runnerWatched watch depth = some run) : run.Places a.naming (Regards watch) := by
  induction depth generalizing run with
  | zero => cases h
  | succ depth ih =>
    rw [runnerWatched, Option.some.injEq] at h
    have hw : ∀ b, Workbench.Places (Regards watch) ⟨a, b, a.runnerWatched watch depth⟩ := fun b => ⟨ih, ha⟩
    have hfinishes : ∀ b, Workbench.Finishes ⟨a, b, a.runnerWatched watch depth⟩ :=
      fun b run hrun => (ih run hrun).finishes
    subst h
    refine ⟨fun b body s => ?_, fun b body s => ?_, fun b body s => ?_⟩
    · have hleads := Workbench.leads_runWatched (hw b) body { s with bankSwitched := false }
      rcases hrun : (Workbench.runWatched watch ⟨a, b, a.runnerWatched watch depth⟩ body).run
        { s with bankSwitched := false } with ⟨t, s'⟩
      rw [hrun] at hleads
      rw [run_shield hrun]
      -- the mark of a bank switch tells nothing of labels
      refine ⟨hleads.grows, hleads.supply, fun hP hc => ?_, fun D hP hc => ?_⟩
      · exact hleads.count ⟨hP.1, hP.2.1, hP.2.2⟩ ⟨hc.tokens, hc.scope⟩
      · refine (hleads.within D ⟨hP.1, hP.2.1, hP.2.2⟩ ⟨hc.tokens, hc.scope⟩).imp_right fun h => ?_
        exact ⟨⟨h.1.tokens, h.1.scope⟩, trivial⟩
    · have hexpanded := (Workbench.runWatched_finishes watch (hfinishes b) body { s with bankSwitched := false }).1
      rcases hrun : (Workbench.runWatched watch ⟨a, b, a.runnerWatched watch depth⟩ body).run
        { s with bankSwitched := false } with ⟨t, s'⟩
      rw [hrun] at hexpanded
      rw [run_shield hrun]
      exact hexpanded
    · have hordered := (Workbench.runWatched_finishes watch (hfinishes b) body { s with bankSwitched := false }).2
      rcases hrun : (Workbench.runWatched watch ⟨a, b, a.runnerWatched watch depth⟩ body).run
        { s with bankSwitched := false } with ⟨t, s'⟩
      rw [hrun] at hordered
      rw [run_shield hrun]
      exact hordered

/-- Assembles a program over a root scope, under watch or not. -/
def assembleWatched (watch : Bool) (a : Assembler) (scope : Scope) (source : List Token) : Assembly :=
  let start := Assembler.start scope
  let (trail, s) := (Workbench.runWatched watch ⟨a, a.outermost, a.runnerWatched watch a.maxDepth⟩ source).run start
  let (closing, final) :=
    if trail.tokens.any Token.isFatal then ([], s) else (account false).run s
  ⟨start, trail.batches, closing, final⟩

/-- Assembling a program is assembling it without watch. -/
theorem assemble_eq_assembleWatched (a : Assembler) (scope : Scope) (source : List Token) :
    a.assemble scope source = a.assembleWatched false scope source := by
  rewrite [assemble, assembleWatched, runner_eq_runnerWatched, Workbench.run_eq_runWatched]
  generalize (Workbench.runWatched false _ source).run (start scope) = ran
  rfl

/-- A program without identities of labels in it, in the files that it includes and in what it is given. -/
structure Unlabelled (a : Assembler) (scope : Scope) (source : List Token) : Prop where
  /-- The program. -/
  source : ∀ t ∈ source, t.isOriginal = true
  /-- Included files. -/
  includer : a.IncludesOriginal
  /-- The definitions and macros that are there already. -/
  scope : ∀ D, scope.Within D

/-- How labels are placed and referred to in a program. -/
theorem leads_assembleWatched (watch : Bool) (h : a.Unlabelled scope source) :
    Leads a.naming [] (Regards watch) (fun _ => True) ([], Assembler.start scope)
      ((a.assembleWatched watch scope source).tokens, (a.assembleWatched watch scope source).final) := by
  have hw : Workbench.Places (Regards watch) ⟨a, a.outermost, a.runnerWatched watch a.maxDepth⟩ :=
    ⟨places_runnerWatched h.includer watch a.maxDepth, h.includer⟩
  have hleads : Leads a.naming [] (Regards watch) (fun _ => True) ([], Assembler.start scope) _ :=
    (Workbench.leads_runWatched hw source (Assembler.start scope)).imp
      (fun D hD => ⟨h.source, hD, fun _ ha => absurd ha List.not_mem_nil⟩) fun _ h => h
  rw [assembleWatched]
  generalize (Workbench.runWatched watch ⟨a, a.outermost, a.runnerWatched watch a.maxDepth⟩ source).run
    (Assembler.start scope) = r at hleads
  obtain ⟨trail, s⟩ := r
  dsimp only
  rw [Assembly.tokens, Trail.tokens_eq_flatMap]
  split
  · rw [List.append_nil]
    exact hleads
  · exact hleads.trans (Snapshot.leads_account false trail.tokens s)

/-- The state in which a program without labels begins has none in it. -/
theorem Unlabelled.within_start (h : a.Unlabelled scope source) (D : Text → Prop) :
    Snapshot.Within D ([], Assembler.start scope) :=
  ⟨fun _ ht => absurd ht List.not_mem_nil, (h.scope D).nest⟩

/-- What a program refers to is placed, if the program is assembled in the same way where a block is given up that
loses a label, and no failure is reported. -/
theorem placed_of_assembleWatched (h : a.Unlabelled scope source)
    (hsame : (a.assembleWatched true scope source).tokens = (a.assemble scope source).tokens)
    (hclean : ∀ t ∈ (a.assemble scope source).tokens, t.fails = false) :
    ∀ t ∈ (a.assemble scope source).tokens, ∀ id ∈ t.names Expr.references,
      id ∈ Token.allPlaces (a.assemble scope source).tokens := by
  intro t ht id hid
  have hwithin := (leads_assembleWatched true h).within
    (fun id => id ∈ Token.allPlaces (a.assemble scope source).tokens) nofun (h.within_start _)
  rw [hsame] at hwithin
  rcases hwithin with ⟨id', hid', hplace | ⟨t', ht', hfails⟩⟩ | ⟨hout, -⟩
  · exact absurd hplace hid'
  · rw [hclean t' ht'] at hfails
    cases hfails
  · exact (hout.tokens t ht).references id (Token.names_subset_references t hid)

/-- No label is placed twice. What a program refers to is placed, if the program is assembled in the same way where
a block is given up that loses a label between its second stage and its third, and no failure is reported. -/
theorem assemble_linked (h : a.Unlabelled scope source) :
    (Token.allPlaces (a.assemble scope source).tokens).Nodup ∧
    ((a.assembleWatched true scope source).tokens = (a.assemble scope source).tokens →
      (∀ t ∈ (a.assemble scope source).tokens, t.fails = false) →
      ∀ t ∈ (a.assemble scope source).tokens, ∀ id ∈ t.names Expr.references,
        id ∈ Token.allPlaces (a.assemble scope source).tokens) := by
  refine ⟨List.nodup_iff_count_le_one.2 fun id => ?_, placed_of_assembleWatched h⟩
  have hcount := (leads_assembleWatched false h).count (fun _ => rfl) (h.within_start _) id
  rw [assemble_eq_assembleWatched]
  rw [Token.allPlaces, List.count_nil, Nat.zero_add] at hcount
  exact hcount.trans (List.nodup_iff_count_le_one.1 (nodup_minted _ _ _) id)

section Straight

open Grammar

/-- Nested blocks with neither END, EXITM nor an IF in them are not given up. -/
theorem agree_runnerWatched (watch : Bool) (hincluder : ∀ find, a.includer = some find →
      ∀ loc path loader body, find loc path loader = .ok body → ∀ t ∈ body, Straight t) (depth : Nat) :
    Option.Rel (uniform Straight fun _ => True).Agree (a.runner depth) (a.runnerWatched watch depth) := by
  refine Grammar.agree_runner rfl (fun _ => rfl) (fun b depth ih body hbody s hs => ?_) depth
  have hw : Workbench.Accounts True (uniform Straight fun _ => True) ⟨a, b, a.runner depth⟩ (a.hear depth) :=
    accounts_runner closed_straight (fun _ => uncut_straight) hincluder b depth
  exact Workbench.run_runWatched_straight hw watch ih hbody hs

/-- A program with neither END, EXITM nor an IF in it is assembled without giving up a block. -/
theorem assembleWatched_eq (watch : Bool) (haccepts : a.Accepts scope source)
    (h : a.Throughout Token.isStraight scope source) :
    a.assembleWatched watch scope source = a.assemble scope source := by
  have hw : Workbench.Accounts True (uniform Straight fun _ => True) ⟨a, a.outermost, a.runner a.maxDepth⟩
      (a.hear a.maxDepth) :=
    accounts_runner closed_straight (fun _ => uncut_straight) h.includer a.outermost a.maxDepth
  have hrun : (Workbench.runWatched watch ⟨a, a.outermost, a.runnerWatched watch a.maxDepth⟩ source).run
      (Assembler.start scope) =
        (Workbench.run ⟨a, a.outermost, a.runner a.maxDepth⟩ source).run (Assembler.start scope) :=
    Workbench.run_runWatched_straight hw watch (agree_runnerWatched watch h.includer a.maxDepth) h.source
      (sound_of_macros haccepts h.macros)
  rewrite [assembleWatched, assemble, hrun]
  generalize (Workbench.run ⟨a, a.outermost, a.runner a.maxDepth⟩ source).run (Assembler.start scope) = r
  rfl

/-- What a program with neither END, EXITM nor an IF in it refers to is placed, if no failure is reported. -/
theorem placed_of_straight (haccepts : a.Accepts scope source) (h : a.Unlabelled scope source)
    (hstraight : a.Throughout Token.isStraight scope source)
    (hclean : ∀ t ∈ (a.assemble scope source).tokens, t.fails = false) :
    ∀ t ∈ (a.assemble scope source).tokens, ∀ id ∈ t.names Expr.references,
      id ∈ Token.allPlaces (a.assemble scope source).tokens :=
  placed_of_assembleWatched h (congrArg Assembly.tokens (assembleWatched_eq true haccepts hstraight)) hclean

end Straight

/-- Statements are assembled without labels over the initial scope. -/
theorem unlabelled_initial (h : ∀ t ∈ source, t.isOriginal = true) :
    plainAssembler.Unlabelled Scope.initial source := by
  refine ⟨h, nofun, fun D => ⟨Frame.all_empty.insert _ ⟨fun v hv => ?_, nofun⟩, nofun⟩⟩
  cases hv
  exact Expr.within_of_references_eq_nil rfl

/-- `DW L`, an IF with a body that waits for Y, the label L, and `Y EQU 1`. -/
def aroundLabel (body : List Token) : List Token :=
  [.data Location.none .words [nameOf "L"], .cond Location.none [.mk (nameOf "Y") body] none false,
    .label Location.none (nameOf "L"), .assign Location.none .equate (nameOf "Y") (.literal Location.none 1)]

/-- The parts of a list of tokens that is a word with the address of a label, bytes, and the place of a label. -/
def linkedWord? : List Token → Option ((Location × Location × Text × Text) × (Location × List UInt8) ×
    Location × Text × Text)
  | [.data l .words [.fragment l' id label], .bytes k data, .fragment k' id' label'] =>
    some ((l, l', id, label), (k, data), k', id', label')
  | _ => none

/-- Lists of this form with the same parts are the same. -/
theorem eq_of_linkedWord? {ts ts' : List Token} (h : (linkedWord? ts).isSome = true)
    (heq : linkedWord? ts = linkedWord? ts') : ts = ts' := by
  obtain ⟨parts, hparts⟩ := Option.isSome_iff_exists.1 h
  have hparts' := heq.symm.trans hparts
  rw [linkedWord?.eq_def] at hparts hparts'
  split at hparts
  · cases hparts
    split at hparts'
    · cases hparts'
      rfl
    · cases hparts'
  · cases hparts

/-- `DB 3` in the IF is decided late, and the label that `DW L` refers to is placed. -/
theorem assemble_linked_lateArm :
    plainAssembler.Unlabelled Scope.initial (aroundLabel [.data Location.none .bytes [.literal Location.none 3]]) ∧
      ∀ t ∈ (plainAssembler.assemble Scope.initial
        (aroundLabel [.data Location.none .bytes [.literal Location.none 3]])).tokens,
        ∀ id ∈ t.names Expr.references, id ∈ Token.allPlaces (plainAssembler.assemble Scope.initial
          (aroundLabel [.data Location.none .bytes [.literal Location.none 3]])).tokens := by
  have hunlabelled : plainAssembler.Unlabelled Scope.initial
      (aroundLabel [.data Location.none .bytes [.literal Location.none 3]]) :=
    unlabelled_initial (List.all_eq_true.1 (by decide +kernel))
  refine ⟨hunlabelled, (assemble_linked hunlabelled).2 (eq_of_linkedWord? ?_ ?_) fun t ht => ?_⟩
  · decide +kernel
  · decide +kernel
  · have hclean : (plainAssembler.assemble Scope.initial
        (aroundLabel [.data Location.none .bytes [.literal Location.none 3]])).tokens.all (fun t => !t.fails) = true := by
      decide +kernel
    simpa using List.all_eq_true.1 hclean t ht

/-- END in the IF comes out late, after `DW L` refers to the label, and before the place of the label. -/
theorem exists_unplaced :
    plainAssembler.Unlabelled Scope.initial (aroundLabel [.stop Location.none]) ∧
      (∀ t ∈ (plainAssembler.assemble Scope.initial (aroundLabel [.stop Location.none])).tokens, t.fails = false) ∧
      ¬ ∀ t ∈ (plainAssembler.assemble Scope.initial (aroundLabel [.stop Location.none])).tokens,
        ∀ id ∈ t.names Expr.references,
          id ∈ Token.allPlaces (plainAssembler.assemble Scope.initial (aroundLabel [.stop Location.none])).tokens := by
  refine ⟨unlabelled_initial (List.all_eq_true.1 (by decide +kernel)), fun t ht => ?_, fun hall => ?_⟩
  · have hclean : (plainAssembler.assemble Scope.initial (aroundLabel [.stop Location.none])).tokens.all
        (fun t => !t.fails) = true := by
      decide +kernel
    simpa using List.all_eq_true.1 hclean t ht
  · have hany : (plainAssembler.assemble Scope.initial (aroundLabel [.stop Location.none])).tokens.any
        (fun t => (t.names Expr.references).any fun id => !(Token.allPlaces (plainAssembler.assemble Scope.initial
          (aroundLabel [.stop Location.none])).tokens).contains id) = true := by
      decide +kernel
    obtain ⟨t, ht, hnot⟩ := List.any_eq_true.1 hany
    obtain ⟨id, hid, hmissing⟩ := List.any_eq_true.1 hnot
    rw [List.contains_iff_mem.2 (hall t ht id hid)] at hmissing
    cases hmissing

end Assembler

end MacroAsm
