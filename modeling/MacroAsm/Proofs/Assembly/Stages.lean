import MacroAsm.Assembly.Run
import MacroAsm.Proofs.Assembly.Emission

/-!
# Taking items through the steps of a stage

A step maps items of one kind to items of another one while the state leads on (`Pass.Maps`). A stage whose
steps fit together, as in `Stage.Chain`, maps what it is fed to what its last step emits (`Stage.run_maps`).
What is known of an item may depend on the state, as long as it stays true while the state leads on.
-/

namespace MacroAsm

variable {R : State → State → Prop}

/-- What is known of an item stays true while the state leads on. -/
def Stable (R : State → State → Prop) (P : State → Item → Prop) : Prop :=
  ∀ s s' item, R s s' → P s item → P s' item

/-- A step maps items of which `P` is known to items of which `Q` is, while the state leads on. -/
def Pass.Maps (R : State → State → Prop) (inMacro : Bool) (P Q : State → Item → Prop) (pass : Pass) :
    Prop :=
  ∀ item s, P s item → R s ((pass.handle inMacro item).run s).2 ∧
    ∀ i ∈ ((pass.handle inMacro item).run s).1.items, Q ((pass.handle inMacro item).run s).2 i

/-- A step whose handling leads on and keeps an invariant maps items to what the invariant tells of those
that were emitted. Diagnostics are passed on, and a failure is reported. -/
theorem Pass.maps_of_yields {pass : Pass} {inMacro : Bool} {P Q : State → Item → Prop}
    {I : Output × State → Prop} (hR : Emission.Invariant R I)
    (hempty : ∀ item s, P s item → I (Output.empty inMacro, s))
    (hreport : ∀ p item, I p → item.token.isMessage = true → I (p.1.push item, p.2))
    (hitems : ∀ p, I p → ∀ item ∈ p.1.reversed, Q p.2 item)
    (h : ∀ item p, P p.2 item → I p → Emission.Yields R I (fun _ _ => True) (pass item) p) :
    pass.Maps R inMacro P Q := by
  intro item s hitem
  have hstart := hempty item s hitem
  -- what is known of the output is read off the invariant
  have hread : ∀ {q : Output × State}, I q → ∀ i ∈ q.1.items, Q q.2 i :=
    fun hq i hi => hitems _ hq i (List.mem_reverse.1 hi)
  rw [Pass.handle]
  split
  · rename_i hmessage
    exact ⟨hR.refl s, hread (hreport _ item hstart hmessage)⟩
  · obtain ⟨hrel, hinv, -⟩ := h item (Output.empty inMacro, s) hitem hstart
    rw [Emission.run_output]
    cases hexec : (pass item).exec (Output.empty inMacro, s) with
    | mk r q =>
      rw [hexec] at hrel hinv
      cases r with
      | ok a => exact ⟨hrel, hread hinv⟩
      | error f => exact ⟨hrel, hread (hreport q (.message (f.toDiagnostic item.token.loc)) hinv rfl)⟩

section Collects

variable {P Q : State → Item → Prop}

/-- What is known of all items that were emitted. -/
def Emission.Collects (Q : State → Item → Prop) (p : Output × State) : Prop :=
  ∀ item ∈ p.1.reversed, Q p.2 item

namespace Emission

variable {p : Output × State}

theorem invariant_collects (hR : Progress R) (hQ : Stable R Q) : Invariant R (Collects Q) where
  toProgress := hR
  stable _ s s' hs hout item hitem := hQ s s' item hs (hout item hitem)

/-- One more item is emitted. -/
theorem Collects.push (hp : Collects Q p) {item : Item} (hitem : Q p.2 item) :
    Collects Q (p.1.push item, p.2) := by
  rw [Collects, Output.push]
  split
  · exact hp
  · exact List.forall_mem_cons.2 ⟨hitem, hp⟩

/-- More items are emitted. -/
theorem Collects.pushAll (hp : Collects Q p) {items : List Item} (hitems : ∀ item ∈ items, Q p.2 item) :
    Collects Q (p.1.pushAll items, p.2) := by
  induction items generalizing p with
  | nil => exact hp
  | cons item rest ih =>
    rw [List.forall_mem_cons] at hitems
    exact ih (hp.push hitems.1) hitems.2

theorem Collects.emitItem (hR : Invariant R (Collects Q)) (hp : Collects Q p) {item : Item}
    (hitem : Q p.2 item) : Yields R (Collects Q) (fun _ _ => True) (emitItem item) p :=
  .emit hR (exec_emitItem item p) (hp.push hitem)

/-- Tokens are emitted. -/
theorem Collects.emitAll (hR : Invariant R (Collects Q)) (hp : Collects Q p) {ts : List Token}
    (hts : ∀ t ∈ ts, Q p.2 (.settled t)) : Yields R (Collects Q) (fun _ _ => True) (emitAll ts) p := by
  refine .emit hR (exec_emitAll ts p) (hp.pushAll fun item hitem => ?_)
  obtain ⟨t, ht, rfl⟩ := List.mem_map.1 hitem
  exact hts t ht

/-- A handling that begins by reading the state. -/
theorem yields_getThe {I : Output × State → Prop} {k : State → Emission PUnit}
    (hk : Yields R I (fun _ _ => True) (k p.2) p) :
    Yields R I (fun _ _ => True) (do k (← getThe State)) p := by
  have heq := exec_bind_of_ok (k := k) (exec_getThe p)
  exact ⟨by rw [heq]; exact hk.rel, by rw [heq]; exact hk.inv, fun _ _ => trivial⟩

end Emission

/-- A step maps items to those that it emits. Diagnostics are passed on. -/
theorem Pass.maps_of_collects (hR : Progress R) (hQ : Stable R Q)
    (hmessage : ∀ s item, item.token.isMessage = true → Q s item) {pass : Pass} {inMacro : Bool}
    (h : ∀ item p, P p.2 item → Emission.Collects Q p →
      Emission.Yields R (Emission.Collects Q) (fun _ _ => True) (pass item) p) :
    pass.Maps R inMacro P Q := by
  refine Pass.maps_of_yields (Emission.invariant_collects hR hQ) ?_ ?_ (fun p hp => hp) h
  · exact fun item s _ i hi => absurd hi List.not_mem_nil
  · exact fun p item hp hitem => hp.push (hmessage p.2 item hitem)

end Collects

theorem Trail.tokens_eq_flatMap (t : Trail) : t.batches.flatMap Batch.tokens = t.tokens := by
  rw [Trail.tokens, Trail.items, List.map_flatMap]
  rfl

namespace Stage

/-- The steps of a stage fit together: what is known of the items that one emits is what the next one
asks for. -/
inductive Chain (R : State → State → Prop) (inMacro : Bool) :
    (State → Item → Prop) → List Pass → Pass → (State → Item → Prop) → Prop where
  /-- The last step. -/
  | last {P Q : State → Item → Prop} {pass : Pass} (hmaps : pass.Maps R inMacro P Q) :
    Chain R inMacro P [] pass Q
  /-- A step before others. -/
  | step {P M Q : State → Item → Prop} {pass last : Pass} {passes : List Pass}
    (hmaps : pass.Maps R inMacro P M) (hstable : Stable R M) (hrest : Chain R inMacro M passes last Q) :
    Chain R inMacro P (pass :: passes) last Q

/-- What is known of all items of a trail. -/
def Holds (Q : State → Item → Prop) (s : State) (t : Trail) : Prop :=
  ∀ b ∈ t.reversed, ∀ item ∈ b.items, Q s item

/-- The items of a trail are those of its batches. -/
theorem Holds.items {Q : State → Item → Prop} {s : State} {t : Trail} (h : Holds Q s t) :
    ∀ item ∈ t.items, Q s item := by
  intro item hitem
  obtain ⟨b, hb, hitem⟩ := List.mem_flatMap.1 hitem
  exact h b (List.mem_reverse.1 hb) item hitem

theorem Holds.rel {Q : State → Item → Prop} (hQ : Stable R Q) {s s' : State} {t : Trail}
    (h : Holds Q s t) (hs : R s s') : Holds Q s' t :=
  fun b hb item hitem => hQ s s' item hs (h b hb item hitem)

/-- What one item leads to is known if the trail so far is. -/
def Feeds (R : State → State → Prop) (P Q : State → Item → Prop)
    (f : Item → Trail → StateM State Trail) : Prop :=
  ∀ item t s, P s item → Holds Q s t → R s ((f item t).run s).2 ∧ Holds Q ((f item t).run s).2
    ((f item t).run s).1

/-- Handling the items of a list one after the other. -/
theorem feed_feeds (hR : Progress R) {P Q : State → Item → Prop} (hP : Stable R P)
    {f : Item → Trail → StateM State Trail} (hf : Feeds R P Q f) (items : List Item) (t : Trail)
    (s : State) (hitems : ∀ item ∈ items, P s item) (ht : Holds Q s t) :
    R s ((feed f items t).run s).2 ∧ Holds Q ((feed f items t).run s).2 ((feed f items t).run s).1 := by
  induction items generalizing t s with
  | nil => exact ⟨hR.refl s, ht⟩
  | cons item rest ih =>
    rw [List.forall_mem_cons] at hitems
    rw [feed]
    split
    · exact ⟨hR.refl s, ht⟩
    · obtain ⟨hrel, hholds⟩ := hf item t s hitems.1 ht
      -- the items that are left are still known in the state that this one leaves
      obtain ⟨hrel', hholds'⟩ := ih ((f item t).run s).1 ((f item t).run s).2
        (fun i hi => hP s _ i hrel (hitems.2 i hi)) hholds
      exact ⟨hR.trans _ _ _ hrel hrel', hholds'⟩

/-- Taking an item through the steps of a stage. -/
theorem through_feeds (hR : Progress R) {inMacro : Bool} {P Q : State → Item → Prop}
    (hQ : Stable R Q) {passes : List Pass} {last : Pass}
    (hchain : Chain R inMacro P passes last Q) : Feeds R P Q (through inMacro last passes) := by
  induction hchain with
  | @last P Q pass hmaps =>
    intro item t s hitem ht
    obtain ⟨hrel, hitems⟩ := hmaps item s hitem
    refine ⟨hrel, fun b hb => ?_⟩
    rcases List.mem_cons.1 hb with rfl | hb
    · exact hitems
    · exact ht.rel hQ hrel b hb
  | @step P M Q pass last passes hmaps hstable _ ih =>
    intro item t s hitem ht
    obtain ⟨hrel, hitems⟩ := hmaps item s hitem
    obtain ⟨hrel', hholds⟩ := feed_feeds hR hstable (ih hQ) ((pass.handle inMacro item).run s).1.items t
      ((pass.handle inMacro item).run s).2 hitems (ht.rel hQ hrel)
    exact ⟨hR.trans _ _ _ hrel hrel', hholds⟩

/-- Taking the items of a list through the steps of a stage. -/
theorem run_maps (hR : Progress R) {inMacro : Bool} {P Q : State → Item → Prop} (hP : Stable R P)
    (hQ : Stable R Q) {passes : List Pass} {last : Pass} (hchain : Chain R inMacro P passes last Q)
    {items : List Item} {s : State} (hitems : ∀ item ∈ items, P s item) :
    R s ((run inMacro passes last items).run s).2 ∧
      ∀ item ∈ ((run inMacro passes last items).run s).1.items,
        Q ((run inMacro passes last items).run s).2 item := by
  obtain ⟨hrel, hholds⟩ := feed_feeds hR hP (through_feeds hR hQ hchain) items Trail.empty s hitems
    fun b hb => absurd hb List.not_mem_nil
  exact ⟨hrel, hholds.items⟩

/-- Putting the diagnostics first keeps the items. -/
theorem mem_messagesFirst {items : List Item} {item : Item} :
    item ∈ messagesFirst items ↔ item ∈ items := by
  rw [messagesFirst, List.mem_append, List.mem_filter, List.mem_filter]
  cases item.token.isMessage <;> simp

end Stage

end MacroAsm
