import MacroAsm.Proofs.Assembly.Grammar
import MacroAsm.Proofs.Assembly.Progression

/-!
# Nested blocks

A statement that stands for a block assembles it over a frame of its own, which goes with the block
(`Grammar.handles_expand`). Names that the block used and did not define move to the frame below before that
(`Scope.hoists_account`). Whatever assembles nested blocks is a parameter that obeys the grammar
(`Grammar.Obeys`).
-/

namespace MacroAsm

/-- Every entry of a frame that binds each name once is found. -/
theorem Frame.find?_of_mem_entries {f : Frame} (h : f.names.Nodup) {name : Text} {sym : Symbol}
    (hmem : (name, sym) ∈ f.entries) : f.find? name = some sym := by
  obtain ⟨entries⟩ := f
  simp only [names, Frame.find?] at *
  induction entries with
  | nil => cases hmem
  | cons e rest ih =>
    rw [List.map_cons, List.nodup_cons] at h
    rcases List.mem_cons.1 hmem with heq | hmem
    · rw [← heq, List.lookup_cons_self]
    · -- a later entry has another name
      have hne : name ≠ e.1 := fun heq => h.1 (heq ▸ List.mem_map_of_mem hmem)
      rw [List.lookup_cons, beq_eq_false_iff_ne.2 hne]
      exact ih h.2 hmem

namespace Scope

/-- Moving a name to the frame below does not touch the others. -/
theorem top_find?_hoist {s : Scope} (hs : s.WellFormed) {name other : Text} (hne : other ≠ name) :
    (s.hoist name).1.top.find? other = s.top.find? other := by
  rw [hoist.eq_def]
  split
  · rename_i f below rest hinner
    have hf : f.IsInner := hs.inner f (by rw [hinner]; exact List.mem_cons_self)
    split
    · rfl
    · rw [top, top, hinner, List.headD_cons, List.headD_cons, Frame.find?_erase hf.nodup, if_neg hne]
  · rfl

theorem WellFormed.hoist {s : Scope} (hs : s.WellFormed) {name : Text} {sym : Symbol}
    (hfind : s.top.find? name = some sym) (hunset : sym.isSet = false) : (s.hoist name).1.WellFormed :=
  (preserved_hoist hs hfind hunset).wellFormed

/-- Accounting for names that are in the innermost frame moves those that wait, and gives diagnostics. -/
theorem hoists_accountFor (nested : Bool) (entries : List (Text × Symbol)) {s : Scope}
    (hs : s.WellFormed) (hnodup : (entries.map Prod.fst).Nodup)
    (hentries : ∀ entry ∈ entries, s.top.find? entry.1 = some entry.2 ∧ entry.2.reserved = false) :
    s.Hoists (accountFor nested entries s).1 ∧
      ∀ t ∈ (accountFor nested entries s).2, t.isMessage = true := by
  induction entries generalizing s with
  | nil => exact ⟨.refl s, fun t ht => by cases ht⟩
  | cons entry rest ih =>
    obtain ⟨name, sym⟩ := entry
    rw [List.map_cons, List.nodup_cons] at hnodup
    rw [List.forall_mem_cons] at hentries
    rw [accountFor]
    split
    · exact ih hs hnodup.2 hentries.2
    · rename_i hverdict
      -- only a name that was used and not defined moves
      have hwaits : sym.used = true ∧ sym.isSet = false := by
        rw [Symbol.verdict] at hverdict
        split at hverdict
        · split at hverdict
          · cases hverdict
          · rename_i hused hunset
            exact ⟨hused, by simpa using hunset⟩
        · split at hverdict <;> cases hverdict
      obtain ⟨hrest, hreports⟩ := ih (hs.hoist hentries.1.1 hwaits.2) hnodup.2 fun entry hentry => by
        have hne : entry.1 ≠ name := fun heq => hnodup.1 (List.mem_map.2 ⟨entry, hentry, heq⟩)
        rw [top_find?_hoist hs hne]
        exact hentries.2 entry hentry
      exact ⟨.step hentries.1.1 hwaits.1 hwaits.2 hentries.1.2 hrest, hreports⟩
    · obtain ⟨hrest, hreports⟩ := ih hs hnodup.2 hentries.2
      exact ⟨hrest, List.forall_mem_cons.2 ⟨rfl, hreports⟩⟩

/-- Accounting for the names of the innermost frame moves those that wait, and gives diagnostics. -/
theorem hoists_account (nested : Bool) {s : Scope} (hs : s.WellFormed) :
    s.Hoists (s.account nested).1 ∧ ∀ t ∈ (s.account nested).2, t.isMessage = true := by
  have htop : s.top.names.Nodup := by
    cases hinner : s.inner with
    | nil => exact absurd hinner hs.isOpen
    | cons f rest =>
      rw [top, hinner, List.headD_cons]
      exact (hs.inner f (by rw [hinner]; exact List.mem_cons_self)).nodup
  refine hoists_accountFor nested s.bindings hs ?_ fun entry hentry => ?_
  · exact htop.sublist (List.filter_sublist.map Prod.fst)
  · obtain ⟨hmem, hreserved⟩ := List.mem_filter.1 hentry
    exact ⟨Frame.find?_of_mem_entries htop hmem, by simpa using hreserved⟩

/-- Without a block around, accounting for names moves none of them. -/
theorem accountFor_outermost (entries : List (Text × Symbol)) (s : Scope) :
    (accountFor false entries s).1 = s := by
  induction entries with
  | nil => rfl
  | cons entry rest ih =>
    obtain ⟨name, sym⟩ := entry
    rw [accountFor, Symbol.verdict]
    cases sym.used <;> cases sym.isSet <;> exact ih

/-- A block may begin with the parameters of a macro bound to arguments. -/
theorem opens_bindAll {loc : Location} {ps : List Text} {es : List Expr} {s t t' : Scope}
    (ht : s.Opens t) (h : Expand.bindAll loc ps es t = .ok t') : s.Opens t' := by
  induction ps generalizing es t with
  | nil =>
    cases h
    exact ht
  | cons p ps ih =>
    cases es with
    | nil =>
      cases h
      exact ht
    | cons e es =>
      rw [Expand.bindAll] at h
      obtain ⟨t1, hbind, hrest⟩ := Except.bind_eq_ok_iff.1 h
      exact ih (ht.bind hbind) hrest

/-- A block may begin with the names of an iteration bound. -/
theorem opens_loop {l : Replay.Loop} {k : Nat} {value : Option Expr} {s t : Scope}
    (h : l.scope k value s = .ok t) : s.Opens t := by
  rw [Replay.Loop.scope] at h
  cases value with
  | none =>
    split at h
    · cases h
      exact .nest
    · obtain ⟨t1, hbind, hrest⟩ := Except.bind_eq_ok_iff.1 h
      cases hrest
      exact Opens.nest.bind hbind
  | some v =>
    -- the element is bound after the counter
    have hvalue : ∀ {t1 : Scope}, s.Opens t1 →
        (if l.element.isEmpty then Except.ok t1 else Expand.bindIn t1 l.element v v.loc) = .ok t →
        s.Opens t := by
      intro t1 ht1 ht
      split at ht
      · cases ht
        exact ht1
      · exact ht1.bind ht
    split at h
    · exact hvalue .nest h
    · obtain ⟨t1, hbind, hrest⟩ := Except.bind_eq_ok_iff.1 h
      exact hvalue (Opens.nest.bind hbind) hrest

end Scope

/-- What expanding a statement into a block does: the block runs over the scope that has a frame for it, its
names are accounted for unless the output is closed, and the frame goes. -/
theorem Expand.exec_expand (run : Runner) (b : Block) (scope : Scope) (body : List Token) (macroCall : Bool)
    (p : Output × State) {r : List Token × State} (hr : (run b body).run { p.2 with scope } = r) {out : Output}
    (hout : p.1.pushAll ((r.1.filter fun t => !Expand.isDropped macroCall t).map .spliced) = out) :
    (Expand.expand run b scope body macroCall).exec p =
      if out.closed then (.ok ⟨⟩, (out, { r.2 with scope := r.2.scope.unnest }))
      else (.ok ⟨⟩, (out.pushAll (((account b.nested).run r.2).1.map .settled),
        { ((account b.nested).run r.2).2 with
          scope := ((account b.nested).run r.2).2.scope.unnest })) := by
  have hbegin : (Expand.expand run b scope body macroCall).exec p =
      (do
        if !(← Emission.isClosed) then Emission.emitAll (← Emission.perform (account b.nested))
        Act.modifyScope Scope.unnest : Emission PUnit).exec (out, r.2) := by
    rw [Expand.expand, ← hout, ← hr]
    rfl
  rw [hbegin, Emission.exec_bind_of_ok (Emission.exec_isClosed _)]
  cases out.closed <;> rfl

namespace Grammar

variable {g : Grammar} {P : Item → Prop} {p : Output × State} {w : Workbench}

/-- A runner that assembles blocks within the grammar: the scope evolves, and what it gives is output. -/
def Obeys (g : Grammar) (run : Runner) : Prop :=
  ∀ (b : Block) (body : List Token) (s : State), (∀ t ∈ body, g.source t) → g.Sound s.scope →
    g.Leads s ((run b body).run s).2 ∧ ∀ t ∈ ((run b body).run s).1, g.output t

/-- The account of a block moves the names that wait, and gives diagnostics. -/
theorem hoists_account (nested : Bool) {s : State} (hs : g.Sound s.scope) :
    s.scope.Hoists ((account nested).run s).2.scope ∧
      ∀ t ∈ ((account nested).run s).1, t.isMessage = true :=
  Scope.hoists_account nested hs.wellFormed

theorem Sound.hoists {s s' : Scope} (hs : g.Sound s) (h : s.Hoists s') : g.Sound s' :=
  ⟨((h.evolves g.IsMacro).preserved hs.wellFormed).wellFormed,
    (h.evolves g.IsMacro).everywhere g.lasting hs.wellFormed hs.everywhere⟩

/-- The output of a nested block satisfies the property, whether tokens are dropped or not. -/
theorem Keeps.splice (hP : g.Admits P) (hp : g.Keeps P p) (macroCall : Bool) {ts : List Token}
    (hts : ∀ t ∈ ts, g.output t) :
    g.Keeps P (p.1.pushAll ((ts.filter fun t => !Expand.isDropped macroCall t).map .spliced), p.2) := by
  refine hp.pushAll fun item hitem => ?_
  obtain ⟨t, ht, rfl⟩ := List.mem_map.1 hitem
  exact hP.spliced t (hts t (List.mem_filter.1 ht).1)

/-- A nested block is assembled over a frame of its own. -/
theorem handles_expand (hP : g.Admits P) (hp : g.Keeps P p) {run : Runner} (hrun : g.Obeys run)
    (b : Block) {scope : Scope} (hopens : p.2.scope.Opens scope) {body : List Token}
    (hbody : ∀ t ∈ body, g.source t) (macroCall : Bool) :
    g.Handles P (Expand.expand run b scope body macroCall) p := by
  have hopened : g.Sound scope := hp.sound.opens hopens
  obtain ⟨hleads, houtput⟩ := hrun b body { p.2 with scope } hbody hopened
  -- what is there after the statements of the block
  generalize hr : (run b body).run { p.2 with scope } = r at hleads houtput
  have hran : g.Keeps P (p.1, r.2) := ⟨hopened.evolves hleads, hp.items⟩
  have hspliced := hran.splice hP macroCall houtput
  generalize hout : p.1.pushAll ((r.1.filter fun t => !Expand.isDropped macroCall t).map .spliced) = out
    at hspliced
  have hend : ∀ {q : Output × State}, r.2.scope.Hoists q.2.scope → g.Keeps P q →
      (Expand.expand run b scope body macroCall).exec p =
        (.ok ⟨⟩, (q.1, { q.2 with scope := q.2.scope.unnest })) →
      g.Handles P (Expand.expand run b scope body macroCall) p := by
    intro q hq hkeeps hexec
    have hblock : g.Leads p.2 { q.2 with scope := q.2.scope.unnest } :=
      .block hopens hleads hq
    refine ⟨?_, ?_, fun _ _ => trivial⟩
    · rwa [hexec]
    · rw [hexec]
      exact ⟨hp.sound.evolves hblock, hkeeps.items⟩
  have hexec := Expand.exec_expand run b scope body macroCall p hr hout
  cases hclosed : out.closed with
  | true =>
    refine hend (q := (out, r.2)) (.refl _) hspliced ?_
    rw [hexec, hclosed, if_pos rfl]
  | false =>
    obtain ⟨haccount, hreports⟩ := hoists_account b.nested (s := r.2) hran.sound
    have hreported : g.Keeps P (out, ((account b.nested).run r.2).2) :=
      ⟨hran.sound.hoists haccount, hspliced.items⟩
    have hitems : ∀ item ∈ ((account b.nested).run r.2).1.map Item.settled, P item := by
      intro item hitem
      obtain ⟨t, ht, rfl⟩ := List.mem_map.1 hitem
      exact hP.message _ (hreports t ht)
    refine hend haccount (hreported.pushAll hitems) ?_
    rw [hexec, hclosed, if_neg Bool.false_ne_true]

/-- The scope after a statement was expanded into a block: it evolved over the frame for the block, names that
wait moved to the frame below, and the frame went. -/
theorem exists_of_expand {run : Runner} (hrun : g.Obeys run) (b : Block) {scope : Scope}
    (hscope : g.Sound scope) {body : List Token} (hbody : ∀ t ∈ body, g.source t) (macroCall : Bool)
    (p : Output × State) :
    ∃ v v', g.Evolves scope v ∧ v.Hoists v' ∧
      ((Expand.expand run b scope body macroCall).exec p).2.2.scope = v'.unnest := by
  obtain ⟨hleads, -⟩ := hrun b body { p.2 with scope } hbody hscope
  generalize hr : (run b body).run { p.2 with scope } = r at hleads
  have haccount := (hoists_account b.nested (s := r.2) (hscope.evolves hleads)).1
  rw [Expand.exec_expand run b scope body macroCall p hr rfl]
  split
  · exact ⟨r.2.scope, r.2.scope, hleads, .refl _, rfl⟩
  · exact ⟨r.2.scope, _, hleads, haccount, rfl⟩

/-- A workbench that keeps to the grammar: it assembles nested blocks within it, and included files are made
of source tokens. -/
structure Equips (g : Grammar) (w : Workbench) : Prop where
  /-- Nested blocks are assembled within the grammar. -/
  runner : ∀ run, w.runner = some run → g.Obeys run
  /-- Included files are made of source tokens. -/
  includer : ∀ find, w.assembler.includer = some find → ∀ loc path loader body,
    find loc path loader = .ok body → ∀ t ∈ body, g.source t

/-- The runner of nested blocks, if there is one. -/
theorem requireRunner_yields (hw : g.Equips w) (hp : g.Keeps P p) :
    Emission.Yields g.Leads (g.Keeps P) (fun run _ => g.Obeys run) w.requireRunner p := by
  rw [Workbench.requireRunner]
  split
  · rename_i run hrun
    exact .pure (g.invariant P) hp (hw.runner run hrun)
  · exact .report (g.invariant P) hp _

theorem handles_fresh (hp : g.Keeps P p) (naming : Naming) (args : List Expr) (inMacro : Bool) :
    g.Handles P (liftM (Block.fresh naming args inMacro) : Emission Block) p :=
  .act (g.invariant P) hp ⟨.of_scope_eq rfl, fun _ _ => trivial⟩

/-- INCLUDE. -/
theorem handles_inclusion (hP : g.Admits P) (hw : g.Equips w) (hp : g.Keeps P p) (loc : Location)
    (path : Expr) (loader : Option Expr) : g.Handles P (Expand.inclusion w loc path loader) p := by
  have hR := g.invariant P
  -- the file that was found is assembled over the same scope
  have hfound : ∀ {body : List Token} {q : Output × State}, (∀ t ∈ body, g.source t) → g.Keeps P q →
      g.Handles P (do
        let run ← w.requireRunner
        let b ← Block.fresh w.assembler.naming w.around.args w.block.inMacro
        Expand.splice false (← Emission.perform (run b body))) q := by
    intro body q hbody hq
    refine (requireRunner_yields hw hq).bind hR fun run q _ hq hrun => ?_
    refine (handles_fresh hq _ _ _).bind hR fun b q _ hq _ => ?_
    obtain ⟨hleads, houtput⟩ := hrun b body q.2 hbody hq.sound
    have hran : g.Keeps P (q.1, ((run b body).run q.2).2) := ⟨hq.sound.evolves hleads, hq.items⟩
    exact ⟨hleads, hran.splice hP false houtput, fun _ _ => trivial⟩
  rw [Expand.inclusion]
  split
  · exact .report hR hp _
  · rename_i find hfind
    split
    · exact .raise hR hp _
    · refine (Emission.Yields.require (Q := fun _ _ => True) hR hp fun _ _ => trivial).bind hR
        fun path q _ hq _ => ?_
      have hbody : ∀ {loader : Text} {body : List Token}, find loc path loader = .ok body →
          ∀ t ∈ body, g.source t := fun h => hw.includer find hfind loc path _ _ h
      cases loader with
      | none =>
        refine (Emission.Yields.pure (Q := fun _ _ => True) hR hq trivial).bind hR fun loader q _ hq _ => ?_
        dsimp only
        split
        · exact .report hR hq _
        · exact hfound (hbody ‹_›) hq
      | some e =>
        refine (Emission.Yields.require (Q := fun _ _ => True) hR hq fun _ _ => trivial).bind hR
          fun loader q _ hq _ => ?_
        dsimp only
        split
        · exact .report hR hq _
        · exact hfound (hbody ‹_›) hq

/-- The macro that a statement calls is made of source tokens. -/
theorem isMacro_of_macroOf? {s : Scope} (hs : g.Sound s) {d : Dispatch} {name : Text} {m : Macro}
    (h : Expand.macroOf? s d = some (name, m)) : g.IsMacro m := by
  rw [Expand.macroOf?] at h
  split at h
  · obtain ⟨m', hm', heq⟩ := Option.map_eq_some_iff.1 h
    cases heq
    obtain ⟨sym, hfind, htemplate⟩ := Option.bind_eq_some_iff.1 hm'
    rw [Scope.find?] at hfind
    obtain ⟨f, hf, hsym⟩ := Scope.exists_of_findIn hfind
    rcases List.mem_append.1 hf with hinner | hroot
    · exact (hs.everywhere.inner f hinner).of_find? hsym m htemplate
    · rw [List.mem_singleton.1 hroot] at hsym
      exact hs.everywhere.root.of_find? hsym m htemplate
  · cases h

/-- A macro call. What is no macro call is passed on, and so is a call that waits for its arguments, unless
it must not. -/
theorem handles_call (hP : g.Admits P) (hw : g.Equips w) (hp : g.Keeps P p) (strict : Bool)
    {item : Item} (hitem : P item) (d : Dispatch) : g.Handles P (Expand.call w strict item d) p := by
  have hR := g.invariant P
  rw [Expand.call]
  refine handles_scope ?_
  split
  · exact handles_emitItem hp hitem
  · rename_i name m hmacroOf
    have hm : g.IsMacro m := isMacro_of_macroOf? hp.sound hmacroOf
    split
    · split
      · exact .report hR hp _
      · exact handles_emitItem hp hitem
    · refine (Emission.Yields.act hR hp (modify_yields fun _ _ => ?_)).bind hR fun _ q _ hq _ => ?_
      · exact Symbol.Updates.revises
          ⟨⟨rfl, rfl, rfl, rfl, fun _ => rfl, fun h => h, Or.inl rfl⟩, fun h => h⟩ rfl
      · split
        · exact .report hR hq _
        · refine (requireRunner_yields hw hq).bind hR fun run q _ hq hrun => ?_
          refine (handles_fresh hq _ _ _).bind hR fun b q _ hq _ => ?_
          refine handles_scope ?_
          refine (Emission.Yields.require (Q := fun scope s => s.scope.Opens scope) hR hq
            fun scope h => Scope.opens_bindAll .nest h).bind hR fun scope q _ hq hopens => ?_
          exact handles_expand hP hq hrun b hopens hm true

section Replay

/-- One iteration. -/
theorem handles_turn (hP : g.Admits P) (hw : g.Equips w) (hp : g.Keeps P p) (l : Replay.Loop)
    (hbody : ∀ t ∈ l.body, g.source t) (k : Nat) (value : Option Expr) :
    g.Handles P (l.turn w k value) p := by
  have hR := g.invariant P
  refine (requireRunner_yields hw hp).bind hR fun run q _ hq hrun => ?_
  refine (handles_fresh hq _ _ _).bind hR fun b q _ hq _ => ?_
  refine handles_scope ?_
  refine (Emission.Yields.require (Q := fun scope s => s.scope.Opens scope) hR hq
    fun scope h => Scope.opens_loop h).bind hR fun scope q _ hq hopens => ?_
  exact handles_expand hP hq hrun b hopens hbody false

theorem isClosed_yields (hp : g.Keeps P p) : g.Handles P Emission.isClosed p :=
  ⟨.refl _, hp, fun _ _ => trivial⟩

/-- Turns are repeated. -/
theorem handles_times {turn : Nat → Emission PUnit}
    (hturn : ∀ k q, g.Keeps P q → g.Handles P (turn k) q) (n k : Nat) (hp : g.Keeps P p) :
    g.Handles P (Replay.times turn n k) p := by
  have hR := g.invariant P
  induction n generalizing k p with
  | zero => exact .pure hR hp trivial
  | succ n ih =>
    refine (isClosed_yields hp).bind hR fun closed q _ hq _ => ?_
    split
    · exact .pure hR hq trivial
    · exact (hturn k q hq).bind hR fun _ q _ hq _ => ih (k + 1) hq

/-- A turn is made for each element. -/
theorem handles_each {turn : Nat → Expr → Emission PUnit}
    (hturn : ∀ k e q, g.Keeps P q → g.Handles P (turn k e) q) (es : List Expr) (k : Nat)
    (hp : g.Keeps P p) : g.Handles P (Replay.each turn es k) p := by
  have hR := g.invariant P
  induction es generalizing k p with
  | nil => exact .pure hR hp trivial
  | cons e rest ih =>
    refine (isClosed_yields hp).bind hR fun closed q _ hq _ => ?_
    split
    · exact .pure hR hq trivial
    · exact (hturn k e q hq).bind hR fun _ q _ hq _ => ih (k + 1) hq

/-- The name of the number of an iteration is spelled. -/
theorem handles_nameOr (hp : g.Keeps P p) (e : Option Expr) :
    g.Handles P (liftM (Replay.nameOr w.around e) : Emission Text) p := by
  refine .act (g.invariant P) hp ?_
  cases e with
  | none => exact .pure (g.tracks.refl p.2) trivial
  | some e => exact Eval.nameOf_yields (g.evaluates w.around) e p.2

theorem handles_nameOf (hp : g.Keeps P p) (e : Expr) :
    g.Handles P (liftM (Eval.nameOf w.around e) : Emission Text) p :=
  .act (g.invariant P) hp (Eval.nameOf_yields (g.evaluates w.around) e p.2)

theorem handles_require {α : Type} (hp : g.Keeps P p) (x : Except Cause α) :
    g.Handles P (Emission.require x) p :=
  .require (g.invariant P) hp fun _ _ => trivial

/-- A statement that waits for its bounds is passed on, unless it must not wait. -/
theorem handles_defer (hp : g.Keeps P p) {strict : Bool} {item : Item} (hitem : strict = false → P item)
    (e : Expr) : g.Handles P (Replay.defer strict item e) p := by
  rw [Replay.defer]
  split
  · exact .raise (g.invariant P) hp _
  · rename_i hwaits
    exact handles_emitItem hp (hitem (by simpa using hwaits))

/-- DUPF. -/
theorem handles_sequence (hP : g.Admits P) (hw : g.Equips w) (hp : g.Keeps P p) {strict : Bool}
    {item : Item} (hitem : strict = false → P item) (loc : Location) (counter : Option Expr) (element : Expr)
    (first last step : Option Expr) {body : List Token} (hbody : ∀ t ∈ body, g.source t) :
    g.Handles P (Replay.sequence w item strict loc counter element first last step body) p := by
  have hR := g.invariant P
  rw [Replay.sequence.eq_def]
  split
  · exact handles_defer hp hitem _
  · refine (handles_require hp _).bind hR fun start q _ hq _ => ?_
    refine (handles_require hq _).bind hR fun stride q _ hq _ => ?_
    split
    · exact .report hR hq _
    · refine (handles_require hq _).bind hR fun stop q _ hq _ => ?_
      split
      · exact .report hR hq _
      · refine (handles_nameOr hq counter).bind hR fun counter q _ hq _ => ?_
        refine (handles_nameOf hq element).bind hR fun element q _ hq _ => ?_
        rw [Replay.walk_eq_times]
        exact handles_times (fun k q hq => handles_turn hP hw hq _ hbody k _) _ _ hq

/-- DUP, DUPA, DUPC and DUPF. -/
theorem handles_dup (hP : g.Admits P) (hw : g.Equips w) (hp : g.Keeps P p) {strict : Bool}
    {item : Item} (hitem : strict = false → P item) (loc : Location) (counter : Option Expr) (iteration : Iteration)
    {body : List Token} (hbody : ∀ t ∈ body, g.source t) :
    g.Handles P (Replay.dup w strict item loc counter iteration body) p := by
  have hR := g.invariant P
  cases iteration with
  | count n =>
    rw [Replay.dup]
    split
    · refine (handles_require hp _).bind hR fun n q _ hq _ => ?_
      refine (handles_nameOr hq counter).bind hR fun counter q _ hq _ => ?_
      exact handles_times (fun k q hq => handles_turn hP hw hq _ hbody k _) _ _ hq
    · exact handles_defer hp hitem n
  | list element items =>
    rw [Replay.dup]
    split
    · exact handles_defer hp hitem _
    · refine (handles_nameOr hp counter).bind hR fun counter q _ hq _ => ?_
      refine (handles_nameOf hq element).bind hR fun element q _ hq _ => ?_
      exact handles_each (fun k e q hq => handles_turn hP hw hq _ hbody k _) _ _ hq
  | characters element strings =>
    rw [Replay.dup]
    split
    · exact handles_defer hp hitem _
    · refine (handles_nameOr hp counter).bind hR fun counter q _ hq _ => ?_
      refine (handles_nameOf hq element).bind hR fun element q _ hq _ => ?_
      refine (handles_require hq _).bind hR fun items q _ hq _ => ?_
      exact handles_each (fun k e q hq => handles_turn hP hw hq _ hbody k _) _ _ hq
  | sequence element first last step =>
    exact handles_sequence hP hw hp hitem loc counter element first last step hbody

end Replay

end Grammar

end MacroAsm
