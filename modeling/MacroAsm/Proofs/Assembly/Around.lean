import MacroAsm.Proofs.Assembly.Repetition

/-!
# Programs that differ in one statement

Two programs that are the same but for one statement go through the stages alike apart from it: the statements in
front are taken (`Entry.Reached`), and what is written around the statement depends on what the second stage leaves of
it and on the definitions behind it (`Entry.writesAround`). A statement stands for tokens if, for it, a block writes
what the tokens lead to by every solution of these definitions (`Entry.StandsFor`), as a DUP does or an IF that is
expanded at once (`Entry.standsFor_direct`). Statements that stand for the same tokens write the same
(`Entry.map_erase_around`).
-/

namespace MacroAsm

namespace Entry

open Eval (Leaves Solves Following PortableNames)

section Number

variable {u : Surroundings} {radix : Nat} {b b' : Text → Binding} {source : List Token} {items : List Item}

/-- A name that is not built is left as it is. -/
theorem eq_of_leaves_name {loc : Location} {name : Text} {v : Expr}
    (h : Leaves u radix b (.identifier loc name) false v) : v = .identifier loc name := by
  obtain ⟨n, hn⟩ := h
  rw [Eval.outcome_of_name? rfl] at hn
  exact (Option.some.inj hn).symm

/-- A name that is defined as a number stands for nothing before, and for the number in the end. -/
theorem EntersAll.number (h : EntersAll u radix b source items b') {loc nameLoc l : Location} {name via : Text}
    {c : Int64} (hmem : .assign loc .equate (.identifier nameLoc name) (.number l c via) ∈ source) :
    (b name).isSet = false ∧ b' name = ⟨some (.number l c via), false⟩ := by
  induction h with
  | nil => exact absurd hmem List.not_mem_nil
  | @cons b b₁ b₂ t rest items items' hfirst hrest ih =>
    rcases List.mem_cons.1 hmem with rfl | hmem
    · cases hfirst with
      | @equate _ l' _ n' _ v other hbuilt hname hvalue hunset =>
        obtain rfl := eq_of_leaves_name hbuilt
        obtain heq := eq_of_leaves_name hname
        cases heq
        obtain ⟨n, hn⟩ := hvalue
        cases hn
        have hbound : Function.update b name ⟨some (.number l c via), false⟩ name = ⟨some (.number l c via), false⟩ :=
          Function.update_self ..
        exact ⟨hunset, (hrest.eq_of_isSet (by rw [hbound]; rfl)).trans hbound⟩
    · obtain ⟨hunset, hbound⟩ := ih hmem
      refine ⟨?_, hbound⟩
      -- a name that is set before the first statement is set after it
      by_contra hset
      rw [hfirst.eq_of_isSet (by simpa using hset)] at hunset
      exact hset hunset

/-- A name that stands for nothing. -/
def IsUnset (b : Text → Binding) (e : Expr) : Prop :=
  ∃ loc name, e = .identifier loc name ∧ (b name).isSet = false

/-- A name that stands for a number. -/
def StandsForNumber (b : Text → Binding) (e : Expr) (n : Int64) : Prop :=
  ∃ loc name l via, e = .identifier loc name ∧ b name = ⟨some (.number l n via), false⟩

/-- A name that an EQU among statements binds to a number. -/
def BoundIn (source : List Token) (e : Expr) (n : Int64) : Prop :=
  ∃ nameLoc name defLoc defName l via, e = .identifier nameLoc name ∧
    .assign defLoc .equate (.identifier defName name) (.number l n via) ∈ source

/-- Such a name stands for nothing in front of the statements. -/
theorem BoundIn.isUnset {e : Expr} {n : Int64} (h : BoundIn source e n)
    (henters : EntersAll u radix b source items b') : IsUnset b e := by
  obtain ⟨nameLoc, name, defLoc, defName, l, via, rfl, hmem⟩ := h
  exact ⟨nameLoc, name, rfl, (henters.number hmem).1⟩

/-- It stands for the number behind them. -/
theorem BoundIn.standsForNumber {e : Expr} {n : Int64} (h : BoundIn source e n)
    (henters : EntersAll u radix b source items b') : StandsForNumber b' e n := by
  obtain ⟨nameLoc, name, defLoc, defName, l, via, rfl, hmem⟩ := h
  exact ⟨nameLoc, name, l, via, rfl, (henters.number hmem).2⟩

/-- What stands for a value before stands for one in the end. -/
theorem EntersAll.mem_of_isSome (h : EntersAll u radix b source items b') {dom : Finset Text}
    (hdom : ∀ name, (b' name).value.isSome → name ∈ dom) : ∀ name, (b name).value.isSome → name ∈ dom := by
  intro name hname
  refine hdom name ?_
  rwa [h.eq_of_isSet (by rw [Binding.isSet, hname]; rfl)]

end Number

section Around

variable {w : Workbench} {s : State} {t : Trail}

/-- From every state in which names stand for `b`, a stage adds tokens that satisfy `Q` or reports a failure. Names
stand for the same after it. -/
def Adds (b : Text → Binding) (stage : Trail → StateM State Trail) (Q : List Token → Prop) : Prop :=
  ∀ (t : Trail) (s : State), t.stopped = false → s.scope.binding = b →
    Advances t (fun added s' => s'.scope.binding = b ∧ Q (added.map Item.token)) ((stage t).run s)

section Adds

variable {b : Text → Binding} {f : Item → Trail → StateM State Trail} {E : Item → List Token → Prop}
  {items rest : List Item}

theorem adds_feed (hgrows : Stage.Grows f) (h : ∀ i ∈ items, Adds b (f i) (E i)) :
    Adds b (Stage.feed f items) fun ts => ∃ tss, ts = tss.flatten ∧ List.Forall₂ E items tss :=
  fun _ _ ht hs => advances_feed hgrows h ht hs

/-- Items add tokens one after the other, and then what follows them does. -/
theorem adds_feed_append (hgrows : Stage.Grows f) {Q : List Token → Prop} (h : ∀ i ∈ items, Adds b (f i) (E i))
    (hrest : Adds b (Stage.feed f rest) Q) :
    Adds b (Stage.feed f (items ++ rest)) fun ts =>
      ∃ tss ts', ts = tss.flatten ++ ts' ∧ List.Forall₂ E items tss ∧ Q ts' := by
  intro t s ht hs
  have hfed := adds_feed hgrows h t s ht hs
  rcases hrun : (Stage.feed f items t).run s with ⟨t1, s1⟩
  rw [hrun] at hfed
  rw [Stage.run_feed_append hrun]
  rcases hfed with hfails | ⟨added, hadded, ht1, hs1, tss, htokens, hall⟩
  · exact Or.inl (Stage.fails_feed hgrows hfails _ s1)
  · refine (hrest t1 s1 ht1 hs1).imp_right ?_
    rintro ⟨added', hadded', ht2, hs2, hQ⟩
    refine ⟨added ++ added', by rw [hadded', hadded, List.append_assoc], ht2, hs2, tss, added'.map Item.token, ?_,
      hall, hQ⟩
    rw [List.map_append, htokens]

theorem adds_data (w : Workbench) {i : Item} (hi : i.token.isData = true) :
    Adds b (finishOne w i) (Completes w.around (b Scope.radixName).radix b i) :=
  fun _ _ ht hs => advances_finish_data w ht hi hs

/-- The third stage adds diagnostics as they are. -/
theorem adds_message (w : Workbench) {i : Item} (hi : i.token.isMessage = true) :
    Adds b (finishOne w i) fun ts => ts = [i.token] := by
  intro t s ht hs
  obtain ⟨token, pending⟩ := i
  cases token with
  | message d => exact advances_message ht fun _ => ⟨hs, rfl⟩
  | _ => cases hi

/-- Diagnostics that are added are no products. -/
theorem products_of_messages {tss : List (List Token)} (hitems : ∀ i ∈ items, i.token.isMessage = true)
    (h : List.Forall₂ (fun i ts => ts = [i.token]) items tss) : Token.products tss.flatten = [] := by
  induction h with
  | nil => rfl
  | cons hfirst _ ih =>
    rw [List.forall_mem_cons] at hitems
    rw [List.flatten_cons, Token.products_append, ih hitems.2, hfirst, List.append_nil]
    exact Token.products_eq_nil (List.forall_mem_singleton.2 hitems.1)

/-- The third stage of a block with a loop in it: diagnostics of the loop, data in front of the loop, what is left of
the loop, and data behind it. -/
theorem adds_around (w : Workbench) {reports kept loop : List Item}
    (hreports : ∀ i ∈ reports, i.token.isMessage = true) (hkept : ∀ i ∈ kept, i.token.isData = true)
    (hloop : ∀ i ∈ loop, Adds b (finishOne w i) (E i)) (hrest : ∀ i ∈ rest, i.token.isData = true) :
    Adds b (Stage.feed (finishOne w) (reports ++ (kept ++ (loop ++ rest)))) fun ts => ∃ tss₁ tss tss₂,
      List.Forall₂ (Completes w.around (b Scope.radixName).radix b) kept tss₁ ∧ List.Forall₂ E loop tss ∧
      List.Forall₂ (Completes w.around (b Scope.radixName).radix b) rest tss₂ ∧
      Token.products ts =
        Token.products tss₁.flatten ++ (Token.products tss.flatten ++ Token.products tss₂.flatten) := by
  have hgrows : Stage.Grows (finishOne w) := Stage.grows_through _ _ _
  have hadds := adds_feed_append hgrows (fun i hi => adds_message w (hreports i hi)) <|
    adds_feed_append hgrows (fun i hi => adds_data w (hkept i hi)) <|
      adds_feed_append hgrows hloop <| adds_feed hgrows fun i hi => adds_data w (hrest i hi)
  intro t s ht hs
  refine (hadds t s ht hs).imp_right ?_
  rintro ⟨added, hadded, hstopped, hs', told, ts, htokens, htold, tss₁, ts₁, rfl, hfirst, tss, ts₂, rfl, hturns, tss₂,
    rfl, hlast⟩
  refine ⟨added, hadded, hstopped, hs', tss₁, tss, tss₂, hfirst, hturns, hlast, ?_⟩
  rw [htokens, Token.products_append, Token.products_append, Token.products_append,
    products_of_messages hreports htold, List.nil_append]

end Adds

/-- Of a list of data there is no diagnostic to come first. -/
theorem filter_isMessage_of_isData {items : List Item} (h : ∀ i ∈ items, i.token.isData = true) :
    items.filter (fun i => i.token.isMessage) = [] ∧ items.filter (fun i => !i.token.isMessage) = items := by
  have hnone : ∀ i ∈ items, i.token.isMessage = false := by
    intro i hi
    have hdata := h i hi
    cases htoken : i.token with
    | message d =>
      rw [htoken] at hdata
      cases hdata
    | _ => rfl
  exact ⟨List.filter_eq_nil_iff.2 fun i hi => by simp [hnone i hi],
    List.filter_eq_self.2 fun i hi => by simp [hnone i hi]⟩

/-- The second stage has reached a statement of a block: what was left of the statements before it is data, and names
stand for what can be evaluated in any block. -/
structure Reached (s : State) (t : Trail) (kept : List Item) : Prop where
  /-- The stage goes on. -/
  running : t.stopped = false
  /-- The items that were left. -/
  items : t.items = kept
  /-- They are data. -/
  isData : ∀ i ∈ kept, i.token.isData = true
  /-- The radix is bound. -/
  radix : (s.scope.binding Scope.radixName).isSet = true
  /-- What names stand for. -/
  names : PortableNames s.scope.binding

/-- A block that comes to a statement: what is written around the statement, if the second stage leaves items that
satisfy `D` of it, and the third one writes for them what `E` tells of the names that are bound in the end. -/
theorem writesAround {kept : List Item} {d : Token} {after : List Token} {D : List Item → Prop}
    {E : (Text → Binding) → Item → List Token → Prop} (hreached : Reached s t kept)
    (hafter : ∀ token ∈ after, token.isEquate = true ∨ token.isData = true)
    (hbind : Advances t (fun items s' => s'.scope.binding = s.scope.binding ∧ D items)
      ((bindOne w (.settled d) t).run s))
    (hfinish : ∀ b items', EntersAll w.around s.scope.radix s.scope.binding after items' b →
      ∀ items, D items → ∀ i ∈ items, i.token.isMessage = false → Adds b (finishOne w i) (E b i))
    {t' : Trail} {s' : State} (hrun : (Stage.feed (bindOne w) ((d :: after).map .settled) t).run s = (t', s')) :
    (∃ i ∈ ((w.finishStage t'.items).run s').1.items, i.token.fails = true) ∨
      WritesAround w.around s.scope.binding kept after
        (fun b ts => ∃ items tss, D items ∧
          List.Forall₂ (E b) (items.filter fun i => !i.token.isMessage) tss ∧ ts = tss.flatten)
        ((w.finishStage t'.items).run s').1.tokens := by
  obtain ⟨ht, hkept, hdata, hradix, -⟩ := hreached
  rcases hfirst : (bindOne w (.settled d) t).run s with ⟨t1, s1⟩
  rw [hfirst] at hbind
  rw [List.map_cons, Stage.run_feed_cons ht hfirst] at hrun
  rcases hbind with hfails | ⟨items, hitems, ht1, hs1, hD⟩
  · have hfailed := Stage.fails_feed (f := bindOne w) (Stage.grows_through _ _ _) hfails (after.map .settled) s1
    rw [hrun] at hfailed
    exact Or.inl (fails_finishStage w hfailed s')
  have hentered := advances_feed_bind w ht1 hafter (s := s1) (by rw [hs1]; exact hradix)
  have hsame : s1.scope.radix = s.scope.radix := by rw [Scope.radix_eq, hs1, ← Scope.radix_eq]
  rw [hrun, hs1, hsame] at hentered
  rcases hentered with hfails | ⟨items', hitems', -, henters⟩
  · exact Or.inl (fails_finishStage w hfails s')
  have hdata' : ∀ i ∈ items', i.token.isData = true := by
    intro i hi
    obtain ⟨loc, kind, vs, htoken⟩ := henters.isData i hi
    rw [htoken]
    rfl
  -- the diagnostics of the loop come first
  have horder : Stage.messagesFirst t'.items = items.filter (fun i => i.token.isMessage) ++
      (kept ++ (items.filter (fun i => !i.token.isMessage) ++ items')) := by
    rw [Stage.messagesFirst, hitems', hitems, hkept]
    simp only [List.filter_append, filter_isMessage_of_isData hdata, filter_isMessage_of_isData hdata',
      List.nil_append, List.append_nil, List.append_assoc]
  have hloop : ∀ i ∈ items.filter (fun i => !i.token.isMessage),
      Adds s'.scope.binding (finishOne w i) (E s'.scope.binding i) := by
    intro i hi
    obtain ⟨hmem, hmessage⟩ := List.mem_filter.1 hi
    exact hfinish _ items' henters items hD i hmem (by simpa using hmessage)
  have hreports : ∀ i ∈ items.filter (fun i => i.token.isMessage), i.token.isMessage = true :=
    fun i hi => (List.mem_filter.1 hi).2
  have hfinished := adds_around w hreports hdata hloop hdata' Trail.empty s' rfl rfl
  rw [← horder, ← finishStage_eq] at hfinished
  refine hfinished.imp_right ?_
  rintro ⟨added, hadded, -, -, tss₁, tss, tss₂, hbefore, hturns, hlast, hproducts⟩
  have hradix' : (s'.scope.binding Scope.radixName).radix = (s.scope.binding Scope.radixName).radix := by
    rw [henters.eq_of_isSet hradix]
  rw [hradix'] at hbefore hlast
  rw [Scope.radix_eq] at henters
  refine ⟨s'.scope.binding, Eval.domain s'.scope, items', tss₁, tss.flatten, tss₂,
    Eval.mem_domain_of_isSome s'.scope, henters, hbefore, ⟨items, tss, hD, hturns, rfl⟩, hlast, ?_⟩
  rw [Trail.tokens, hadded]
  exact hproducts

/-- What is written for a statement is what tokens lead to by every solution of the definitions behind it. -/
def WritesFor (u : Surroundings) (b : Text → Binding) (after source : List Token)
    (Q : (Text → Binding) → List Token → Prop) : Prop :=
  ∀ (g : Following) (b' : Text → Binding) (dom : Finset Text) (items : List Item) (ts : List Token),
    (∀ name, (b' name).value.isSome → name ∈ dom) → IsSolution u (b Scope.radixName).radix b after g →
    EntersAll u (b Scope.radixName).radix b after items b' → Q b' ts →
    ∃ tss, List.Forall₂ (Writes u (b Scope.radixName).radix g) source tss ∧
      Token.products ts = Token.products tss.flatten

/-- From wherever the second stage reaches the statement `d`, over names of which `P` holds, a block that goes on with
`after` reports a failure, or writes for `d` what the tokens of `source` lead to. -/
def StandsFor (w : Workbench) (P : (Text → Binding) → Prop) (d : Token) (after source : List Token) : Prop :=
  ∀ (s s' : State) (t t' : Trail) (kept : List Item), Reached s t kept → P s.scope.binding →
    (Stage.feed (bindOne w) ((d :: after).map .settled) t).run s = (t', s') →
    (∃ i ∈ ((w.finishStage t'.items).run s').1.items, i.token.fails = true) ∨
      ∃ Q, WritesFor w.around s.scope.binding after source Q ∧
        WritesAround w.around s.scope.binding kept after Q ((w.finishStage t'.items).run s').1.tokens

/-- A statement over data that is expanded at once is assembled over what names stand for at the statement. -/
theorem standsFor_direct {body after : List Token} {n : Nat} {d : Token} (hargs : w.around.args = [])
    (hbody : ∀ t ∈ body, t.isDatum = true) (hafter : ∀ token ∈ after, token.isEquate = true ∨ token.isData = true)
    (hd : w.IsPassed d) (hreduce : ∀ s, (Token.reduce w.around d).exec s = (.ok d, s))
    (hexpand : ∀ (b : Text → Binding) (pending : Bool), (b Scope.radixName).isSet = true →
      Replay.Replays b (Pass.localize w ⟨d, pending⟩) (Replay.WrittenTimes w.around.args b body n)) :
    StandsFor w (fun _ => True) d after (List.replicate n body).flatten := by
  intro s s' t t' kept hreached _ hfeed
  refine (writesAround (E := fun b => Finishes w.around (b Scope.radixName).radix b) hreached hafter
    (advances_bind_direct hreached.running hd (hreduce s) rfl fun pending =>
      (hexpand _ pending hreached.radix).replaysFrom rfl)
    (fun b items' _ items hD i hi _ t s ht hs => advances_finish_inert w ht (hD.1 i hi) hs)
    hfeed).imp_right fun h => ⟨_, ?_, h⟩
  rintro g b dom items ts hdom hg henters ⟨turns, tss, ⟨-, hwritten⟩, hfinishes, rfl⟩
  obtain ⟨hsolves, hrest⟩ := EntersAll.solved hargs hg henters
  rw [henters.eq_of_isSet hreached.radix] at hfinishes
  -- what waits in it is marked, and evaluated again in the third stage
  have hmark : ∀ t, (Item.spliced t).token = t := fun _ => rfl
  have hsame : ∀ t, id (Item.spliced t) = Item.spliced t := fun _ => rfl
  exact writes_of_writtenTimes hmark hsolves hrest hargs (henters.mem_of_isSome hdom) hg.bound hreached.names rfl
    (Or.inl fun t ht => by simpa [Item.spliced] using ht) hsame hbody hwritten (by rwa [List.map_id])

/-- A block with a statement in it that the first stage passes on goes through the second stage and the third one. -/
theorem run_around (w : Workbench) {before after : List Token} {d : Token} (hd : w.IsPassed d)
    (hbefore : ∀ t ∈ before, t.isSequential = true) (hafter : ∀ t ∈ after, t.isEquate = true ∨ t.isData = true)
    {s s1 s' : State} {t1 t' : Trail}
    (hfirst : (Stage.feed (bindOne w) (before.map .settled) Trail.empty).run s = (t1, s1))
    (hrest : (Stage.feed (bindOne w) ((d :: after).map .settled) t1).run s1 = (t', s')) :
    (w.run (before ++ d :: after)).run s = (w.finishStage t'.items).run s' := by
  refine w.run_of_isPassed (fun t ht => ?_) ?_
  · rcases List.mem_append.1 ht with ht | ht
    · exact Token.declareGlobals_of_isSequential w (hbefore t ht)
    · rcases List.mem_cons.1 ht with rfl | ht
      · exact hd
      · exact Token.declareGlobals_of_isSequential w (Token.isSequential_of_equate_or_data (hafter t ht))
  · rw [List.map_append]
    exact (Stage.run_feed_append hfirst _).trans hrest

end Around

end Entry

theorem Assembler.maxDepth_pos (a : Assembler) : 0 < a.maxDepth := by
  rw [Assembler.maxDepth]
  split
  · exact Nat.succ_pos _
  · omega

namespace Entry

open Eval (PortableNames)

/-- Blocks may be nested, and a nested block assembles data. -/
theorem exists_assemblesData (a : Assembler) : ∃ run, a.runner a.maxDepth = some run ∧ run.AssemblesData := by
  obtain ⟨depth, hdepth⟩ := Nat.exists_eq_succ_of_ne_zero (Nat.ne_of_gt a.maxDepth_pos)
  have hrun := Assembler.runner_succ a depth
  rw [← Nat.succ_eq_add_one, ← hdepth] at hrun
  exact ⟨_, hrun, Assembler.assemblesData_runner hrun⟩

/-- If a program reports no failure then its block does not, and their products are the same. -/
theorem quiet_assemble {a : Assembler} {scope : Scope} {source : List Token} {r : Trail × State}
    (h : (Workbench.run ⟨a, a.outermost, a.runner a.maxDepth⟩ source).run (Assembler.start scope) = r)
    (hok : ∀ t ∈ (a.assemble scope source).tokens, t.fails = false) :
    (¬ ∃ i ∈ r.1.items, i.token.fails = true) ∧
      Token.products (a.assemble scope source).tokens = Token.products r.1.tokens := by
  obtain ⟨trail, s⟩ := r
  refine ⟨fun hfails => ?_, products_assemble h⟩
  obtain ⟨t, ht, hfails⟩ := fails_assemble h hfails
  exact Bool.false_ne_true ((hok t ht).symm.trans hfails)

/-- Two programs that differ in one statement write the same if both statements stand for the same tokens and neither
program reports a failure. What the first one asks of names is known from the definitions behind it. -/
theorem map_erase_around (a : Assembler) (scope : Scope) {P : (Text → Binding) → Prop} {d d' : Token}
    {before after source : List Token}
    (hd : Workbench.IsPassed ⟨a, a.outermost, a.runner a.maxDepth⟩ d)
    (hd' : Workbench.IsPassed ⟨a, a.outermost, a.runner a.maxDepth⟩ d')
    (hradix : (scope.binding Scope.radixName).isSet = true) (hnames : PortableNames scope.binding)
    (hbefore : ∀ t ∈ before, t.isSequential = true) (hafter : ∀ t ∈ after, t.isEquate = true ∨ t.isData = true)
    (hlate : StandsFor ⟨a, a.outermost, a.runner a.maxDepth⟩ P d after source)
    (hdirect : StandsFor ⟨a, a.outermost, a.runner a.maxDepth⟩ (fun _ => True) d' after source)
    (hP : ∀ radix b items b', EntersAll a.outermost.around radix b after items b' → P b)
    (hok : ∀ t ∈ (a.assemble scope (before ++ d :: after)).tokens, t.fails = false)
    (hok' : ∀ t ∈ (a.assemble scope (before ++ d' :: after)).tokens, t.fails = false) :
    (Token.products (a.assemble scope (before ++ d :: after)).tokens).map Token.erase =
      (Token.products (a.assemble scope (before ++ d' :: after)).tokens).map Token.erase := by
  let w : Workbench := ⟨a, a.outermost, a.runner a.maxDepth⟩
  have hargs : w.around.args = [] := rfl
  -- both programs take the statements in front alike
  have htaken := advances_feed_takes w (t := Trail.empty) rfl hbefore (s := Assembler.start scope) hradix
  rcases hfirst : (Stage.feed (bindOne w) (before.map .settled) Trail.empty).run (Assembler.start scope) with ⟨t, s⟩
  rw [hfirst] at htaken
  rcases hrun : (Stage.feed (bindOne w) ((d :: after).map .settled) t).run s with ⟨t₁, s₁⟩
  rcases hrun' : (Stage.feed (bindOne w) ((d' :: after).map .settled) t).run s with ⟨t₂, s₂⟩
  obtain ⟨hquiet₁, hproducts₁⟩ := quiet_assemble (run_around w hd hbefore hafter hfirst hrun) hok
  obtain ⟨hquiet₂, hproducts₂⟩ := quiet_assemble (run_around w hd' hbefore hafter hfirst hrun') hok'
  rcases htaken with hfails | ⟨kept, hkept, ht, htakes⟩
  · have hkeeps := Stage.fails_feed (f := bindOne w) (Stage.grows_through _ _ _) hfails ((d' :: after).map .settled) s
    rw [hrun'] at hkeeps
    exact absurd (fails_finishStage w hkeeps s₂) hquiet₂
  · have hreached : Reached s t kept :=
      ⟨ht, hkept, htakes.isData, htakes.isSet hradix, htakes.portableNames (by simp [hargs]) hnames⟩
    obtain ⟨Q₂, hfor₂, haround₂⟩ := (hdirect s s₂ t t₂ kept hreached trivial hrun').resolve_left hquiet₂
    have hunset : P s.scope.binding := by
      obtain ⟨b', _, items, _, _, _, -, henters, -⟩ := haround₂
      exact hP _ _ items b' henters
    obtain ⟨Q₁, hfor₁, haround₁⟩ := (hlate s s₁ t t₁ kept hreached hunset hrun).resolve_left hquiet₁
    rw [hproducts₁, hproducts₂]
    exact WritesAround.map_erase_eq hargs hfor₁ hfor₂ haround₁ haround₂

end Entry

theorem Scope.find?_root (root : Frame) (name : Text) : Scope.find? ⟨root, []⟩ name = root.find? name := by
  rw [find?_eq]
  rfl

/-- The only name that stands for something in the initial scope is that of the radix. -/
theorem Entry.portableNames_initial : Eval.PortableNames Scope.initial.binding := by
  intro name v hv
  rw [Scope.binding, Scope.initial, Scope.find?_root, Frame.find?_insert] at hv
  split at hv
  · cases hv
    rfl
  · cases hv

/-- The bytes that a token writes. -/
def Token.written : Token → List UInt8
  | .bytes _ values => values
  | _ => []

namespace Entry

/-- A SET of the name A. -/
def setA (n : Int64) : Token := .assign Location.none .set (.identifier Location.none "A") (.literal Location.none n)

/-- `B EQU 3` and `N EQU 2`. -/
def equateBN : List Token :=
  [.assign Location.none .equate (.identifier Location.none "B") (.literal Location.none 3),
    .assign Location.none .equate (.identifier Location.none "N") (.literal Location.none 2)]

end Entry

end MacroAsm
