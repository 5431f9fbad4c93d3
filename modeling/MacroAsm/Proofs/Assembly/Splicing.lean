import MacroAsm.Proofs.Assembly.Placement

/-!
# Placing labels in nested blocks

The output of a nested block takes the place of the statement that it was assembled from, and its labels with it
(`Expand.traces_expand`), given that nested blocks are assembled so that what is referred to is placed
(`Runner.Places`). So it is for an INCLUDE, for a macro call, and for each iteration of a DUP.
-/

namespace MacroAsm

open Snapshot (Leads)
open Emission (Traces)

/-- A runner assembles nested blocks so that what is referred to is placed, as far as the properties `C` of labels
tell. No token before the last that it gives is terminal, and nothing is left to be expanded. -/
structure Runner.Places (naming : Naming) (C : (Text → Prop) → Prop) (run : Runner) : Prop where
  /-- What is referred to is placed. -/
  leads : ∀ b body s, Leads naming []
    (fun D => (∀ t ∈ body, t.isOriginal = true) ∧ C D ∧ ∀ a ∈ b.around.args, a.Within D)
    (fun _ => True) ([], s) ((run b body).run s)
  /-- Nothing is left to be expanded. -/
  finishes : run.Finishes
  /-- No token before the last is terminal. -/
  ordered : ∀ b body s, ∀ t ∈ ((run b body).run s).1.dropLast, t.isTerminal b.inMacro = false

/-- A workbench with such a runner, and with included files that are made of statements as they are written. -/
structure Workbench.Places (C : (Text → Prop) → Prop) (w : Workbench) : Prop where
  /-- The runner of nested blocks. -/
  runner : ∀ run, w.runner = some run → run.Places w.assembler.naming C
  /-- Included files. -/
  includer : ∀ find, w.assembler.includer = some find → ∀ loc path loader body,
    find loc path loader = .ok body → ∀ t ∈ body, t.isOriginal = true

/-- What is given from nothing may be given after other tokens, as long as no place and no failure is left out. -/
theorem Snapshot.Leads.after {naming : Naming} {budget : List Text} {P Q : (Text → Prop) → Prop} {s s' : State}
    {ts ts' : List Token}
    (h : Leads naming budget P Q ([], s) (ts, s')) (hplaces : Token.allPlaces ts' = Token.allPlaces ts)
    (hsub : ∀ t ∈ ts', t ∈ ts) (hfails : ∀ t ∈ ts, t.fails = true → t ∈ ts') (before : List Token) :
    Leads naming budget P Q (before, s) (before ++ ts', s') where
  grows t ht := List.mem_append_left ts' ht
  supply := h.supply
  count hP hc id := by
    have hcount := h.count hP ⟨fun _ ht => absurd ht List.not_mem_nil, hc.scope⟩ id
    rw [Token.allPlaces, List.count_nil] at hcount
    rw [Token.allPlaces_append, List.count_append, hplaces]
    dsimp only at hcount ⊢
    omega
  within D hP hc := by
    rcases h.within D hP ⟨fun _ ht => absurd ht List.not_mem_nil, hc.scope⟩ with hescapes | ⟨hc', hQ⟩
    · obtain ⟨id, hid, hplace | ⟨t, ht, hfail⟩⟩ := hescapes
      · refine Or.inl ⟨id, hid, Or.inl ?_⟩
        rw [Token.allPlaces_append, hplaces]
        exact List.mem_append_right _ hplace
      · exact Or.inl ⟨id, hid, Or.inr ⟨t, List.mem_append_right _ (hfails t ht hfail), hfail⟩⟩
    · refine Or.inr ⟨⟨fun t ht => ?_, hc'.scope⟩, hQ⟩
      rcases List.mem_append.1 ht with ht | ht
      · exact hc.tokens t ht
      · exact hc'.tokens t (hsub t ht)

/-- The account of the names of a block. -/
theorem Snapshot.leads_account {naming : Naming} {P : (Text → Prop) → Prop} (nested : Bool) (ts : List Token)
    (s : State) :
    Leads naming [] P (fun _ => True) (ts, s) (ts ++ ((account nested).run s).1, ((account nested).run s).2) := by
  have hstate : Leads naming [] P (fun _ => True) (ts, s) (ts, ((account nested).run s).2) :=
    .state (Nat.le_refl _) fun D _ hs => ⟨hs.accountFor nested _, trivial⟩
  exact hstate.trans (.report fun t ht => (mem_account ht).1)

section Expansion

variable {naming : Naming} {budget : List Text} {C P : (Text → Prop) → Prop} {p : Output × State} {w : Workbench}
  {inMacro : Bool}

namespace Emission.Traces

variable {β : Type} {Q' : β → (Text → Prop) → Prop}

/-- A handling that goes on with the runner of nested blocks. -/
theorem runner_bind {k : Runner → Emission β} (hw : w.Places C)
    (hk : ∀ run, run.Places w.assembler.naming C → Traces w.assembler.naming budget P Q' (k run) p) :
    Traces w.assembler.naming budget P Q' (w.requireRunner >>= k) p := by
  rw [Workbench.requireRunner]
  split
  · rename_i run hrun
    exact hk run (hw.runner run hrun)
  · exact (report _).spare budget

/-- A handling that goes on with a nested block under a new name. -/
theorem block_bind {args : List Expr} {kind : Bool} {k : Block → Emission β}
    (hk : ∀ b : Block, b.around.args = args → b.inMacro = kind →
      Traces naming budget P Q' (k b) (p.1, { p.2 with supply := p.2.supply + 1 })) :
    Traces naming budget P Q' (liftM (Block.fresh naming args kind) >>= k) p := by
  have hfresh : Traces naming [] P (fun _ _ => True) (liftM (Block.fresh naming args kind) : Emission Block) p :=
    .act (Nat.le_succ _) fun D _ hs => ⟨hs, fun _ _ => trivial⟩
  refine hfresh.act_bind fun b s' h => ?_
  cases h
  exact (hk _ rfl rfl).imp fun _ h => h.1

end Emission.Traces

namespace Expand

/-- What is dropped is no place, and fails nothing. -/
theorem places_of_isDropped {macroCall : Bool} {t : Token} (h : isDropped macroCall t = true) :
    t.places = [] ∧ t.fails = false := by
  cases t with
  | exitMacro => exact ⟨rfl, rfl⟩
  | _ => cases h

/-- No place is dropped. -/
theorem allPlaces_filter_isDropped (macroCall : Bool) (ts : List Token) :
    Token.allPlaces (ts.filter fun t => !isDropped macroCall t) = Token.allPlaces ts := by
  induction ts with
  | nil => rfl
  | cons t rest ih =>
    rw [List.filter_cons]
    split
    · rw [Token.allPlaces, Token.allPlaces, ih]
    · rename_i hdropped
      rw [Token.allPlaces, (places_of_isDropped (by simpa using hdropped)).1, List.nil_append, ih]

/-- The tokens of a nested block that take part in the output are all taken by an open output. -/
theorem tokens_splice {b : Block} {macroCall : Bool} (hfits : Fits inMacro macroCall b) {o : Output}
    (ho : o.Ready inMacro) {ts : List Token} (hordered : ∀ t ∈ ts.dropLast, t.isTerminal b.inMacro = false) :
    (o.pushAll ((ts.filter fun t => !isDropped macroCall t).map .spliced)).tokens =
      o.tokens ++ ts.filter fun t => !isDropped macroCall t := by
  -- what stays before the last token was before the last one
  have hbefore : ∀ t ∈ (ts.filter fun t => !isDropped macroCall t).dropLast,
      t ∈ ts.dropLast ∧ isDropped macroCall t = false := by
    intro t ht
    have hkept := (List.mem_filter.1 (List.mem_of_mem_dropLast ht)).2
    refine ⟨?_, by simpa using hkept⟩
    rcases ts.eq_nil_or_concat' with rfl | ⟨before, last, rfl⟩
    · cases ht
    · rw [List.dropLast_concat]
      rw [List.filter_append, List.filter_cons] at ht
      split at ht
      · rw [List.filter_nil, List.dropLast_concat] at ht
        exact (List.mem_filter.1 ht).1
      · rw [List.filter_nil, List.append_nil] at ht
        exact (List.mem_filter.1 (List.mem_of_mem_dropLast ht)).1
  rw [Output.tokens_pushAll ho.isOpen, List.map_map]
  · exact congrArg (o.tokens ++ ·) (List.map_id _)
  · intro i hi
    rw [← List.map_dropLast] at hi
    obtain ⟨t, ht, rfl⟩ := List.mem_map.1 hi
    rw [ho.kind]
    exact hfits t (hordered t (hbefore t ht).1) (hbefore t ht).2

/-- The output of a nested block takes the place of a statement. -/
theorem leads_splice {run : Runner} (hrun : run.Places naming C) {b : Block} {macroCall : Bool}
    (hfits : Fits inMacro macroCall b) {o : Output} (ho : o.Ready inMacro) {body : List Token} (s : State)
    (hbody : ∀ D, P D → ∀ t ∈ body, t.isOriginal = true) (hargs : ∀ D, P D → C D ∧ ∀ a ∈ b.around.args, a.Within D) :
    Leads naming [] P (fun _ => True) (o.tokens, s)
      ((o.pushAll ((((run b body).run s).1.filter fun t => !isDropped macroCall t).map .spliced)).tokens,
        ((run b body).run s).2) := by
  have hleads := (hrun.leads b body s).imp (fun D hP => ⟨hbody D hP, hargs D hP⟩) fun _ h => h
  rw [tokens_splice hfits ho (hrun.ordered b body s)]
  refine Leads.after hleads (allPlaces_filter_isDropped macroCall _) (fun t ht => (List.mem_filter.1 ht).1)
    (fun t ht hfails => List.mem_filter.2 ⟨ht, ?_⟩) _
  cases hdropped : isDropped macroCall t with
  | false => rfl
  | true =>
    rw [(places_of_isDropped hdropped).2] at hfails
    cases hfails

/-- A nested block is assembled over a frame of its own, and accounted for. -/
theorem traces_expand {run : Runner} (hrun : run.Places naming C) {b : Block} {macroCall : Bool}
    (hfits : Fits inMacro macroCall b) {o : Output} (ho : o.Ready inMacro) {s : State}
    {scope : Scope} {body : List Token}
    (hscope : ∀ D, P D → s.scope.Within D → scope.Within D)
    (hbody : ∀ D, P D → ∀ t ∈ body, t.isOriginal = true) (hargs : ∀ D, P D → C D ∧ ∀ a ∈ b.around.args, a.Within D) :
    Traces naming [] P (fun _ _ => True) (expand run b scope body macroCall) (o, s) := by
  have hopened : Leads naming [] P (fun _ => True) (o.tokens, s) (o.tokens, { s with scope }) :=
    .state (Nat.le_refl _) fun D hP hs => ⟨hscope D hP hs, trivial⟩
  have hspliced : Leads naming [] (fun D => P D ∧ True) (fun _ => True) (o.tokens, { s with scope }) _ :=
    leads_splice hrun hfits ho { s with scope } (fun D hP => hbody D hP.1) fun D hP => hargs D hP.1
  have hran := hopened.trans hspliced
  have hexec := exec_expand run b scope body macroCall (o, s) rfl rfl
  generalize (run b body).run { s with scope } = r at hran hexec
  generalize o.pushAll ((r.1.filter fun t => !isDropped macroCall t).map .spliced) = out at hran hexec
  -- the frame goes with the block
  have hunnest : ∀ (P : (Text → Prop) → Prop) (ts : List Token) (s : State),
      Leads naming [] P (fun _ => True) (ts, s) (ts, { s with scope := s.scope.unnest }) :=
    fun P ts s => .state (Nat.le_refl _) fun D _ hs => ⟨hs.unnest, trivial⟩
  cases hclosed : out.closed with
  | true =>
    rw [hclosed, if_pos rfl] at hexec
    exact .of_ok hexec (hran.trans (hunnest _ _ _))
  | false =>
    rw [hclosed, if_neg Bool.false_ne_true] at hexec
    refine .of_ok hexec (hran.trans ?_)
    dsimp only
    rw [Output.tokens_pushAll hclosed, List.map_map]
    · have haccount := (Snapshot.leads_account (P := fun D => P D ∧ True) b.nested out.tokens r.2).trans
        (hunnest _ _ _)
      rwa [← List.map_id ((account b.nested).run r.2).1] at haccount
    · intro i hi
      obtain ⟨t, ht, rfl⟩ := List.mem_map.1 (List.mem_of_mem_dropLast hi)
      obtain ⟨hmessage, hfatal⟩ := mem_account ht
      exact (Token.isTerminal_of_isMessage hmessage _).trans hfatal

/-- INCLUDE. -/
theorem traces_inclusion (hw : w.Places C) (hp : p.1.Ready w.block.inMacro) (loc : Location) (path : Expr)
    (loader : Option Expr) (hargs : ∀ D, P D → C D ∧ ∀ a ∈ w.around.args, a.Within D) :
    Traces w.assembler.naming [] P (fun _ _ => True) (inclusion w loc path loader) p := by
  -- the file that was found is assembled over the same scope
  have hfound : ∀ {body : List Token}, (∀ t ∈ body, t.isOriginal = true) →
      Traces w.assembler.naming [] P (fun _ _ => True) (do
        let run ← w.requireRunner
        let b ← Block.fresh w.assembler.naming w.around.args w.block.inMacro
        splice false (← Emission.perform (run b body))) p := by
    intro body hbody
    refine .runner_bind hw fun run hrun => .block_bind fun b hb hkind => ?_
    refine .of_ok rfl (leads_splice hrun (fits_same hkind) hp _ (fun _ _ => hbody) ?_)
    rw [hb]
    exact hargs
  rw [inclusion]
  split
  · exact .report _
  · rename_i find hfind
    split
    · exact .raise _
    · refine .require_bind fun path _ => ?_
      have hbody := hw.includer find hfind loc path
      cases loader with
      | none =>
        refine .require_bind (x := .ok Text.empty) fun loader _ => ?_
        dsimp only
        split
        · exact .report _
        · exact hfound (hbody _ _ ‹_›)
      | some e =>
        refine .require_bind fun loader _ => ?_
        dsimp only
        split
        · exact .report _
        · exact hfound (hbody _ _ ‹_›)

/-- The macro that a statement calls is made of statements as they are written. -/
theorem isOriginal_of_macroOf? {D : Text → Prop} {s : Scope} (hs : s.Within D) {d : Dispatch} {name : Text}
    {m : Macro} (h : macroOf? s d = some (name, m)) : ∀ t ∈ m.body, t.isOriginal = true := by
  rw [macroOf?] at h
  split at h
  · obtain ⟨m', hm', heq⟩ := Option.map_eq_some_iff.1 h
    cases heq
    obtain ⟨sym, hfind, htemplate⟩ := Option.bind_eq_some_iff.1 hm'
    exact (hs.of_find? hfind).template m htemplate
  · cases h

/-- A macro call. What is no macro call is passed on, and so is a call that waits for its arguments, unless it
must not. -/
theorem traces_call (hw : w.Places C) (hp : p.1.Ready w.block.inMacro) (strict : Bool) {item : Item} {d : Dispatch}
    (hitem : item.token = .dispatch d) (hC : ∀ D, P D → C D) (hd : ∀ D, P D → item.token.Within D) :
    Traces w.assembler.naming [] P (fun _ _ => True) (call w strict item d) p := by
  have hplaces : item.token.places = [] := by rw [hitem]; rfl
  have hpass : Traces w.assembler.naming [] P (fun _ _ => True) (Emission.emitItem item) p := hplaces ▸ .emitItem hd
  have hoperands : ∀ D, P D → ∀ a ∈ d.operands, a.Within D := by
    intro D hP
    have hreferences := (hd D hP).references
    rw [hitem] at hreferences
    exact Expr.forall_mem_flatMap_references.1 hreferences
  rw [call]
  refine .scope_bind ?_
  split
  · exact hpass.imp fun _ h => h.1
  · rename_i name m hmacro
    split
    · split
      · exact .report _
      · exact hpass.imp fun _ h => h.1
    · have hused : Traces w.assembler.naming [] (fun D => P D ∧ p.2.scope.Within D) (fun _ _ => True)
          (liftM (Act.modifyScope fun s => s.modify name fun sym => { sym with used := true }) :
            Emission PUnit) p :=
        .act (Nat.le_refl _) fun D _ hs => ⟨hs.modify fun sym hsym => hsym.of_eq rfl rfl, fun _ _ => trivial⟩
      refine hused.act_bind fun _ s hs => ?_
      split
      · exact .report _
      · refine .runner_bind hw fun run hrun => .block_bind fun b hb hkind => .scope_bind ?_
        refine .require_bind fun scope hscope => ?_
        refine traces_expand hrun (fits_call hkind) hp (fun D hP hs => ?_) (fun D hP => ?_)
          fun D hP => ?_
        · exact hs.nest.bindAll (hoperands D hP.1.1.1) hscope
        · exact isOriginal_of_macroOf? hP.1.1.2 hmacro
        · rw [hb]
          exact ⟨hC D hP.1.1.1, hoperands D hP.1.1.1⟩

end Expand

namespace Replay

/-- One iteration. -/
theorem traces_turn (hw : w.Places C) (hp : p.1.Ready w.block.inMacro) (l : Loop) (k : Nat) (value : Option Expr)
    (hargs : ∀ D, P D → C D ∧ ∀ a ∈ w.around.args, a.Within D) (hvalue : ∀ D, P D → ∀ v ∈ value, v.Within D)
    (hbody : ∀ D, P D → ∀ t ∈ l.body, t.isOriginal = true) :
    Traces w.assembler.naming [] P (fun _ _ => True) (l.turn w k value) p := by
  refine .runner_bind hw fun run hrun => .block_bind fun b hb hkind => .scope_bind ?_
  refine .require_bind fun scope hscope => ?_
  refine Expand.traces_expand hrun (Expand.fits_same hkind) hp (fun D hP hs => ?_)
    (fun D hP => hbody D hP.1) fun D hP => ?_
  · exact hs.loop (hvalue D hP.1) hscope
  · rw [hb]
    exact hargs D hP.1

/-- A handling that goes on unless the output is closed. -/
theorem traces_unlessClosed {e e' : Emission PUnit} (hp : p.1.Ordered inMacro fun _ => True)
    (he : p.1.Ready inMacro → Traces naming [] P (fun _ _ => True) e p)
    (hemits : Emission.Emits inMacro (fun _ => True) e)
    (he' : ∀ q : Output × State, (q.1.Ordered inMacro fun _ => True) → Traces naming [] P (fun _ _ => True) e' q) :
    Traces naming [] P (fun _ _ => True) (do
      if ← Emission.isClosed then return ⟨⟩
      else
        e
        e') p := by
  have hexec := Emission.exec_isClosed p
  cases hclosed : p.1.closed with
  | true =>
    rw [hclosed] at hexec
    exact .of_ok (Emission.exec_bind_of_ok hexec) (.refl (fun _ _ => trivial) _)
  | false =>
    rw [hclosed] at hexec
    refine Traces.bind (Q := fun _ _ => True) (.of_ok hexec (.refl (fun _ _ => trivial) _)) fun closed q hq => ?_
    rw [hexec] at hq
    cases hq
    refine ((he ⟨hp.kind, hclosed⟩).imp fun _ h => h.1).bind fun _ q hq => (he' q ?_).imp fun _ h => h.1.1
    have hafter := hemits p hp
    rwa [hq] at hafter

/-- Turns are repeated until the output is closed. -/
theorem traces_times {turn : Nat → Emission PUnit}
    (hturn : ∀ k (q : Output × State), q.1.Ready inMacro → Traces naming [] P (fun _ _ => True) (turn k) q)
    (hemits : ∀ k, Emission.Emits inMacro (fun _ => True) (turn k)) (n k : Nat)
    (hp : p.1.Ordered inMacro fun _ => True) : Traces naming [] P (fun _ _ => True) (times turn n k) p := by
  induction n generalizing k p with
  | zero => exact .pure fun _ _ => trivial
  | succ n ih => exact traces_unlessClosed hp (hturn k p) (hemits k) fun q hq => ih (k + 1) hq

/-- A turn is made for each element until the output is closed. -/
theorem traces_each {turn : Nat → Expr → Emission PUnit} {es : List Expr}
    (hturn : ∀ e ∈ es, ∀ k (q : Output × State), q.1.Ready inMacro → Traces naming [] P (fun _ _ => True) (turn k e) q)
    (hemits : ∀ k e, Emission.Emits inMacro (fun _ => True) (turn k e)) (k : Nat)
    (hp : p.1.Ordered inMacro fun _ => True) : Traces naming [] P (fun _ _ => True) (each turn es k) p := by
  induction es generalizing k p with
  | nil => exact .pure fun _ _ => trivial
  | cons e rest ih =>
    rw [List.forall_mem_cons] at hturn
    exact traces_unlessClosed hp (hturn.1 k p) (hemits k e) fun q hq => ih hturn.2 (k + 1) hq

/-- The name of the number of an iteration is spelled. -/
theorem traces_nameOr (u : Surroundings) (e : Option Expr) :
    Traces naming [] P (fun _ _ => True) (liftM (nameOr u e) : Emission Text) p := by
  cases e with
  | none => exact .retells (.pure (Eval.tracks_retells.refl _) trivial)
  | some e => exact .name u e

/-- The characters of strings refer to no label. -/
theorem within_of_mem_characters {D : Text → Prop} {strings es : List Expr} (h : characters strings = .ok es) :
    ∀ e ∈ es, e.Within D := by
  induction strings generalizing es with
  | nil =>
    cases h
    exact fun e he => absurd he List.not_mem_nil
  | cons s rest ih =>
    rw [characters] at h
    obtain ⟨text, -, h⟩ := Except.bind_eq_ok_iff.1 h
    obtain ⟨more, hmore, h⟩ := Except.bind_eq_ok_iff.1 h
    cases h
    intro e he
    rcases List.mem_append.1 he with he | he
    · obtain ⟨r, -, rfl⟩ := List.mem_map.1 he
      exact Expr.within_of_references_eq_nil rfl
    · exact ih hmore e he

/-- DUP, DUPA, DUPC and DUPF. A statement that waits for its bounds is passed on, unless it must not. -/
theorem traces_dup (hw : w.Places C) (hordered : p.1.Ordered w.block.inMacro fun _ => True) (strict : Bool)
    {item : Item} {loc : Location} {counter : Option Expr} {iteration : Iteration} {body : List Token}
    (hitem : item.token = .dup loc counter iteration body)
    (hargs : ∀ D, P D → C D ∧ ∀ a ∈ w.around.args, a.Within D) (hd : ∀ D, P D → item.token.Within D) :
    Traces w.assembler.naming [] P (fun _ _ => True) (dup w strict item loc counter iteration body) p := by
  have hfinishes : w.Finishes := fun run hrun => (hw.runner run hrun).finishes
  have hemits : ∀ l k value, Emission.Emits w.block.inMacro (fun _ => True) (Loop.turn w l k value) :=
    fun l k value => emits_turn (fun _ _ => trivial) hfinishes l k value
  have hplaces : item.token.places = [] := by rw [hitem]; rfl
  have hbody : ∀ D, P D → ∀ t ∈ body, t.isOriginal = true := by
    intro D hP
    have hbodies := (hd D hP).isOriginal_of_mem_bodies
    rw [hitem] at hbodies
    exact hbodies body List.mem_cons_self
  have hdefer : ∀ e, Traces w.assembler.naming [] P (fun _ _ => True) (defer strict item e) p := by
    intro e
    rw [defer]
    split
    · exact .raise _
    · exact hplaces ▸ .emitItem hd
  -- the names of the loop are spelled, and then turns are made
  have hnames : ∀ {element : Expr} {k : Text → Text → Emission PUnit},
      (∀ c e s, Traces w.assembler.naming [] P (fun _ _ => True) (k c e) (p.1, s)) →
      Traces w.assembler.naming [] P (fun _ _ => True) (do
        let c ← nameOr w.around counter
        let e ← Eval.nameOf w.around element
        k c e) p := by
    intro element k hk
    refine .act_bind (traces_nameOr w.around counter) fun c s _ => .act_bind (.name w.around element) fun e s _ => ?_
    exact (hk c e s).imp fun _ h => h.1.1
  have hturn : ∀ (counter element : Text) (k : Nat) (value : Option Expr) (q : Output × State),
      (∀ D, P D → ∀ v ∈ value, v.Within D) → q.1.Ready w.block.inMacro →
      Traces w.assembler.naming [] P (fun _ _ => True) (Loop.turn w ⟨loc, counter, element, body⟩ k value) q :=
    fun counter element k value q hvalue hq => traces_turn hw hq _ k value hargs hvalue hbody
  cases iteration with
  | count n =>
    rw [dup]
    split
    · refine .require_bind fun n _ => .act_bind (traces_nameOr w.around counter) fun counter s _ => ?_
      refine Traces.imp (P := P) ?_ fun _ h => h.1
      have hvalue : ∀ D, P D → ∀ v ∈ (none : Option Expr), v.Within D :=
        fun _ _ v hv => absurd hv (Option.not_mem_none v)
      exact traces_times (fun k q => hturn counter _ k none q hvalue) (fun k => hemits _ k none) _ _ hordered
    · exact hdefer n
  | list element items =>
    rw [dup]
    split
    · exact hdefer _
    · refine hnames fun counter element s => ?_
      refine traces_each (fun e he k q => hturn counter element k (some e) q fun D hP v hv => ?_)
        (fun k e => hemits _ k (some e)) _ hordered
      cases hv
      have hreferences := (hd D hP).references
      rw [hitem] at hreferences
      exact Expr.forall_mem_flatMap_references.1 hreferences e he
  | characters element strings =>
    rw [dup]
    split
    · exact hdefer _
    · refine hnames fun counter element s => .require_bind fun items hitems => ?_
      refine traces_each (fun e he k q => hturn counter element k (some e) q fun D hP v hv => ?_)
        (fun k e => hemits _ k (some e)) _ hordered
      cases hv
      exact within_of_mem_characters hitems e he
  | sequence element first last step =>
    rw [dup, sequence.eq_def]
    split
    · exact hdefer _
    · refine .require_bind fun start _ => .require_bind fun stride _ => ?_
      split
      · exact .report _
      · refine .require_bind fun stop _ => ?_
        split
        · exact .report _
        · refine hnames fun counter element s => ?_
          rw [walk_eq_times]
          refine traces_times (fun k q => hturn counter element k _ q fun D hP v hv => ?_)
            (fun k => hemits _ k _) _ _ hordered
          cases hv
          exact Expr.within_of_references_eq_nil rfl

end Replay

end Expansion

end MacroAsm
