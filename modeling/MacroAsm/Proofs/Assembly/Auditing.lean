import MacroAsm.Proofs.Assembly.Ledger

/-!
# Accounting for nested blocks

The statements that begin blocks keep account of diagnostics, if the blocks nested in them do: INCLUDE, a macro
call, DUP and IF. The output of a block takes the place of the statement that began it, with every diagnostic in
it. The arms of an IF that only the linker can decide are assembled one after the other, and what is said in them
is emitted once all tests were looked at, unless it is fatal.
-/

namespace MacroAsm

variable {inMacro : Bool}

section Expansion

open Told (Accounts Settles)

variable {whole : Prop} {ends : Bool} {g : Grammar} {w : Workbench} {hear : Hearing} {p : Output × State}

namespace Telling

/-- What is spliced ends no output, and has the diagnostics of the nested block. -/
theorem spliced {macroCall : Bool} {b : Block} (hfits : Expand.Fits inMacro macroCall b) {ts : List Token}
    (hts : ∀ t ∈ ts, t.isTerminal b.inMacro = false) :
    (∀ i ∈ (ts.filter fun t => !Expand.isDropped macroCall t).map Item.spliced,
        i.token.isTerminal inMacro = false) ∧
      Item.diagnostics ((ts.filter fun t => !Expand.isDropped macroCall t).map .spliced) =
        Token.diagnostics ts := by
  refine ⟨fun i hi => ?_, ?_⟩
  · obtain ⟨t, ht, rfl⟩ := List.mem_map.1 hi
    obtain ⟨hmem, hkept⟩ := List.mem_filter.1 ht
    exact hfits t (hts t hmem) (by simpa using hkept)
  · rw [Item.diagnostics_spliced]
    refine Token.diagnostics_filter fun t _ hmessage => ?_
    cases t with
    | message d => rfl
    | _ => cases hmessage

/-- A nested block is assembled, and its output takes its place. -/
theorem accounts_splice {run : Runner} (hfinishes : run.Finishes) (haccounts : hear.Accounts whole g run)
    {b : Block} (hfits : Expand.Fits inMacro false b) {body : List Token} (hbody : ∀ t ∈ body, g.source t)
    (hp : p.1.Calm inMacro) (hs : g.Sound p.2.scope) :
    (do Expand.splice false (← Told.perform (hear.attend run b body)) : Told PUnit).Settles whole inMacro
      true p := by
  refine ⟨fun f q h => (by cases h), ?_⟩
  have hlog : (do Expand.splice false (← Told.perform (hear.attend run b body)) : Told PUnit).log p =
      hear b body p.2 := List.append_nil _
  rw [Told.Meets, hlog]
  rcases haccounts b body p.2 hbody hs with ⟨⟨before, d, hts, hd, hbefore⟩, hthere⟩ | ⟨hsafe, hbalances⟩
  · exact Or.inl (Or.inr ⟨rfl, Expand.overrun_splice hfits hfinishes hp hts hd hd hbefore, hthere⟩)
  · refine Or.inr ⟨hsafe, fun hwhole => ⟨fun a q h => ?_, fun f q h => (by cases h)⟩⟩
    obtain ⟨hts, hcount⟩ := hbalances hwhole
    obtain ⟨hopen, hdiagnostics⟩ := spliced hfits hts
    rw [← hp.ordered.kind] at hopen
    cases h
    refine ⟨(Output.items_pushAll hp.isOpen hopen).2, fun d => ?_⟩
    have htally := Output.tally_pushAll hp.isOpen hopen d
    rw [hdiagnostics, hcount d] at htally
    rw [hlog]
    exact htally

/-- The events of a nested block and of the account of its names. -/
theorem log_expand (run : Runner) (b : Block) (scope : Scope) (body : List Token) (macroCall : Bool)
    (p : Output × State) {r : List Token × State} (hr : (run b body).run { p.2 with scope } = r) {out : Output}
    (hout : p.1.pushAll ((r.1.filter fun t => !Expand.isDropped macroCall t).map .spliced) = out) :
    (expand hear run b scope body macroCall).log p = hear b body { p.2 with scope } ++
      if out.closed then [] else (Recorded.account b.nested).log r.2 := by
  have hbegin : (expand hear run b scope body macroCall).log p =
      hear b body { p.2 with scope } ++ (do
        if !(← Emission.isClosed) then Emission.emitAll (← Told.perform (Recorded.account b.nested))
        Act.modifyScope Scope.unnest : Told PUnit).log (out, r.2) := by
    rw [← hout, ← hr]
    rfl
  rw [hbegin, Told.log_bind_of_ok (x := (liftM Emission.isClosed : Told Bool)) (Emission.exec_isClosed _)]
  cases out.closed with
  | true => rfl
  | false =>
    refine congrArg _ ?_
    rw [if_neg Bool.false_ne_true]
    exact List.append_nil _

/-- A nested block is assembled and accounted for. -/
theorem accounts_expand {run : Runner} (hfinishes : run.Finishes) (haccounts : hear.Accounts whole g run)
    {b : Block} {macroCall : Bool} (hfits : Expand.Fits inMacro macroCall b) {body : List Token}
    (hbody : ∀ t ∈ body, g.source t) {scope : Scope} (hs : g.Sound scope) (hp : p.1.Calm inMacro) :
    (expand hear run b scope body macroCall).Settles whole inMacro true p := by
  rcases hr : (run b body).run { p.2 with scope } with ⟨ts, s'⟩
  generalize hout : p.1.pushAll ((ts.filter fun t => !Expand.isDropped macroCall t).map .spliced) = out
  have hexec : (expand hear run b scope body macroCall).act.exec p = _ :=
    (congrArg (Emission.exec · p) (act_expand run b scope body macroCall)).trans
      (Expand.exec_expand run b scope body macroCall p hr hout)
  have hlog : (expand hear run b scope body macroCall).log p = _ :=
    log_expand run b scope body macroCall p hr hout
  have hok : ∀ f q, (expand hear run b scope body macroCall).act.exec p ≠ (.error f, q) := by
    intro f q h
    rw [hexec] at h
    split at h <;> cases h
  refine ⟨fun f q h => absurd h (hok f q), ?_⟩
  rcases haccounts b body { p.2 with scope } hbody hs with
    ⟨⟨before, d, hts, hd, hbefore⟩, hthere⟩ | ⟨hsafe, hbalances⟩
  · have hover := Expand.overrun_splice hfits hfinishes hp hts hd hd hbefore
    rw [hr, hout] at hover
    refine Or.inl (Or.inr ⟨rfl, ?_, fun hwhole h => ?_⟩)
    · rw [hexec, if_pos hover.isClosed]
      exact hover
    · rw [hlog] at h
      exact hthere hwhole (Event.safe_of_append h).1
  · rw [hr] at hbalances
    rw [hlog]
    refine Or.inr ⟨Event.safe_append hsafe ?_, fun hwhole => ⟨fun a q h => ?_, fun f q h => absurd h (hok f q)⟩⟩
    · split
      · exact Event.safe_nil
      · exact Event.safe_account _ _
    · obtain ⟨hts, hcount⟩ := hbalances hwhole
      obtain ⟨hopen, hdiagnostics⟩ := spliced hfits hts
      rw [← hp.ordered.kind] at hopen
      have htally := Output.tally_pushAll hp.isOpen hopen
      obtain ⟨-, hclosed⟩ := Output.items_pushAll hp.isOpen hopen
      rw [hdiagnostics, hout] at htally
      rw [hout] at hclosed
      rw [hexec, if_neg (by rw [hclosed]; exact Bool.false_ne_true)] at h
      cases h
      have hreports : ∀ i ∈ ((account b.nested).run s').1.map Item.settled,
          i.token.isTerminal out.inMacro = false := by
        intro i hi
        obtain ⟨t, ht, rfl⟩ := List.mem_map.1 hi
        obtain ⟨hmessage, hfatal⟩ := mem_account ht
        exact (Token.isTerminal_of_isMessage hmessage _).trans hfatal
      refine ⟨(Output.items_pushAll hclosed hreports).2, fun d => ?_⟩
      have hlast := Output.tally_pushAll hclosed hreports d
      rw [Item.diagnostics_settled] at hlast
      have h1 := htally d
      have h2 := hcount d
      dsimp only at h1 h2
      rw [hlog, if_neg (by rw [hclosed]; exact Bool.false_ne_true), Event.diagnostics_append, List.count_append,
        Recorded.account, Event.diagnostics_said]
      dsimp only
      simp only [List.count_nil]
      omega

/-- INCLUDE. -/
theorem accounts_inclusion (hw : w.Accounts whole g hear) (hkind : w.block.inMacro = inMacro)
    (hp : p.1.Calm inMacro) (hs : g.Sound p.2.scope) (loc : Location) (path : Expr) (loader : Option Expr) :
    (inclusion hear w loc path loader).Settles whole inMacro true p := by
  rw [inclusion]
  split
  · exact .report hp
  · rename_i find hfind
    split
    · exact .raise hp
    · refine .require_bind hp fun path _ => ?_
      have hfound : ∀ body : List Token, (∀ t ∈ body, g.source t) →
          (do
            let run ← w.requireRunner
            let b ← Told.fresh w.assembler.naming w.around.args w.block.inMacro
            Expand.splice false (← Told.perform (hear.attend run b body)) : Told PUnit).Settles whole
              inMacro true p := by
        intro body hbody
        refine hw.requireRunner hp fun run hfinishes _ haccounts => .fresh_bind hp fun b s' hb hscope => ?_
        exact accounts_splice hfinishes haccounts (Expand.fits_same (hb.trans hkind)) hbody hp (hscope ▸ hs)
      cases loader with
      | none =>
        refine .pure_bind hp ?_
        dsimp only
        split
        · exact .report hp
        · exact hfound _ (hw.equips.includer find hfind loc path _ _ ‹_›)
      | some e =>
        refine .require_bind hp fun loader _ => ?_
        dsimp only
        split
        · exact .report hp
        · exact hfound _ (hw.equips.includer find hfind loc path _ _ ‹_›)

/-- A macro call. -/
theorem accounts_call (hw : w.Accounts whole g hear) (hp : p.1.Calm inMacro) (hs : g.Sound p.2.scope)
    (strict : Bool) {item : Item} (hmessage : item.token.isMessage = false)
    (hopen : item.token.isTerminal inMacro = false) (d : Dispatch) :
    (call hear w strict item d).Settles whole inMacro true p := by
  refine .scope_bind hp ?_
  split
  · exact .emitItem hp hmessage fun _ => hopen
  · rename_i name m hmacro
    split
    · split
      · exact .report hp
      · exact .emitItem hp hmessage fun _ => hopen
    · refine .act_bind hp fun _ s' hexec => ?_
      have hleads : g.Leads p.2 s' := by
        have hmodify : Act.Yields g.Leads (fun _ _ => True)
            (Act.modifyScope fun s => s.modify name fun sym => { sym with used := true }) p.2 :=
          Grammar.modify_yields fun _ _ => Symbol.Updates.revises
            ⟨⟨rfl, rfl, rfl, rfl, fun _ => rfl, fun h => h, Or.inl rfl⟩, fun h => h⟩ rfl
        rw [Act.Yields, hexec] at hmodify
        exact hmodify.1
      have hs' : g.Sound s'.scope := hs.evolves hleads
      split
      · exact .report hp
      · refine hw.requireRunner hp fun run hfinishes _ haccounts => .fresh_bind hp fun b s hb hscope => ?_
        refine .scope_bind hp (.require_bind hp fun scope hbind => ?_)
        have hopens : g.Sound scope := by
          rw [hscope] at hbind
          exact hs'.opens (Scope.opens_bindAll .nest hbind)
        exact accounts_expand hfinishes haccounts (Expand.fits_call hb)
          (Grammar.isMacro_of_macroOf? hs hmacro) hopens hp

/-- One iteration. -/
theorem accounts_turn (hw : w.Accounts whole g hear) (hkind : w.block.inMacro = inMacro)
    (hp : p.1.Calm inMacro) (hs : g.Sound p.2.scope) (l : Replay.Loop) (hbody : ∀ t ∈ l.body, g.source t)
    (k : Nat) (value : Option Expr) : (turn hear w l k value).Settles whole inMacro true p := by
  refine hw.requireRunner hp fun run hfinishes _ haccounts => .fresh_bind hp fun b s hb hscope => ?_
  refine .scope_bind hp (.require_bind hp fun scope hbind => ?_)
  have hopens : g.Sound scope := by
    rw [hscope] at hbind
    exact hs.opens (Scope.opens_loop hbind)
  exact accounts_expand hfinishes haccounts (Expand.fits_same (hb.trans hkind)) hbody hopens hp

/-- Nothing is done once the output is closed. -/
theorem idle_unlessClosed {rest : Told PUnit} {q : Output × State} (hq : q.1.closed = true) :
    (do if ← Emission.isClosed then return ⟨⟩ else rest : Told PUnit).act.exec q = (.ok ⟨⟩, q) ∧
      (do if ← Emission.isClosed then return ⟨⟩ else rest : Told PUnit).log q = [] := by
  have hexec : (liftM Emission.isClosed : Told Bool).act.exec q = (.ok true, q) := by
    rw [Told.act_liftEmission, Emission.exec_isClosed, hq]
  refine ⟨(Emission.exec_bind_of_ok hexec).trans rfl, ?_⟩
  rw [Told.log_bind_of_ok hexec]
  rfl

/-- What follows a turn is not done once the output is closed. -/
theorem accounts_unlessClosed {turn rest : Told PUnit} (hp : p.1.Calm inMacro)
    (hturn : turn.Settles whole inMacro true p)
    (hemits : Emission.Emits inMacro Item.IsExpanded turn.act)
    (hrest : ∀ q : Output × State, turn.act.exec p = (.ok ⟨⟩, q) → q.1.Calm inMacro →
      rest.Settles whole inMacro true q)
    (hclosed : ∀ q : Output × State, q.1.closed = true → rest.act.exec q = (.ok ⟨⟩, q) ∧ rest.log q = []) :
    (do if ← Emission.isClosed then return ⟨⟩ else turn; rest : Told PUnit).Settles whole inMacro true p := by
  have hexec : (liftM Emission.isClosed : Told Bool).act.exec p = (.ok false, p) := by
    rw [Told.act_liftEmission, Emission.exec_isClosed, hp.isOpen]
  refine .andThen (.silent hp (by rw [hexec]) rfl) fun closed q hq => ?_
  rw [hexec] at hq
  cases hq
  rw [if_neg Bool.false_ne_true]
  have hordered := hemits p hp.ordered
  rcases hexec : turn.act.exec p with ⟨r, q⟩
  rw [hexec] at hordered
  cases r with
  | error f =>
    refine hturn.congr (c := do turn; rest) ?_ (Told.log_bind_of_error hexec)
    rw [hexec]
    exact Emission.exec_bind_of_error hexec
  | ok x =>
    cases hq : q.1.closed with
    | true =>
      obtain ⟨hsame, hnothing⟩ := hclosed q hq
      refine hturn.congr (c := do turn; rest) ?_ ?_
      · rw [hexec]
        exact (Emission.exec_bind_of_ok hexec).trans hsame
      · rw [Told.log_bind_of_ok hexec, hnothing, List.append_nil]
    | false =>
      refine .andThen (e := turn) ⟨hturn.failure, hturn.outcome.imp ?_ id⟩
        fun _ q' hq' => ?_
      · -- the output would be closed
        rw [Told.Meets, hexec]
        rintro (⟨d, hd, -⟩ | ⟨-, hover, -⟩)
        · cases hd
        · rw [hover.isClosed] at hq
          cases hq
      · rw [hexec] at hq'
        cases hq'
        exact hrest q hexec ⟨hordered, hq⟩

/-- Turns that are counted. -/
theorem accounts_times {turn : Nat → Told PUnit}
    (hturn : ∀ k (q : Output × State), q.1.Calm inMacro → g.Sound q.2.scope →
      (turn k).Settles whole inMacro true q)
    (hemits : ∀ k, Emission.Emits inMacro Item.IsExpanded (turn k).act)
    (hsound : ∀ k (q : Output × State), g.Sound q.2.scope → g.Sound ((turn k).act.exec q).2.2.scope)
    (n k : Nat) (hp : p.1.Calm inMacro) (hs : g.Sound p.2.scope) :
    (times turn n k).Settles whole inMacro true p := by
  induction n generalizing k p with
  | zero => exact .pure hp rfl
  | succ n ih =>
    refine accounts_unlessClosed hp (hturn k p hp hs) (hemits k) (fun q hq hcalm => ih (k + 1) hcalm ?_)
      fun q hq => ?_
    · have hafter := hsound k p hs
      rwa [hq] at hafter
    · cases n with
      | zero => exact ⟨rfl, rfl⟩
      | succ n => exact idle_unlessClosed hq

/-- Turns for the elements of a list. -/
theorem accounts_each {turn : Nat → Expr → Told PUnit}
    (hturn : ∀ k e (q : Output × State), q.1.Calm inMacro → g.Sound q.2.scope →
      (turn k e).Settles whole inMacro true q)
    (hemits : ∀ k e, Emission.Emits inMacro Item.IsExpanded (turn k e).act)
    (hsound : ∀ k e (q : Output × State), g.Sound q.2.scope → g.Sound ((turn k e).act.exec q).2.2.scope)
    (es : List Expr) (k : Nat) (hp : p.1.Calm inMacro) (hs : g.Sound p.2.scope) :
    (each turn es k).Settles whole inMacro true p := by
  induction es generalizing k p with
  | nil => exact .pure hp rfl
  | cons e rest ih =>
    refine accounts_unlessClosed hp (hturn k e p hp hs) (hemits k e) (fun q hq hcalm => ih (k + 1) hcalm ?_)
      fun q hq => ?_
    · have hafter := hsound k e p hs
      rwa [hq] at hafter
    · cases rest with
      | nil => exact ⟨rfl, rfl⟩
      | cons e' rest => exact idle_unlessClosed hq

/-- A statement that waits for its bounds is passed on, unless it must not wait. -/
theorem accounts_defer {strict : Bool} {item : Item} (hp : p.1.Calm inMacro)
    (hmessage : item.token.isMessage = false) (hopen : item.token.isTerminal inMacro = false) (e : Expr) :
    (liftM (Replay.defer strict item e) : Told PUnit).Settles whole inMacro ends p := by
  rw [Replay.defer]
  split
  · exact .raise hp
  · exact .emitItem hp hmessage fun _ => hopen

/-- A handling that goes on with the name that an expression spells. -/
theorem accounts_nameOf {k : Text → Told PUnit} (hp : p.1.Calm inMacro) (hs : g.Sound p.2.scope) (e : Expr)
    (hk : ∀ name s', g.Sound s'.scope → (k name).Settles whole inMacro ends (p.1, s')) :
    ((liftM (Eval.nameOf w.around e) : Told Text) >>= k).Settles whole inMacro ends p := by
  refine .act_bind hp fun name s' hexec => hk name s' (hs.evolves ?_)
  have hleads := (Eval.nameOf_yields (g.evaluates w.around) e p.2).1
  rwa [hexec] at hleads

/-- A handling that goes on with the name that an expression spells, if there is one. -/
theorem accounts_nameOr {k : Text → Told PUnit} (hp : p.1.Calm inMacro) (hs : g.Sound p.2.scope)
    (e : Option Expr)
    (hk : ∀ name s', g.Sound s'.scope → (k name).Settles whole inMacro ends (p.1, s')) :
    ((liftM (Replay.nameOr w.around e) : Told Text) >>= k).Settles whole inMacro ends p := by
  cases e with
  | none =>
    refine .act_bind hp fun name s' hexec => hk name s' ?_
    cases hexec
    exact hs
  | some e => exact accounts_nameOf hp hs e hk

section Dup

variable (hw : w.Accounts whole g hear) (hkind : w.block.inMacro = inMacro)

include hw hkind

/-- Iterations that are counted. -/
theorem accounts_counted (hp : p.1.Calm inMacro) (hs : g.Sound p.2.scope) (l : Replay.Loop)
    (hbody : ∀ t ∈ l.body, g.source t) (value : Nat → Option Expr) (n : Nat) :
    (times (fun k => turn hear w l k (value k)) n 0).Settles whole inMacro true p := by
  refine accounts_times (fun k q hq hs => accounts_turn hw hkind hq hs l hbody k _) (fun k => ?_)
    (fun k q hs => ?_) n 0 hp hs
  · rw [act_turn]
    exact Replay.emits_turn (fun _ h => h) hw.finishes l k _
  · rw [act_turn]
    exact (Grammar.handles_turn g.admits_true hw.equips ⟨hs, fun _ _ => trivial⟩ l hbody k _).inv.sound

/-- Iterations for the elements of a list. -/
theorem accounts_listed (hp : p.1.Calm inMacro) (hs : g.Sound p.2.scope) (l : Replay.Loop)
    (hbody : ∀ t ∈ l.body, g.source t) (es : List Expr) :
    (each (fun k e => turn hear w l k (some e)) es 0).Settles whole inMacro true p := by
  refine accounts_each (fun k e q hq hs => accounts_turn hw hkind hq hs l hbody k _) (fun k e => ?_)
    (fun k e q hs => ?_) es 0 hp hs
  · rw [act_turn]
    exact Replay.emits_turn (fun _ h => h) hw.finishes l k _
  · rw [act_turn]
    exact (Grammar.handles_turn g.admits_true hw.equips ⟨hs, fun _ _ => trivial⟩ l hbody k _).inv.sound

/-- DUP, DUPA, DUPC and DUPF. -/
theorem accounts_dup (hp : p.1.Calm inMacro) (hs : g.Sound p.2.scope) (strict : Bool) {item : Item}
    (hmessage : item.token.isMessage = false) (hopen : item.token.isTerminal inMacro = false) (loc : Location)
    (counter : Option Expr) (iteration : Iteration) {body : List Token} (hbody : ∀ t ∈ body, g.source t) :
    (dup hear w strict item loc counter iteration body).Settles whole inMacro true p := by
  cases iteration with
  | count n =>
    rw [dup]
    split
    · refine .require_bind hp fun n _ => accounts_nameOr hp hs counter fun counter s hs => ?_
      exact accounts_counted (p := (p.1, s)) hw hkind hp hs _ hbody (fun _ => none) _
    · exact accounts_defer hp hmessage hopen n
  | list element items =>
    rw [dup]
    split
    · exact accounts_defer hp hmessage hopen _
    · refine accounts_nameOr hp hs counter fun counter s hs =>
        accounts_nameOf (p := (p.1, s)) hp hs element fun element s hs => ?_
      exact accounts_listed (p := (p.1, s)) hw hkind hp hs _ hbody items
  | characters element strings =>
    rw [dup]
    split
    · exact accounts_defer hp hmessage hopen _
    · refine accounts_nameOr hp hs counter fun counter s hs =>
        accounts_nameOf (p := (p.1, s)) hp hs element fun element s hs => ?_
      refine .require_bind (p := (p.1, s)) hp fun items _ => ?_
      exact accounts_listed (p := (p.1, s)) hw hkind hp hs _ hbody items
  | sequence element first last step =>
    rw [dup, sequence]
    split
    · exact accounts_defer hp hmessage hopen _
    · refine .require_bind hp fun start _ => .require_bind hp fun stride _ => ?_
      split
      · exact .report hp
      · refine .require_bind hp fun stop _ => ?_
        split
        · exact .report hp
        · refine accounts_nameOr hp hs counter fun counter s hs =>
            accounts_nameOf (p := (p.1, s)) hp hs element fun element s hs => ?_
          exact accounts_counted (p := (p.1, s)) hw hkind hp hs _ hbody _ _

end Dup

end Telling

namespace Conditional

/-- Diagnostics of which none is fatal have no first fatal one among them. -/
theorem firstFatal?_eq_none {ts : List Token} (h : ∀ t ∈ ts, t.isFatal = false) : firstFatal? ts = none := by
  induction ts with
  | nil => rfl
  | cons t rest ih =>
    rw [List.forall_mem_cons] at h
    cases t with
    | message d =>
      have hd : d.isFatal = false := h.1
      rw [firstFatal?, hd, if_neg Bool.false_ne_true]
      exact ih h.2
    | _ => exact ih h.2

/-- Assembling an arm fails only with a fatal diagnostic. -/
theorem drastic_prospect (w : Workbench) (body : List Token) : Emission.Drastic (prospect w body) := by
  refine .bind (.of_sure fun _ => ⟨_, rfl⟩) fun scope => .bind ?_ fun run =>
    .bind (.of_sure fun _ => ⟨_, rfl⟩) fun b => ?_
  · rw [Workbench.requireRunner]
    split
    · exact .of_sure fun _ => ⟨_, rfl⟩
    · exact .report rfl
  · refine .bind (.of_sure fun _ => ⟨_, rfl⟩) fun _ => .bind (.of_sure fun _ => ⟨_, rfl⟩) fun out => ?_
    refine .bind (.of_sure fun _ => ⟨_, rfl⟩) fun copy => .bind (.of_sure fun _ => ⟨_, rfl⟩) fun _ => ?_
    split
    · rename_i d hd
      exact .report (isFatal_of_firstFatal?_eq_some hd)
    · exact .of_sure fun _ => ⟨_, rfl⟩

/-- Going through the arms fails only with a fatal diagnostic, as a constant test has a truth value. -/
theorem drastic_sift (w : Workbench) (otherwise : Option (List Token)) (clauses : List Clause) :
    Emission.Drastic (sift w otherwise clauses) := by
  induction clauses with
  | nil => exact .of_sure fun _ => ⟨_, rfl⟩
  | cons c rest ih =>
    obtain ⟨test, body⟩ := c
    rw [sift]
    split
    · rename_i hconcrete
      obtain ⟨taken, htaken⟩ := Expr.exists_asTruth_of_isConcrete hconcrete
      rw [htaken]
      cases taken with
      | true => exact .of_sure fun _ => ⟨_, rfl⟩
      | false => exact ih
    · exact .bind (drastic_prospect w body) fun fork => .bind ih fun arms => .of_sure fun _ => ⟨_, rfl⟩

/-- The output of an arm is a failure or an arm, and the scope comes back. -/
theorem exec_reap (scope : Scope) (out : List Token) (p : Output × State) :
    (reap scope out).exec p =
      (match firstFatal? out with
        | some d => .error (.report d)
        | none => .ok ⟨p.2.scope.unnest, out.filter fun t => !t.isMessage, out.filter Token.isMessage⟩,
        (p.1, { p.2 with scope })) := by
  have hbegin : (reap scope out).exec p =
      (match firstFatal? out with
        | some d => Emission.report d
        | none => return ⟨p.2.scope.unnest, out.filter fun t => !t.isMessage, out.filter Token.isMessage⟩ :
          Emission Fork).exec (p.1, { p.2 with scope }) := rfl
  rw [hbegin]
  cases firstFatal? out <;> rfl

end Conditional

namespace Telling

/-- The events of the whole output of a nested block. -/
theorem log_collect (run : Runner) (b : Block) (body : List Token) (s : State) :
    (collect hear run b body).log s = hear b body s ++
      if (Conditional.firstFatal? ((run b body).run s).1).isSome then []
      else (Recorded.account b.nested).log ((run b body).run s).2 := by
  have hrest : (collect hear run b body).log s = hear b body s ++
      (if (Conditional.firstFatal? ((run b body).run s).1).isSome then pure ((run b body).run s).1
      else do return ((run b body).run s).1 ++ (← Recorded.account b.nested) :
        Recorded (List Token)).log ((run b body).run s).2 := rfl
  rw [hrest]
  split
  · rfl
  · exact congrArg _ (List.append_nil _)

/-- The diagnostics of an arm wait, or it fails with a fatal one. -/
theorem accounts_arm {run : Runner} (haccounts : hear.Accounts whole g run) {b : Block} {body : List Token}
    (hbody : ∀ t ∈ body, g.source t) (hp : p.1.Calm inMacro) (hs : g.Sound p.2.scope) (scope : Scope) :
    (arm hear run b scope body).Accounts whole inMacro false [] (fun fork => Token.diagnostics fork.messages)
      p := by
  have hcollect := Conditional.run_collect run b body p.2
  have hlog : (arm hear run b scope body).log p = hear b body p.2 ++
      if (Conditional.firstFatal? ((run b body).run p.2).1).isSome then []
      else (Recorded.account b.nested).log ((run b body).run p.2).2 :=
    (List.append_nil _).trans (log_collect run b body p.2)
  have hexec : (arm hear run b scope body).act.exec p =
      (Conditional.reap scope ((Conditional.collect run b body).run p.2).1).exec
        (p.1, ((Conditional.collect run b body).run p.2).2) := by
    have hsame : Conditional.collect run b body = (collect hear run b body).act := (act_collect run b body).symm
    rw [hsame]
    rfl
  rcases hr : (run b body).run p.2 with ⟨ts, s'⟩
  have houtcome := haccounts b body p.2 hbody hs
  rw [hr] at hcollect hlog houtcome
  dsimp only at hcollect hlog houtcome
  cases hfatal : Conditional.firstFatal? ts with
  | some d =>
    rw [hcollect, hfatal, Option.isSome_some, if_pos rfl, Conditional.exec_reap, hfatal] at hexec
    dsimp only at hexec
    refine ⟨fun f q h => ?_, Or.inl (Or.inl ⟨d, ?_, Conditional.isFatal_of_firstFatal?_eq_some hfatal, ?_⟩)⟩
    · rw [hexec] at h
      cases h
      exact hp
    · rw [hexec]
    · rw [hexec]
      exact hp
  | none =>
    have hmild := Conditional.isFatal_of_firstFatal?_eq_none hfatal
    rw [hfatal, Option.isSome_none, if_neg Bool.false_ne_true] at hcollect hlog
    -- neither the output nor the account has a fatal diagnostic in it
    have hnone : Conditional.firstFatal? (ts ++ ((account b.nested).run s').1) = none := by
      refine Conditional.firstFatal?_eq_none fun t ht => ?_
      exact (List.mem_append.1 ht).elim (hmild t) fun h => (mem_account h).2
    rw [hcollect, Conditional.exec_reap, hnone] at hexec
    dsimp only at hexec
    refine ⟨fun f q h => (by rw [hexec] at h; cases h), Or.inr ?_⟩
    rcases houtcome with ⟨⟨before, d, rfl, hd, -⟩, -⟩ | ⟨hsafe, hbalances⟩
    · have hlast := hmild (.message d) (List.mem_append_right _ (List.mem_singleton.2 rfl))
      rw [Token.isFatal, hd] at hlast
      cases hlast
    · rw [hlog]
      refine ⟨Event.safe_append hsafe (Event.safe_account _ _), fun hwhole => ⟨fun fork q h => ?_,
        fun f q h => (by rw [hexec] at h; cases h)⟩⟩
      rw [hexec, Prod.mk.injEq, Except.ok.injEq] at h
      obtain ⟨rfl, rfl⟩ := h
      refine ⟨hp.isOpen, fun d => ?_⟩
      have hcount := (hbalances hwhole).2 d
      rw [hlog, Token.diagnostics_filter fun t _ hmessage => hmessage, Token.diagnostics_append,
        Event.diagnostics_append, Recorded.account, Event.diagnostics_said]
      simp only [List.count_append, List.count_nil]
      omega

/-- An arm is assembled against a copy of the scope, and its diagnostics wait. -/
theorem accounts_prospect (hw : w.Accounts whole g hear) (hp : p.1.Calm inMacro) (hs : g.Sound p.2.scope)
    {body : List Token} (hbody : ∀ t ∈ body, g.source t) :
    (prospect hear w body).Accounts whole inMacro false [] (fun fork => Token.diagnostics fork.messages) p := by
  refine .scope_bind hp (hw.requireRunner hp fun run hfinishes _ haccounts => ?_)
  refine .fresh_bind hp fun b s' hb hscope => .act_bind hp fun _ s hset => ?_
  have hsound : g.Sound s.scope := by
    cases hset
    exact hs.opens .nest
  exact accounts_arm (p := (p.1, s)) haccounts hbody hp hsound _

/-- The diagnostics of arms wait while the arms are gone through. -/
theorem accounts_sift (hw : w.Accounts whole g hear) (hp : p.1.Calm inMacro) (hs : g.Sound p.2.scope)
    (otherwise : Option (List Token)) {clauses : List Clause}
    (hclauses : ∀ c ∈ clauses, ∀ t ∈ c.body, g.source t) :
    (sift hear w otherwise clauses).Accounts whole inMacro false []
      (fun arms => Token.diagnostics (Conditional.messagesOf (arms.forks.map Prod.snd))) p := by
  induction clauses generalizing p with
  | nil => exact .pure hp rfl
  | cons c rest ih =>
    obtain ⟨test, body⟩ := c
    rw [List.forall_mem_cons] at hclauses
    rw [sift]
    split
    · refine .require_bind hp fun truth _ => ?_
      split
      · exact .pure hp rfl
      · exact ih hp hs hclauses.2
    · refine (accounts_prospect hw hp hs hclauses.1).bind fun fork q hq => ?_
      have hexec := Conditional.exec_prospect w body p
      rw [act_prospect] at hq
      have hfork : (Conditional.prospect w body).exec p = (.ok fork, q) := hq
      rw [hfork] at hexec
      have hcalm : q.1.Calm inMacro := hexec.1 ▸ hp
      have hsound : g.Sound q.2.scope := hexec.2.1 ▸ hs
      have hrest := ih hcalm hsound hclauses.2
      refine (hrest.frame fun f q h => ?_).bind fun arms q' hq' => ?_
      · rw [act_sift] at h
        exact Conditional.drastic_sift w otherwise rest _ _ _ h
      · rw [act_sift] at hq'
        have hsame := Conditional.silent_sift (w := w) otherwise rest q
        rw [hq'] at hsame
        refine .pure (hsame ▸ hcalm) ?_
        rw [← Token.diagnostics_append]
        rfl

/-- The diagnostics of quiet arms do not end an output. -/
theorem isTerminal_of_isQuiet {fork : Conditional.Fork} (h : fork.IsQuiet) :
    ∀ i ∈ fork.messages.map Item.settled, i.IsExpanded ∧ i.token.isTerminal inMacro = false := by
  intro i hi
  obtain ⟨t, ht, rfl⟩ := List.mem_map.1 hi
  obtain ⟨hmessage, hfatal⟩ := h t ht
  exact ⟨Token.isExpanded_of_isMessage hmessage, (Token.isTerminal_of_isMessage hmessage _).trans hfatal⟩

/-- The diagnostics of the arms that waited are emitted. -/
theorem accounts_messages (hp : p.1.Calm inMacro) {arms : Conditional.Arms} (hquiet : arms.IsQuiet) :
    (liftM (arms.forks.forM fun (_, fork) => Emission.emitAll fork.messages : Emission PUnit) :
      Told PUnit).Accounts whole inMacro ends
        (Token.diagnostics (Conditional.messagesOf (arms.forks.map Prod.snd))) (fun _ => []) p := by
  refine (Accounts.emitItems ((Conditional.messagesOf (arms.forks.map Prod.snd)).map .settled) hp
    (fun _ i hi => ?_) fun _ d => by rw [Item.diagnostics_settled]).congr
      (Conditional.exec_forM_messages arms.forks p) rfl
  obtain ⟨t, ht, rfl⟩ := List.mem_map.1 hi
  obtain ⟨fork, hfork, ht⟩ := List.mem_flatMap.1 ht
  obtain ⟨arm, harm, rfl⟩ := List.mem_map.1 hfork
  exact (isTerminal_of_isQuiet (hquiet arm harm) _ (List.mem_map_of_mem ht)).2

/-- The diagnostics of the arm that is taken otherwise wait. -/
theorem accounts_alternative (hw : w.Accounts whole g hear) (hp : p.1.Calm inMacro) (hs : g.Sound p.2.scope)
    {otherwise : Option (List Token)} (hotherwise : ∀ body ∈ otherwise, ∀ t ∈ body, g.source t) :
    (alternative hear w otherwise).Accounts whole inMacro false []
      (fun final => Token.diagnostics (Conditional.messagesOf final.toList)) p := by
  cases otherwise with
  | none => exact .pure hp rfl
  | some body =>
    rw [alternative]
    refine (accounts_prospect hw hp hs (hotherwise body rfl)).bind fun fork q hq => ?_
    rw [act_prospect] at hq
    have hsame := Conditional.silent_prospect (w := w) body p
    rw [hq] at hsame
    refine .pure (hsame ▸ hp) ?_
    rw [Option.toList_some, Conditional.messagesOf, List.flatMap_singleton]

/-- The diagnostics of the arm that is taken otherwise are emitted. -/
theorem accounts_announce (hp : p.1.Calm inMacro) {final : Option Conditional.Fork}
    (hquiet : ∀ fork ∈ final, fork.IsQuiet) :
    (liftM (Conditional.announce final) : Told PUnit).Accounts whole inMacro ends
      (Token.diagnostics (Conditional.messagesOf final.toList)) (fun _ => []) p := by
  cases final with
  | none => exact .pure hp rfl
  | some fork =>
    refine .emitItems (fork.messages.map .settled) hp
      (fun _ i hi => (isTerminal_of_isQuiet (hquiet fork rfl) i hi).2) fun _ d => ?_
    rw [Item.diagnostics_settled, Option.toList_some, Conditional.messagesOf, List.flatMap_singleton]

/-- An IF is emitted, or merging its arms fails. -/
theorem accounts_conclude (hp : p.1.Calm inMacro) (loc : Location) (forks : List (Expr × Conditional.Fork))
    (final : Option Conditional.Fork) :
    (liftM (Conditional.conclude loc forks final) : Told PUnit).Settles whole inMacro ends p := by
  have hexec := Conditional.exec_conclude loc forks final p.1 p.2 rfl
  generalize Conditional.mergeForks ((final.map Conditional.Fork.scope).getD p.2.scope) forks p.2.scope = merged
    at hexec
  cases hfailed : merged.2 with
  | some c =>
    rw [hfailed] at hexec
    exact .silent hp (congrArg (fun r => r.2.1) hexec) rfl
  | none =>
    rw [hfailed] at hexec
    have hemitted : (do Act.setScope merged.1; Emission.emitItem (Conditional.emitted loc forks final) :
        Told PUnit).Settles whole inMacro ends p :=
      .act_bind hp fun _ s' _ => .emitItem (p := (p.1, s')) hp rfl fun _ => rfl
    exact hemitted.congr hexec rfl

/-- An IF that only the linker can decide. -/
theorem accounts_undecided (hw : w.Accounts whole g hear) (hp : p.1.Calm inMacro) (hs : g.Sound p.2.scope)
    (loc : Location) {arms : Conditional.Arms} (hquiet : arms.IsQuiet)
    (hotherwise : ∀ body ∈ arms.otherwise, ∀ t ∈ body, g.source t) :
    (undecided hear w loc arms).Accounts whole inMacro true
      (Token.diagnostics (Conditional.messagesOf (arms.forks.map Prod.snd))) (fun _ => []) p := by
  refine (accounts_messages hp hquiet).bind fun _ q hq => ?_
  have hcalm : q.1.Calm inMacro := Conditional.calm_messages hquiet hp hq
  have hsame : q.2 = p.2 := by
    have hexec := Conditional.exec_forM_messages arms.forks p
    exact congrArg (fun r => r.2.2) (hq.symm.trans hexec)
  refine (accounts_alternative hw hcalm (hsame ▸ hs) hotherwise).bind fun final q' hq' => ?_
  rw [act_alternative] at hq'
  have hcalm' : q'.1.Calm inMacro := by
    have hsilent := Conditional.silent_alternative (w := w) arms.otherwise q
    rw [hq'] at hsilent
    exact hsilent ▸ hcalm
  have hfinal := Conditional.gives_alternative arms.otherwise q final (by rw [hq'])
  refine (accounts_announce hcalm' hfinal).bind fun _ q hq => accounts_conclude ?_ loc arms.forks final
  cases final with
  | none =>
    cases hq
    exact hcalm'
  | some fork =>
    cases hq
    exact hcalm'.pushAll (isTerminal_of_isQuiet (hfinal fork rfl))

/-- IF. -/
theorem accounts_assemble (hw : w.Accounts whole g hear) (hkind : w.block.inMacro = inMacro)
    (hp : p.1.Calm inMacro) (hs : g.Sound p.2.scope) (loc : Location) {clauses : List Clause}
    {otherwise : Option (List Token)} (hclauses : ∀ c ∈ clauses, ∀ t ∈ c.body, g.source t)
    (hotherwise : ∀ body ∈ otherwise, ∀ t ∈ body, g.source t) :
    (assemble hear w loc clauses otherwise).Settles whole inMacro true p := by
  refine (accounts_sift hw hp hs otherwise hclauses).bind fun arms q hq => ?_
  rw [act_sift] at hq
  obtain ⟨hsame, hscope, hsifted⟩ := Conditional.exec_sift w otherwise clauses p
  have hquiet : arms.IsQuiet := Conditional.gives_sift otherwise clauses p arms (by rw [hq])
  rw [hq] at hsame hscope hsifted
  obtain ⟨-, hlast⟩ := Grammar.sifted_forall (hsifted arms rfl) hclauses hotherwise
  have hcalm : q.1.Calm inMacro := hsame ▸ hp
  have hsound : g.Sound q.2.scope := hscope ▸ hs
  split
  · exact accounts_undecided hw hcalm hsound loc hquiet hlast
  · rename_i hforks
    have hnone : arms.forks = [] := by simpa using hforks
    rw [hnone]
    split
    · exact .pure hcalm rfl
    · rename_i body hbody
      refine hw.requireRunner hcalm fun run hfinishes _ haccounts => .fresh_bind hcalm fun b s' hb hscope' => ?_
      have hs' : g.Sound s'.scope := hscope' ▸ hsound
      exact .scope_bind (p := (q.1, s')) hcalm (accounts_expand hfinishes haccounts
        (Expand.fits_same (hb.trans hkind)) (hlast body hbody) (hs'.opens .nest) hcalm)

end Telling

end Expansion

end MacroAsm
