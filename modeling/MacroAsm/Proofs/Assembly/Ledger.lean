import MacroAsm.Proofs.Assembly.Arms
import MacroAsm.Proofs.Assembly.Chronicle
import MacroAsm.Proofs.Assembly.Limit

/-!
# Keeping account of diagnostics

What the handling of a statement emits is compared with the chronicle of it (`Told.Accounts`). If a nested block
ends with a fatal diagnostic, then so does the output of the statement around it, or the statement fails with
that diagnostic. If none was produced, then every diagnostic is emitted exactly as often as it was produced,
unless a block is ended by END or EXITM. The diagnostics of an arm that only the linker can decide wait until all
tests of the IF were looked at.

Whatever assembles nested blocks is a parameter that keeps account in the same way (`Hearing.Accounts`).
-/

namespace MacroAsm

variable {inMacro : Bool}

/-- A diagnostic that ends the run. -/
def Diagnostic.IsFatal (d : Diagnostic) : Prop := d.isFatal = true

/-- A fatal diagnostic is among others. -/
def Diagnostic.AnyFatal (ds : List Diagnostic) : Prop := ∃ d ∈ ds, d.IsFatal

/-- More diagnostics. -/
theorem Diagnostic.AnyFatal.of_count_le {ds ds' : List Diagnostic} (h : AnyFatal ds)
    (hle : ∀ d, ds.count d ≤ ds'.count d) : AnyFatal ds' := by
  obtain ⟨d, hd, hfatal⟩ := h
  exact ⟨d, List.count_pos_iff.1 ((List.count_pos_iff.2 hd).trans_le (hle d)), hfatal⟩

namespace Token

@[simp]
theorem diagnostics_nil : diagnostics [] = [] := rfl

@[simp]
theorem diagnostics_append (ts ts' : List Token) :
    diagnostics (ts ++ ts') = diagnostics ts ++ diagnostics ts' :=
  List.filterMap_append

/-- The diagnostics among tokens are those that they are. -/
theorem mem_diagnostics {ts : List Token} {d : Diagnostic} : d ∈ diagnostics ts ↔ .message d ∈ ts := by
  rw [diagnostics, List.mem_filterMap]
  refine ⟨fun ⟨t, ht, hd⟩ => ?_, fun h => ⟨_, h, rfl⟩⟩
  cases t with
  | message d' =>
    cases hd
    exact ht
  | _ => cases hd

/-- Tokens other than diagnostics may be left out. -/
theorem diagnostics_filter {p : Token → Bool} {ts : List Token}
    (h : ∀ t ∈ ts, t.isMessage = true → p t = true) : diagnostics (ts.filter p) = diagnostics ts := by
  induction ts with
  | nil => rfl
  | cons t rest ih =>
    rw [List.forall_mem_cons] at h
    rw [List.filter_cons]
    split
    · rw [diagnostics, diagnostics, List.filterMap_cons, List.filterMap_cons, ← diagnostics, ← diagnostics,
        ih h.2]
    · rename_i hp
      rw [ih h.2]
      cases t with
      | message d => exact absurd (h.1 rfl) hp
      | _ => rfl

end Token

namespace Item

@[simp]
theorem diagnostics_nil : diagnostics [] = [] := rfl

@[simp]
theorem diagnostics_append (items items' : List Item) :
    diagnostics (items ++ items') = diagnostics items ++ diagnostics items' := by
  rw [diagnostics, List.map_append, Token.diagnostics_append]
  rfl

@[simp]
theorem diagnostics_message (d : Diagnostic) : diagnostics [.message d] = [d] := rfl

@[simp]
theorem diagnostics_settled (ts : List Token) : diagnostics (ts.map .settled) = Token.diagnostics ts := by
  rw [diagnostics, List.map_map]
  exact congrArg _ (List.map_id ts)

@[simp]
theorem diagnostics_spliced (ts : List Token) : diagnostics (ts.map .spliced) = Token.diagnostics ts := by
  rw [diagnostics, List.map_map]
  exact congrArg _ (List.map_id ts)

/-- An item that is no diagnostic. -/
theorem diagnostics_of_not_isMessage {item : Item} (h : item.token.isMessage = false) :
    diagnostics [item] = [] := by
  obtain ⟨token, pending⟩ := item
  cases token with
  | message d => cases h
  | _ => rfl

end Item

namespace Event

/-- No fatal diagnostic was produced. -/
def Safe (events : List Event) : Prop := ∀ d ∈ diagnostics events, d.isFatal = false

@[simp]
theorem diagnostics_nil : diagnostics [] = [] := rfl

@[simp]
theorem diagnostics_append (events events' : List Event) :
    diagnostics (events ++ events') = diagnostics events ++ diagnostics events' :=
  List.filterMap_append

@[simp]
theorem diagnostics_said (ds : List Diagnostic) : diagnostics (ds.map .said) = ds := by
  rw [diagnostics, List.filterMap_map]
  exact List.filterMap_some ..

theorem safe_nil : Safe [] := fun _ h => absurd h List.not_mem_nil

/-- One thing happened after another. -/
theorem safe_append {events events' : List Event} (h : Safe events) (h' : Safe events') :
    Safe (events ++ events') := by
  intro d hd
  rw [diagnostics_append] at hd
  exact (List.mem_append.1 hd).elim (h d) (h' d)

theorem safe_of_append {events events' : List Event} (h : Safe (events ++ events')) : Safe events ∧ Safe events' := by
  rw [Safe, diagnostics_append] at h
  exact ⟨fun d hd => h d (List.mem_append_left _ hd), fun d hd => h d (List.mem_append_right _ hd)⟩

/-- A fatal diagnostic was produced if not none was. -/
theorem anyFatal_of_not_safe {events : List Event} (h : ¬ Safe events) :
    Diagnostic.AnyFatal (diagnostics events) := by
  rw [Safe] at h
  push Not at h
  obtain ⟨d, hd, hfatal⟩ := h
  exact ⟨d, hd, Bool.eq_true_of_not_eq_false hfatal⟩

end Event

namespace Told

variable {α β : Type} {x : Told α} {k : α → Told β} {p q : Output × State}

/-- The events of a handling after another, unless that fails. -/
theorem log_bind (x : Told α) (k : α → Told β) (p : Output × State) :
    (x >>= k).log p = x.log p ++
      match x.act.exec p with
      | (.ok a, q) => (k a).log q
      | (.error _, _) => [] := rfl

theorem log_bind_of_ok {a : α} (h : x.act.exec p = (.ok a, q)) :
    (x >>= k).log p = x.log p ++ (k a).log q := by
  rw [log_bind, h]

theorem log_bind_of_error {f : Failure} (h : x.act.exec p = (.error f, q)) :
    (x >>= k).log p = x.log p := by
  rw [log_bind, h, List.append_nil]

@[simp]
theorem log_pure (a : α) (p : Output × State) : (pure a : Told α).log p = [] := rfl

@[simp]
theorem log_liftEmission (e : Emission α) (p : Output × State) : (liftM e : Told α).log p = [] := rfl

@[simp]
theorem log_liftAct (act : Act α) (p : Output × State) : (liftM act : Told α).log p = [] := rfl

@[simp]
theorem log_perform (y : Recorded α) (p : Output × State) : (perform y).log p = y.log p.2 := rfl

end Told

/-- How often a diagnostic was emitted. -/
def Output.tally (o : Output) (d : Diagnostic) : Nat := (Item.diagnostics o.items).count d

/-- How often a diagnostic was emitted, after one more item. -/
theorem Output.tally_push {o : Output} (ho : o.closed = false) (item : Item) (d : Diagnostic) :
    (o.push item).tally d = o.tally d + (Item.diagnostics [item]).count d := by
  rw [tally, items_push_of_open ho, Item.diagnostics_append, List.count_append]
  rfl

/-- How often a diagnostic was emitted, after more items of which none ends the output. -/
theorem Output.tally_pushAll {o : Output} (ho : o.closed = false) {items : List Item}
    (h : ∀ i ∈ items, i.token.isTerminal o.inMacro = false) (d : Diagnostic) :
    (o.pushAll items).tally d = o.tally d + (Item.diagnostics items).count d := by
  rw [tally, (items_pushAll ho h).1, Item.diagnostics_append, List.count_append]
  rfl

namespace Told

variable {α β : Type} {whole : Prop} {ends : Bool} {p : Output × State}

/-- Diagnostics are emitted as often as they were produced, but for those that wait: `pending` are the ones that
waited before, and `given` those that wait with the result. A failure that is not fatal leaves none. -/
structure Balances (pending : List Diagnostic) (given : α → List Diagnostic) (e : Told α)
    (p : Output × State) : Prop where
  /-- A result leaves the output open. -/
  result : ∀ a q, e.act.exec p = (.ok a, q) → q.1.closed = false ∧ ∀ d,
    q.1.tally d + (given a).count d =
      p.1.tally d + pending.count d + (Event.diagnostics (e.log p)).count d
  /-- A failure. -/
  failure : ∀ f q, e.act.exec p = (.error f, q) → (∀ loc, (f.toDiagnostic loc).isFatal = true) ∨ ∀ d,
    q.1.tally d = p.1.tally d + pending.count d + (Event.diagnostics (e.log p)).count d

/-- A handling met a fatal diagnostic: it failed with it, or the output of a nested block, which is the last that
a handling emits, ended with it. Where the whole program is assembled without being cut short that one was produced
here. -/
def Meets (whole : Prop) (inMacro ends : Bool) (e : Told α) (p : Output × State) : Prop :=
  (∃ d, (e.act.exec p).1 = .error (.report d) ∧ d.IsFatal ∧ (e.act.exec p).2.1.Calm inMacro) ∨
    ends = true ∧ (e.act.exec p).2.1.Overrun Diagnostic.IsFatal inMacro ∧ (whole → ¬ Event.Safe (e.log p))

/-- A handling keeps account of diagnostics. Either it meets a fatal one, or none was produced, and they balance
where the whole program is assembled without being cut short. -/
structure Accounts (whole : Prop) (inMacro ends : Bool) (pending : List Diagnostic)
    (given : α → List Diagnostic) (e : Told α) (p : Output × State) : Prop where
  /-- A failure leaves an output to which its diagnostic is added. -/
  failure : ∀ f q, e.act.exec p = (.error f, q) → q.1.Calm inMacro
  /-- What becomes of diagnostics. -/
  outcome : Meets whole inMacro ends e p ∨
    Event.Safe (e.log p) ∧ (whole → Balances pending given e p)

/-- A handling that keeps account, and leaves no diagnostics that wait. -/
abbrev Settles (whole : Prop) (inMacro ends : Bool) (e : Told α) (p : Output × State) : Prop :=
  Accounts whole inMacro ends [] (fun _ => []) e p

section Rules

variable {pending : List Diagnostic} {given : α → List Diagnostic} {given' : β → List Diagnostic}

/-- A handling that goes on with the result of another. -/
theorem Accounts.bind {e : Told α} {k : α → Told β} (he : e.Accounts whole inMacro false pending given p)
    (hk : ∀ a q, e.act.exec p = (.ok a, q) → (k a).Accounts whole inMacro ends (given a) given' q) :
    (e >>= k).Accounts whole inMacro ends pending given' p := by
  rcases hexec : e.act.exec p with ⟨r, q⟩
  cases r with
  | error f =>
    have hfail : (e >>= k).act.exec p = (.error f, q) := Emission.exec_bind_of_error hexec
    refine ⟨fun f' q' h => ?_, ?_⟩
    · rw [hfail] at h
      cases h
      exact he.failure f q hexec
    · rw [Meets, hfail, log_bind_of_error hexec]
      rcases he.outcome with (⟨d, hd, hfatal, hcalm⟩ | ⟨hends, -⟩) | ⟨hsafe, hbalances⟩
      · rw [hexec] at hd hcalm
        cases hd
        exact Or.inl (Or.inl ⟨d, rfl, hfatal, hcalm⟩)
      · cases hends
      · refine Or.inr ⟨hsafe, fun hwhole => ⟨fun a q' h => ?_, fun f' q' h => ?_⟩⟩
        · rw [hfail] at h
          cases h
        · rw [hfail] at h
          cases h
          rw [log_bind_of_error hexec]
          exact (hbalances hwhole).failure f q hexec
  | ok a =>
    have hnext : (e >>= k).act.exec p = (k a).act.exec q := Emission.exec_bind_of_ok hexec
    have ha := hk a q hexec
    refine ⟨fun f' q' h => ha.failure f' q' (hnext ▸ h), ?_⟩
    rw [Meets, hnext, log_bind_of_ok hexec]
    rcases he.outcome with (⟨d, hd, -⟩ | ⟨hends, -⟩) | ⟨hsafe, hbalances⟩
    · rw [hexec] at hd
      cases hd
    · cases hends
    · refine ha.outcome.imp (fun hmeets => hmeets.imp id fun ⟨hends, hover, hthere⟩ => ⟨hends, hover, fun hwhole h =>
        hthere hwhole (Event.safe_of_append h).2⟩) fun ⟨hsafe', hbalances'⟩ =>
          ⟨Event.safe_append hsafe hsafe', fun hwhole => ?_⟩
      have hfirst := ((hbalances hwhole).result a q hexec).2
      refine ⟨fun b q' h => ?_, fun f q' h => ?_⟩
      · rw [hnext] at h
        obtain ⟨hopen, hcount⟩ := (hbalances' hwhole).result b q' h
        refine ⟨hopen, fun d => ?_⟩
        have h1 := hfirst d
        have h2 := hcount d
        rw [log_bind_of_ok hexec, Event.diagnostics_append, List.count_append]
        omega
      · rw [hnext] at h
        refine ((hbalances' hwhole).failure f q' h).imp id fun hcount d => ?_
        have h1 := hfirst d
        have h2 := hcount d
        rw [log_bind_of_ok hexec, Event.diagnostics_append, List.count_append]
        omega

/-- A handling that goes on after another, which leaves no diagnostics that wait. -/
theorem Accounts.andThen {e : Told α} {k : α → Told β}
    (he : e.Accounts whole inMacro false pending (fun _ => []) p)
    (hk : ∀ a q, e.act.exec p = (.ok a, q) → (k a).Accounts whole inMacro ends [] given' q) :
    (e >>= k).Accounts whole inMacro ends pending given' p :=
  he.bind hk

/-- A handling that does the same as another. -/
theorem Accounts.congr {e c : Told α} (h : e.Accounts whole inMacro ends pending given p)
    (hexec : c.act.exec p = e.act.exec p) (hlog : c.log p = e.log p) :
    c.Accounts whole inMacro ends pending given p := by
  refine ⟨fun f q hq => h.failure f q (hexec ▸ hq), ?_⟩
  rw [Meets, hexec, hlog]
  refine h.outcome.imp id fun ⟨hsafe, hbalances⟩ => ⟨hsafe, fun hwhole => ⟨fun a q hq => ?_, fun f q hq => ?_⟩⟩
  · rw [hlog]
    exact (hbalances hwhole).result a q (hexec ▸ hq)
  · rw [hlog]
    exact (hbalances hwhole).failure f q (hexec ▸ hq)

/-- A handling that emits nothing and in which no diagnostic is produced. -/
theorem Accounts.silent {e : Told α} (hp : p.1.Calm inMacro) (hsame : (e.act.exec p).2.1 = p.1)
    (hlog : Event.diagnostics (e.log p) = []) : e.Settles whole inMacro ends p := by
  refine ⟨fun f q h => ?_, Or.inr ⟨fun d hd => ?_, fun _ => ⟨fun a q h => ?_, fun f q h => Or.inr fun d => ?_⟩⟩⟩
  all_goals try rw [h] at hsame
  · rwa [hsame]
  · rw [hlog] at hd
    cases hd
  · refine ⟨by rw [hsame, hp.isOpen], fun d => ?_⟩
    rw [hsame, hlog]
    rfl
  · rw [hsame, hlog]
    rfl

/-- A handling that goes on with the result of an action on the state. -/
theorem Accounts.act_bind {act : Act α} {k : α → Told β} (hp : p.1.Calm inMacro)
    (hk : ∀ a s', act.exec p.2 = (.ok a, s') → (k a).Accounts whole inMacro ends [] given' (p.1, s')) :
    ((liftM act : Told α) >>= k).Accounts whole inMacro ends [] given' p := by
  refine (Accounts.silent (e := liftM act) hp rfl rfl).bind fun a q hq => ?_
  rw [act_liftAct, Emission.exec_monadLift] at hq
  obtain ⟨ha, rfl⟩ := Prod.mk.inj hq
  exact hk a _ (Prod.ext ha rfl)

/-- A handling that begins by reading the scope. -/
theorem Accounts.scope_bind {k : Scope → Told β} (hp : p.1.Calm inMacro)
    (hk : (k p.2.scope).Accounts whole inMacro ends [] given' p) :
    ((liftM Act.scope : Told Scope) >>= k).Accounts whole inMacro ends [] given' p := by
  refine .act_bind hp fun scope s' h => ?_
  rw [Act.exec_scope] at h
  cases h
  exact hk

/-- A handling that goes on with the result of a computation. -/
theorem Accounts.require_bind {y : Except Cause α} {k : α → Told β} (hp : p.1.Calm inMacro)
    (hk : ∀ a, y = .ok a → (k a).Accounts whole inMacro ends [] given' p) :
    ((liftM (Emission.require y) : Told α) >>= k).Accounts whole inMacro ends [] given' p := by
  refine (Accounts.silent (e := liftM (Emission.require y)) hp (Emission.Silent.require y p) rfl).bind
    fun a q hq => ?_
  rw [act_liftEmission, Emission.exec_require] at hq
  cases y with
  | ok a' =>
    cases hq
    exact hk a rfl
  | error c => cases hq

/-- A handling that goes on with a result that is there already. -/
theorem Accounts.pure_bind {a : α} {k : α → Told β} (hp : p.1.Calm inMacro)
    (hk : (k a).Accounts whole inMacro ends [] given' p) :
    ((Pure.pure a : Told α) >>= k).Accounts whole inMacro ends [] given' p := by
  refine (Accounts.silent (e := Pure.pure a) hp rfl rfl).bind fun a' q hq => ?_
  rw [act_pure, Emission.exec_pure, Prod.mk.injEq] at hq
  obtain ⟨ha, rfl⟩ := hq
  cases ha
  exact hk

/-- A handling that begins a nested block. -/
theorem Accounts.fresh_bind {naming : Naming} {args : List Expr} {kind : Bool} {k : Block → Told β}
    (hp : p.1.Calm inMacro)
    (hk : ∀ b s', b.inMacro = kind → s'.scope = p.2.scope →
      (k b).Accounts whole inMacro ends [] given' (p.1, s')) :
    (fresh naming args kind >>= k).Accounts whole inMacro ends [] given' p := by
  refine (Accounts.silent (e := fresh naming args kind) hp rfl rfl).bind fun b q hq => ?_
  cases hq
  exact hk _ _ rfl rfl

theorem Accounts.report {d : Diagnostic} (hp : p.1.Calm inMacro) :
    (liftM (Emission.report d : Emission α) : Told α).Settles whole inMacro ends p :=
  .silent hp rfl rfl

theorem Accounts.raise {c : Cause} (hp : p.1.Calm inMacro) :
    (liftM (Emission.raise c : Emission α) : Told α).Settles whole inMacro ends p :=
  .silent hp rfl rfl

/-- A result that is there already. -/
theorem Accounts.pure {a : α} (hp : p.1.Calm inMacro) (hgiven : given a = pending) :
    (Pure.pure a : Told α).Accounts whole inMacro ends pending given p := by
  refine ⟨fun f q h => (by cases h), Or.inr ⟨Event.safe_nil, fun _ => ⟨fun a' q h => ?_, fun f q h => (by cases h)⟩⟩⟩
  rw [act_pure, Emission.exec_pure, Prod.mk.injEq, Except.ok.injEq] at h
  obtain ⟨rfl, rfl⟩ := h
  exact ⟨hp.isOpen, fun d => by rw [hgiven]; rfl⟩

/-- Diagnostics that waited before go on waiting, if every failure is fatal. -/
theorem Accounts.frame {e : Told α} {given : α → List Diagnostic} (h : e.Accounts whole inMacro ends [] given p)
    (hfatal : ∀ f q, e.act.exec p = (.error f, q) → ∀ loc, (f.toDiagnostic loc).isFatal = true) :
    e.Accounts whole inMacro ends pending (fun a => pending ++ given a) p := by
  refine ⟨h.failure, h.outcome.imp id fun ⟨hsafe, hbalances⟩ => ⟨hsafe, fun hwhole =>
    ⟨fun a q hq => ?_, fun f q hq => Or.inl (hfatal f q hq)⟩⟩⟩
  obtain ⟨hopen, hcount⟩ := (hbalances hwhole).result a q hq
  refine ⟨hopen, fun d => ?_⟩
  have hd := hcount d
  rw [List.count_nil] at hd
  rw [List.count_append]
  omega

/-- Items are emitted of which the diagnostics waited, and none ends the output. -/
theorem Accounts.emitItems (items : List Item) (hp : p.1.Calm inMacro)
    (hopen : whole → ∀ i ∈ items, i.token.isTerminal inMacro = false)
    (hpending : whole → ∀ d, (Item.diagnostics items).count d = pending.count d) :
    (liftM (Emission.emitItems items) : Told PUnit).Accounts whole inMacro ends pending (fun _ => []) p := by
  refine ⟨fun f q h => (by cases h), Or.inr ⟨Event.safe_nil, fun hwhole =>
    ⟨fun a q h => ?_, fun f q h => (by cases h)⟩⟩⟩
  rw [act_liftEmission, Emission.exec_emitItems, Prod.mk.injEq] at h
  obtain ⟨-, rfl⟩ := h
  have hterminal : ∀ i ∈ items, i.token.isTerminal p.1.inMacro = false := hp.ordered.kind ▸ hopen hwhole
  refine ⟨(Output.items_pushAll hp.isOpen hterminal).2, fun d => ?_⟩
  rw [Output.tally_pushAll hp.isOpen hterminal, hpending hwhole d]
  rfl

/-- An item is emitted that is no diagnostic and does not end the output. -/
theorem Accounts.emitItem {item : Item} (hp : p.1.Calm inMacro) (hmessage : item.token.isMessage = false)
    (hopen : whole → item.token.isTerminal inMacro = false) :
    (liftM (Emission.emitItem item) : Told PUnit).Settles whole inMacro ends p := by
  refine .emitItems [item] hp (fun hwhole => ?_) fun _ d => ?_
  · exact List.forall_mem_singleton.2 (hopen hwhole)
  · rw [Item.diagnostics_of_not_isMessage hmessage]

end Rules

end Told

namespace Emission

variable {α β : Type}

/-- A handling gives a result. -/
def Sure (e : Emission α) : Prop := ∀ p, ∃ a, (e.exec p).1 = .ok a

/-- A handling fails only with a fatal diagnostic. -/
def Drastic (e : Emission α) : Prop :=
  ∀ p f q, e.exec p = (.error f, q) → ∀ loc, (f.toDiagnostic loc).isFatal = true

/-- A handling that gives a result does not fail. -/
theorem Drastic.of_sure {e : Emission α} (h : Sure e) : Drastic e := by
  intro p f q hq
  obtain ⟨a, ha⟩ := h p
  rw [hq] at ha
  cases ha

/-- A failure with a fatal diagnostic. -/
theorem Drastic.report {d : Diagnostic} (hd : d.isFatal = true) : Drastic (Emission.report d : Emission α) := by
  intro p f q hq loc
  cases hq
  exact hd

/-- A handling that goes on with the result of another. -/
theorem Drastic.bind {e : Emission α} {k : α → Emission β} (he : Drastic e) (hk : ∀ a, Drastic (k a)) :
    Drastic (e >>= k) := by
  intro p f q hq
  rcases hexec : e.exec p with ⟨r, q'⟩
  cases r with
  | ok a =>
    rw [exec_bind_of_ok hexec] at hq
    exact hk a q' f q hq
  | error f' =>
    rw [exec_bind_of_error hexec] at hq
    cases hq
    exact he p f q hexec

end Emission

/-- The value of a test is known to be true or not. -/
theorem Expr.exists_asTruth_of_isConcrete {e : Expr} (h : e.isConcrete = true) : ∃ b, e.asTruth = .ok b := by
  cases e with
  | number | numeral | string => exact ⟨_, rfl⟩
  | _ => cases h

/-- The events of nested blocks keep account of diagnostics. A block ends with a fatal one, or none was produced
in it, and its output has each diagnostic as often as it was produced unless it is cut short. -/
def Hearing.Accounts (whole : Prop) (g : Grammar) (hear : Hearing) (run : Runner) : Prop :=
  ∀ (b : Block) (body : List Token) (s : State), (∀ t ∈ body, g.source t) → g.Sound s.scope →
    ((∃ before d, ((run b body).run s).1 = before ++ [.message d] ∧ d.IsFatal ∧
      ∀ t ∈ before, t.isTerminal b.inMacro = false) ∧ (whole → ¬ Event.Safe (hear b body s))) ∨
    Event.Safe (hear b body s) ∧ (whole →
      (∀ t ∈ ((run b body).run s).1, t.isTerminal b.inMacro = false) ∧
      ∀ d, (Token.diagnostics ((run b body).run s).1).count d = (Event.diagnostics (hear b body s)).count d)

/-- A workbench whose nested blocks are within a grammar, and keep account of diagnostics. -/
structure Workbench.Accounts (whole : Prop) (g : Grammar) (w : Workbench) (hear : Hearing) : Prop where
  /-- Nothing is left to be expanded in nested blocks. -/
  finishes : w.Finishes
  /-- They are within the grammar. -/
  equips : g.Equips w
  /-- They keep account. -/
  accounts : ∀ run, w.runner = some run → hear.Accounts whole g run

/-- The account of names is safe. -/
theorem Event.safe_account (nested : Bool) (s : State) : Safe ((Recorded.account nested).log s) := by
  intro d hd
  rw [Recorded.account, Event.diagnostics_said] at hd
  exact (mem_account (Token.mem_diagnostics.1 hd)).2

section Expansion

open Told (Accounts Settles)

variable {whole : Prop} {ends : Bool} {g : Grammar} {w : Workbench} {hear : Hearing} {p : Output × State}

/-- A handling that begins by looking for the runner of nested blocks. -/
theorem Workbench.Accounts.requireRunner {α : Type} {k : Runner → Told α} {given : α → List Diagnostic}
    (hw : w.Accounts whole g hear) (hp : p.1.Calm inMacro)
    (hk : ∀ run : Runner, run.Finishes → g.Obeys run → hear.Accounts whole g run →
      (k run).Accounts whole inMacro ends [] given p) :
    ((liftM w.requireRunner : Told Runner) >>= k).Accounts whole inMacro ends [] given p := by
  refine (Accounts.silent (e := liftM w.requireRunner) hp (silent_requireRunner p) rfl).bind fun run q hq => ?_
  rw [Told.act_liftEmission, requireRunner.eq_def] at hq
  split at hq
  · rename_i run' hrun
    cases hq
    exact hk run (hw.finishes run hrun) (hw.equips.runner run hrun) (hw.accounts run hrun)
  · cases hq

end Expansion

end MacroAsm
