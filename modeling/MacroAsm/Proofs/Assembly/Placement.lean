import MacroAsm.Proofs.Assembly.Limit
import MacroAsm.Proofs.Eval.References
import MacroAsm.Proofs.Text.Numeral

/-!
# Placing labels

A label is bound to a new identity and its place is emitted at once. From then on the place travels with the
output, and references to it spread by evaluation. `Snapshot.Leads` tells how what was given so far and the values
of the scope develop: each identity is placed no more often than it was handed out, and what is referred to is
placed, unless a failure is reported. `Emission.Traces` says so of the handling of a statement, and here it is shown
for the statements that declare or bind names.
-/

namespace MacroAsm

variable {D : Text → Prop}

variable {naming : Naming}

/-- The names of the identities that are handed out while the supply goes from one number to another. -/
def minted (naming : Naming) (m n : Nat) : List Text := (List.range' m (n - m)).map naming.name

/-- What is handed out in two steps. -/
theorem minted_append {m n k : Nat} (hmn : m ≤ n) (hnk : n ≤ k) :
    minted naming m n ++ minted naming n k = minted naming m k := by
  rw [minted, minted, minted, ← List.map_append]
  congr 1
  have hrange := @List.range'_append_1 m (n - m) (k - n)
  rw [Nat.add_sub_cancel' hmn] at hrange
  rw [hrange]
  congr 1
  omega

theorem nodup_minted (naming : Naming) (m n : Nat) : (minted naming m n).Nodup :=
  List.Nodup.map (fun m n => naming.injective m n) List.nodup_range'

/-- What was given so far, and the state. -/
abbrev Snapshot := List Token × State

/-- Tokens that tell that not all labels have a property: they are the place of one without it, or they fail the
run, so that nothing is said of the labels of the program. -/
def Escapes (D : Text → Prop) (ts : List Token) : Prop :=
  ∃ id, ¬ D id ∧ (id ∈ Token.allPlaces ts ∨ ∃ t ∈ ts, t.fails = true)

/-- More tokens tell it too. -/
theorem Escapes.mono {ts ts' : List Token} (h : Escapes D ts) (hsub : ∀ t ∈ ts, t ∈ ts') : Escapes D ts' := by
  obtain ⟨id, hid, hplace | ⟨t, ht, hfails⟩⟩ := h
  · obtain ⟨t, ht, hmem⟩ := Token.mem_allPlaces_iff.1 hplace
    exact ⟨id, hid, Or.inl (Token.mem_allPlaces_iff.2 ⟨t, hsub t ht, hmem⟩)⟩
  · exact ⟨id, hid, Or.inr ⟨t, hsub t ht, hfails⟩⟩

theorem not_escapes_true {ts : List Token} : ¬ Escapes (fun _ => True) ts := fun ⟨_, hid, _⟩ => hid trivial

namespace Snapshot

/-- What was given and the values of the scope refer only to labels whose identities have a property. -/
structure Within (D : Text → Prop) (c : Snapshot) : Prop where
  /-- What was given so far. -/
  tokens : ∀ t ∈ c.1, t.Within D
  /-- The scope. -/
  scope : c.2.scope.Within D

/-- How labels are placed and referred to from one moment to a later one. `budget` lists the places that are moved
to the output, `P` is what is known of the labels at the earlier moment, and `Q` what is known at the later one
besides. -/
structure Leads (naming : Naming) (budget : List Text) (P Q : (Text → Prop) → Prop) (c c' : Snapshot) : Prop where
  /-- What was given stays. -/
  grows : ∀ t ∈ c.1, t ∈ c'.1
  /-- Identities are handed out in order. -/
  supply : c.2.supply ≤ c'.2.supply
  /-- An identity is placed no more often than it is moved or handed out. -/
  count : P (fun _ => True) → c.Within (fun _ => True) → ∀ id, (Token.allPlaces c'.1).count id ≤
    (Token.allPlaces c.1).count id + budget.count id + (minted naming c.2.supply c'.2.supply).count id
  /-- What is referred to is placed, unless a failure is reported. -/
  within : ∀ D, P D → c.Within D → Escapes D c'.1 ∨ (c'.Within D ∧ Q D)

variable {budget budget' : List Text} {P P' Q R : (Text → Prop) → Prop} {c c' c'' : Snapshot}

theorem Leads.refl (h : ∀ D, P D → Q D) (c : Snapshot) : Leads naming [] P Q c c :=
  ⟨fun _ h => h, Nat.le_refl _, fun _ _ _ => Nat.le_add_right_of_le (Nat.le_add_right _ _),
    fun D hP hc => Or.inr ⟨hc, h D hP⟩⟩

/-- One thing happens after another. -/
theorem Leads.trans (h : Leads naming budget P Q c c') (h' : Leads naming budget' (fun D => P D ∧ Q D) R c' c'') :
    Leads naming (budget ++ budget') P R c c'' where
  grows t ht := h'.grows t (h.grows t ht)
  supply := h.supply.trans h'.supply
  count hP hc id := by
    obtain hescapes | ⟨hc', hQ⟩ := h.within _ hP hc
    · exact absurd hescapes not_escapes_true
    · have hfirst := h.count hP hc id
      have hsecond := h'.count ⟨hP, hQ⟩ hc' id
      rw [← minted_append h.supply h'.supply, List.count_append, List.count_append]
      omega
  within D hP hc := by
    rcases h.within D hP hc with hescapes | ⟨hc', hQ⟩
    · exact Or.inl (hescapes.mono h'.grows)
    · exact h'.within D ⟨hP, hQ⟩ hc'

/-- More places may be moved. -/
theorem Leads.afford (h : Leads naming budget P Q c c') (hbudget : ∀ id, budget.count id ≤ budget'.count id) :
    Leads naming budget' P Q c c' := by
  refine ⟨h.grows, h.supply, fun hP hc id => ?_, h.within⟩
  have hcount := h.count hP hc id
  have hid := hbudget id
  omega

theorem Leads.spare (h : Leads naming [] P Q c c') (budget : List Text) : Leads naming budget P Q c c' :=
  h.afford fun _ => Nat.zero_le _

/-- Less is known at the later moment. -/
theorem Leads.imp (h : Leads naming budget P Q c c') (hP : ∀ D, P' D → P D) (hQ : ∀ D, Q D → R D) :
    Leads naming budget P' R c c' :=
  ⟨h.grows, h.supply, fun hP' => h.count (hP _ hP'),
    fun D hP' hc => (h.within D (hP D hP') hc).imp_right fun ⟨hc', hq⟩ => ⟨hc', hQ D hq⟩⟩

/-- The state changes. -/
theorem Leads.state {ts : List Token} {s s' : State} (hsupply : s.supply ≤ s'.supply)
    (h : ∀ D, P D → s.scope.Within D → s'.scope.Within D ∧ Q D) : Leads naming [] P Q (ts, s) (ts, s') where
  grows _ h := h
  supply := hsupply
  count _ _ _ := Nat.le_add_right_of_le (Nat.le_add_right _ _)
  within D hP hc := Or.inr ⟨⟨hc.tokens, (h D hP hc.scope).1⟩, (h D hP hc.scope).2⟩

/-- Tokens are replaced by what becomes of them, if nothing that tells of labels without a property gets lost. -/
theorem Leads.relay {before ts ts' : List Token} {s s' s'' : State} (h : Leads naming budget P Q ([], s) (ts, s'))
    (h' : Leads naming (Token.allPlaces ts) (fun D => P D ∧ ∀ t ∈ ts, t.Within D) R (before, s') (ts', s''))
    (hrelay : ∀ D, P D → s.scope.Within D → Within D (ts, s') ∨ (Escapes D ts → Escapes D ts')) :
    Leads naming budget P R (before, s) (ts', s'') := by
  have hstart : ∀ {D : Text → Prop}, s.scope.Within D → Within D ([], s) :=
    fun hs => ⟨fun _ ht => absurd ht List.not_mem_nil, hs⟩
  refine ⟨h'.grows, h.supply.trans h'.supply, fun hP hc id => ?_, fun D hP hc => ?_⟩
  · obtain hescapes | ⟨hts, -⟩ := h.within _ hP (hstart hc.scope)
    · exact absurd hescapes not_escapes_true
    · have hfirst := h.count hP (hstart hc.scope) id
      have hsecond := h'.count ⟨hP, hts.tokens⟩ ⟨hc.tokens, hts.scope⟩ id
      rw [← minted_append h.supply h'.supply, List.count_append]
      rw [Token.allPlaces, List.count_nil] at hfirst
      dsimp only at hfirst hsecond ⊢
      omega
  · have hon : Within D (ts, s') → _ := fun hts => h'.within D ⟨hP, hts.tokens⟩ ⟨hc.tokens, hts.scope⟩
    rcases hrelay D hP hc.scope with hts | hescapes
    · exact hon hts
    · exact (h.within D hP (hstart hc.scope)).elim (fun h => Or.inl (hescapes h)) fun h => hon h.1

/-- A failure is given in place of all tokens. -/
theorem Leads.giveUp {ts ts' : List Token} {s s' s'' : State} (h : Leads naming budget P Q ([], s) (ts, s'))
    (h' : Leads naming budget' (fun D => P D ∧ ∀ t ∈ ts, t.Within D) R ([], s') (ts', s'')) {d : Diagnostic}
    (hfails : d.fails = true) : Leads naming budget P (fun _ => True) ([], s) ([.message d], s'') where
  grows _ ht := absurd ht List.not_mem_nil
  supply := h.supply.trans h'.supply
  count _ _ _ := Nat.zero_le _
  within D hP hc := by
    by_cases hall : ∀ id, D id
    · -- nothing escapes, so that the scope refers to what it referred to
      have hnot : ∀ {ts : List Token}, ¬ Escapes D ts := fun ⟨id, hid, _⟩ => hid (hall id)
      obtain hescapes | ⟨hts, -⟩ := h.within D hP hc
      · exact absurd hescapes hnot
      · obtain hescapes | ⟨hts', -⟩ := h'.within D ⟨hP, hts.tokens⟩ ⟨hc.tokens, hts.scope⟩
        · exact absurd hescapes hnot
        · exact Or.inr ⟨⟨List.forall_mem_singleton.2 (Token.within_of_isMessage rfl), hts'.scope⟩, trivial⟩
    · obtain ⟨id, hid⟩ := not_forall.1 hall
      exact Or.inl ⟨id, hid, Or.inr ⟨_, List.mem_cons_self, hfails⟩⟩

/-- Nothing that has to be moved is left. -/
theorem Leads.unburden (h : Leads naming budget P Q c c') (hbudget : ∀ D, P D → budget = []) :
    Leads naming [] P Q c c' := by
  refine ⟨h.grows, h.supply, fun hP hc id => ?_, h.within⟩
  have hcount := h.count hP hc id
  rwa [hbudget _ hP] at hcount

/-- Tokens are given that refer to no more labels. -/
theorem Leads.give {ts more : List Token} {s : State} (hmore : ∀ D, P D → ∀ t ∈ more, t.Within D) :
    Leads naming (Token.allPlaces more) P (fun _ => True) (ts, s) (ts ++ more, s) where
  grows t ht := List.mem_append_left more ht
  supply := Nat.le_refl _
  count _ _ id := by
    rw [Token.allPlaces_append, List.count_append]
    exact Nat.le_add_right _ _
  within D hP hc := by
    refine Or.inr ⟨⟨fun t ht => ?_, hc.scope⟩, trivial⟩
    rcases List.mem_append.1 ht with ht | ht
    · exact hc.tokens t ht
    · exact hmore D hP t ht

/-- Diagnostics are given. -/
theorem Leads.report {ts more : List Token} {s : State} (hmore : ∀ t ∈ more, t.isMessage = true) :
    Leads naming [] P (fun _ => True) (ts, s) (ts ++ more, s) := by
  have hgive : Leads naming (Token.allPlaces more) P (fun _ => True) (ts, s) (ts ++ more, s) :=
    .give fun D _ t ht => Token.within_of_isMessage (hmore t ht)
  rwa [Token.allPlaces_of_isMessage hmore] at hgive

end Snapshot

namespace Output

variable {o : Output}

/-- The tokens that were emitted so far. -/
def tokens (o : Output) : List Token := o.items.map Item.token

theorem tokens_push (ho : o.closed = false) (item : Item) : (o.push item).tokens = o.tokens ++ [item.token] := by
  rw [tokens, items_push_of_open ho, List.map_append]
  rfl

/-- An open output takes all items of a list of which none before the last is terminal. -/
theorem tokens_pushAll (ho : o.closed = false) {items : List Item}
    (h : ∀ i ∈ items.dropLast, i.token.isTerminal o.inMacro = false) :
    (o.pushAll items).tokens = o.tokens ++ items.map Item.token := by
  rcases items.eq_nil_or_concat' with rfl | ⟨before, last, rfl⟩
  · exact (List.append_nil _).symm
  · rw [List.dropLast_concat] at h
    obtain ⟨hitems, hopen⟩ := items_pushAll ho h
    rw [pushAll_concat, tokens_push hopen, tokens, hitems, List.map_append, List.map_append, List.append_assoc]
    rfl

/-- An output takes the first items of a list, up to a terminal one. -/
theorem exists_tokens_pushAll (o : Output) (items : List Item) :
    ∃ n, (o.pushAll items).tokens = o.tokens ++ (items.map Item.token).take n := by
  induction items generalizing o with
  | nil => exact ⟨0, (List.append_nil _).symm⟩
  | cons i rest ih =>
    obtain ⟨n, hn⟩ := ih (o.push i)
    cases hclosed : o.closed with
    | true =>
      rw [push_of_closed hclosed] at hn
      refine ⟨0, ?_⟩
      rw [pushAll, List.foldl_cons, push_of_closed hclosed, List.take_zero, List.append_nil]
      clear hn ih n
      induction rest with
      | nil => rfl
      | cons i rest ih => rwa [List.foldl_cons, push_of_closed hclosed]
    | false =>
      refine ⟨n + 1, ?_⟩
      rw [pushAll, List.foldl_cons]
      refine hn.trans ?_
      rw [tokens_push hclosed, List.append_assoc, List.map_cons, List.take_succ_cons]
      rfl

/-- An output that is open, in a block that is or is not part of a macro call. -/
structure Ready (inMacro : Bool) (o : Output) : Prop where
  /-- Which tokens are terminal. -/
  kind : o.inMacro = inMacro
  /-- It is open. -/
  isOpen : o.closed = false

end Output

open Snapshot (Leads)

namespace Emission

variable {α β : Type} {budget : List Text} {P P' : (Text → Prop) → Prop} {p : Output × State}

/-- How labels are placed and referred to while a statement is handled, the diagnostic of a failure being
emitted. -/
structure Traces (naming : Naming) (budget : List Text) (P : (Text → Prop) → Prop) (Q : α → (Text → Prop) → Prop)
    (e : Emission α) (p : Output × State) : Prop where
  /-- It gives a result. -/
  ok : ∀ a q, e.exec p = (.ok a, q) → Leads naming budget P (Q a) (p.1.tokens, p.2) (q.1.tokens, q.2)
  /-- It fails. -/
  error : ∀ f q, e.exec p = (.error f, q) → ∀ loc, Leads naming budget P (fun _ => True) (p.1.tokens, p.2)
    ((q.1.push (.message (f.toDiagnostic loc))).tokens, q.2)

namespace Traces

variable {Q : α → (Text → Prop) → Prop}

/-- A diagnostic is emitted, unless the output is closed. -/
theorem leads_message (o : Output) (s : State) (d : Diagnostic) :
    Leads naming [] P (fun _ => True) (o.tokens, s) ((o.push (.message d)).tokens, s) := by
  cases hclosed : o.closed with
  | true =>
    rw [Output.push_of_closed hclosed]
    exact .refl (fun _ _ => trivial) _
  | false =>
    rw [Output.tokens_push hclosed]
    exact .report (List.forall_mem_singleton.2 rfl)

/-- A handling that gives a result. -/
theorem of_ok {e : Emission α} {a : α} {q : Output × State} (h : e.exec p = (.ok a, q))
    (hleads : Leads naming budget P (Q a) (p.1.tokens, p.2) (q.1.tokens, q.2)) : Traces naming budget P Q e p := by
  refine ⟨fun a' q' h' => ?_, fun f q' h' => ?_⟩
  · rw [h] at h'
    cases h'
    exact hleads
  · rw [h] at h'
    cases h'

/-- A handling that fails without having emitted anything, and without having handed out less. -/
theorem of_error {e : Emission α} {f : Failure} {s : State} (h : e.exec p = (.error f, (p.1, s)))
    (hsupply : p.2.supply ≤ s.supply) (hscope : ∀ D, P D → p.2.scope.Within D → s.scope.Within D) :
    Traces naming [] P Q e p := by
  refine ⟨fun a' q' h' => ?_, fun f q' h' loc => ?_⟩
  · rw [h] at h'
    cases h'
  · rw [h] at h'
    cases h'
    exact Leads.trans (.state hsupply fun D hP hs => ⟨hscope D hP hs, trivial⟩) (leads_message p.1 s _)

theorem pure {a : α} (ha : ∀ D, P D → Q a D) : Traces naming [] P Q (Pure.pure a) p :=
  of_ok (exec_pure a p) (.refl ha _)

theorem report (d : Diagnostic) : Traces naming [] P Q (Emission.report d : Emission α) p :=
  of_error (exec_report d p) (Nat.le_refl _) fun _ _ h => h

theorem raise (c : Cause) : Traces naming [] P Q (Emission.raise c : Emission α) p :=
  of_error (exec_raise c p) (Nat.le_refl _) fun _ _ h => h

theorem imp {e : Emission α} (h : Traces naming budget P Q e p) (hP : ∀ D, P' D → P D) :
    Traces naming budget P' Q e p :=
  ⟨fun a q hq => (h.ok a q hq).imp hP fun _ hQ => hQ,
    fun f q hq loc => (h.error f q hq loc).imp hP fun _ hQ => hQ⟩

theorem spare {e : Emission α} (h : Traces naming [] P Q e p) (budget : List Text) : Traces naming budget P Q e p :=
  ⟨fun a q hq => (h.ok a q hq).spare budget, fun f q hq loc => (h.error f q hq loc).spare budget⟩

/-- A handling that goes on with the result of another. -/
theorem bind {e : Emission α} {k : α → Emission β} {Q' : β → (Text → Prop) → Prop} (he : Traces naming [] P Q e p)
    (hk : ∀ a q, e.exec p = (.ok a, q) → Traces naming budget (fun D => P D ∧ Q a D) Q' (k a) q) :
    Traces naming budget P Q' (e >>= k) p := by
  rcases hexec : e.exec p with ⟨r, q⟩
  cases r with
  | ok a =>
    have hfirst := he.ok a q hexec
    have hnext := hk a q hexec
    refine ⟨fun b q' h => ?_, fun f q' h loc => ?_⟩
    · rw [exec_bind_of_ok hexec] at h
      exact hfirst.trans (hnext.ok b q' h)
    · rw [exec_bind_of_ok hexec] at h
      exact hfirst.trans (hnext.error f q' h loc)
  | error f =>
    refine ⟨fun b q' h => ?_, fun f' q' h loc => ?_⟩
    · rw [exec_bind_of_error hexec] at h
      cases h
    · rw [exec_bind_of_error hexec] at h
      cases h
      exact (he.error f q hexec loc).spare budget

/-- An action on the state. -/
theorem act {act : Act α} (hsupply : p.2.supply ≤ (act.exec p.2).2.supply)
    (hscope : ∀ D, P D → p.2.scope.Within D → (act.exec p.2).2.scope.Within D ∧
      ∀ a, (act.exec p.2).1 = .ok a → Q a D) : Traces naming [] P Q (liftM act : Emission α) p := by
  have hexec := exec_monadLift act p
  cases hr : (act.exec p.2).1 with
  | ok a =>
    rw [hr] at hexec
    exact of_ok hexec (.state hsupply fun D hP hs => ⟨(hscope D hP hs).1, (hscope D hP hs).2 a hr⟩)
  | error f =>
    rw [hr] at hexec
    exact of_error hexec hsupply fun D hP hs => (hscope D hP hs).1

/-- A handling that goes on with the result of an action. -/
theorem act_bind {act : Act α} {k : α → Emission β} {Q' : β → (Text → Prop) → Prop}
    (hact : Traces naming [] P Q (liftM act : Emission α) p)
    (hk : ∀ a s', act.exec p.2 = (.ok a, s') → Traces naming budget (fun D => P D ∧ Q a D) Q' (k a) (p.1, s')) :
    Traces naming budget P Q' (liftM act >>= k) p := by
  refine hact.bind fun a q hq => ?_
  rw [exec_monadLift] at hq
  obtain ⟨ha, rfl⟩ := Prod.mk.inj hq
  exact hk a _ (Prod.ext ha rfl)

/-- An evaluation, and what it gives. -/
theorem evaluate {act : Act α} (hretells : State.Retells p.2 (act.exec p.2).2)
    (hQ : ∀ D, P D → p.2.scope.Within D → Act.Yields State.Retells (fun a _ => Q a D) act p.2) :
    Traces naming [] P Q (liftM act : Emission α) p :=
  .act (Nat.le_of_eq hretells.supply.symm) fun D hP hs => ⟨hretells.within D hs, (hQ D hP hs).2⟩

theorem retells {act : Act α} (h : Act.Yields State.Retells (fun _ _ => True) act p.2) :
    Traces naming [] P (fun _ _ => True) (liftM act : Emission α) p :=
  evaluate h.1 fun _ _ _ => h

theorem revalues {act : Act α} (h : Act.Yields (State.Revalues P) (fun _ _ => True) act p.2) :
    Traces naming [] P (fun _ _ => True) (liftM act : Emission α) p :=
  .act (Nat.le_of_eq h.1.supply.symm) fun D hP hs => ⟨h.1.within D hP hs, fun _ _ => trivial⟩

theorem scope : Traces naming [] P (fun scope D => scope.Within D) (liftM Act.scope : Emission Scope) p :=
  act (Nat.le_refl _) fun D _ hs => ⟨hs, fun a ha => by cases ha; exact hs⟩

/-- A handling that goes on with the scope. -/
theorem scope_bind {k : Scope → Emission β} {Q' : β → (Text → Prop) → Prop}
    (hk : Traces naming budget (fun D => P D ∧ p.2.scope.Within D) Q' (k p.2.scope) p) :
    Traces naming budget P Q' (liftM Act.scope >>= k) p := by
  refine act_bind .scope fun a s' h => ?_
  cases h
  exact hk

theorem setScope {scope : Scope} (h : ∀ D, P D → p.2.scope.Within D → scope.Within D) :
    Traces naming [] P (fun _ _ => True) (liftM (Act.setScope scope) : Emission PUnit) p :=
  act (Nat.le_refl _) fun D hP hs => ⟨h D hP hs, fun _ _ => trivial⟩

/-- The result of a computation. -/
theorem require_bind {x : Except Cause α} {k : α → Emission β} {Q' : β → (Text → Prop) → Prop}
    (hk : ∀ a, x = .ok a → Traces naming budget P Q' (k a) p) :
    Traces naming budget P Q' (Emission.require x >>= k) p := by
  cases x with
  | ok a => exact hk a rfl
  | error c => exact (raise c).spare budget

/-- The result of a computation, as an action. -/
theorem lift_bind {x : Except Cause α} {k : α → Emission β} {Q' : β → (Text → Prop) → Prop}
    (hk : ∀ a, x = .ok a → Traces naming budget P Q' (k a) p) :
    Traces naming budget P Q' (liftM (Act.lift x) >>= k) p := by
  cases x with
  | ok a => exact hk a rfl
  | error c => exact (raise c).spare budget

/-- An identity is handed out. -/
theorem fresh_bind {k : Nat → Emission β} {Q' : β → (Text → Prop) → Prop}
    (hk : Traces naming budget P Q' (k p.2.supply) (p.1, { p.2 with supply := p.2.supply + 1 })) :
    Traces naming budget P Q' (liftM Act.fresh >>= k) p := by
  have hfresh : Traces naming [] P (fun _ _ => True) (liftM Act.fresh : Emission Nat) p :=
    .act (Nat.le_succ _) fun D _ hs => ⟨hs, fun _ _ => trivial⟩
  refine hfresh.act_bind fun id s' h => ?_
  cases h
  exact hk.imp fun _ h => h.1

theorem warn (d : Diagnostic) : Traces naming [] P (fun _ _ => True) (Emission.warn d) p :=
  of_ok (exec_warn d p) (leads_message p.1 p.2 d)

/-- An item is emitted, unless the output is closed. -/
theorem emitItem {item : Item} (h : ∀ D, P D → item.token.Within D) :
    Traces naming item.token.places P (fun _ _ => True) (Emission.emitItem item) p := by
  refine of_ok (exec_emitItem item p) ?_
  cases hclosed : p.1.closed with
  | true =>
    rw [Output.push_of_closed hclosed]
    exact (Leads.refl (fun _ _ => trivial) _).spare _
  | false =>
    rw [Output.tokens_push hclosed]
    have hgive : Leads naming (Token.allPlaces [item.token]) P (fun _ => True) (p.1.tokens, p.2)
        (p.1.tokens ++ [item.token], p.2) := .give fun D hP => List.forall_mem_singleton.2 (h D hP)
    rwa [Token.allPlaces, Token.allPlaces, List.append_nil] at hgive

/-- Handlings for the elements of a list. -/
theorem forM {xs : List β} {step : β → Emission PUnit} (hstep : ∀ x q, Traces naming [] P (fun _ _ => True) (step x) q)
    (p : Output × State) : Traces naming [] P (fun _ _ => True) (xs.forM step) p := by
  induction xs generalizing p with
  | nil => exact .pure fun _ _ => trivial
  | cons x rest ih => exact (hstep x p).bind fun _ q _ => (ih q).imp fun _ h => h.1

theorem names (u : Surroundings) (names : List Expr) :
    Traces naming [] P (fun _ _ => True) (liftM (Eval.namesOf u names) : Emission (List Text)) p :=
  .retells (Eval.namesOf_yields (Eval.evaluates_retells u) names p.2)

theorem name (u : Surroundings) (name : Expr) :
    Traces naming [] P (fun _ _ => True) (liftM (Eval.nameOf u name) : Emission Text) p :=
  .retells (Eval.nameOf_yields (Eval.evaluates_retells u) name p.2)

end Traces

end Emission

open Emission (Traces)

section Bind

variable {P : (Text → Prop) → Prop} {p : Output × State} {w : Workbench}

namespace Declare

/-- A name becomes global. -/
theorem traces_globalName (loc : Location) {change : Symbol → Symbol}
    (hchange : ∀ sym, (change sym).value = sym.value ∧ (change sym).template = sym.template) (name : Text) :
    Traces naming [] P (fun _ _ => True) (globalName loc change name) p := by
  refine .scope_bind ?_
  cases hdeclare : p.2.scope.declareGlobal name with
  | error c => exact (Traces.warn _).bind fun _ q _ => .pure fun _ _ => trivial
  | ok scope =>
    refine (Traces.setScope fun D _ hs => ?_).bind fun _ q _ => .pure fun _ _ => trivial
    exact (hs.declareGlobal hdeclare).modifyRoot fun sym hsym => hsym.of_eq (hchange sym).1 (hchange sym).2

/-- Attributes are recorded. -/
theorem traces_attach (loc : Location) (attributes : Attributes) (name : Text) :
    Traces naming [] P (fun _ _ => True) (attach loc attributes name) p := by
  refine .scope_bind ((Traces.setScope fun D _ hs => ?_).bind fun _ q _ => ?_)
  · exact hs.modifyRoot fun sym hsym => hsym.of_eq rfl rfl
  · split
    · exact .pure fun _ _ => trivial
    · exact .warn _

/-- GLOBAL and EXTERN are carried out, and everything else is passed on. -/
theorem traces_declareGlobals (t : Token) :
    Traces w.assembler.naming t.places (fun D => P D ∧ t.Within D) (fun _ _ => True) (declareGlobals w t) p := by
  rw [declareGlobals.eq_def]
  split
  · refine (Traces.names w.around _).bind fun names q _ => .forM (fun name q => ?_) q
    refine (traces_globalName _ ?_ name).bind fun _ q _ => .pure fun _ _ => trivial
    exact fun _ => ⟨rfl, rfl⟩
  · refine (Traces.names w.around _).bind fun names q _ => .forM (fun name q => ?_) q
    refine (traces_globalName _ (fun _ => ⟨rfl, rfl⟩) name).bind fun made q _ => ?_
    split
    · exact traces_attach _ _ name
    · exact .pure fun _ _ => trivial
  · exact show Traces w.assembler.naming (Item.settled t).token.places _ _ _ p from .emitItem fun D hP => hP.2

end Declare

namespace Bind

/-- LOCAL. -/
theorem traces_declareLocals (loc : Location) (names : List Expr) :
    Traces naming [] P (fun _ _ => True) (declareLocals w loc names) p := by
  refine (Traces.names w.around names).bind fun names q _ => .forM (fun name q => .scope_bind ?_) q
  cases hdeclare : q.2.scope.declareLocal name with
  | error c => exact .warn _
  | ok scope =>
    refine .setScope fun D _ hs => (hs.declareLocal hdeclare).modifyTop fun f hf => ?_
    exact hf.modify fun sym _ hsym => hsym.of_eq rfl rfl

/-- The symbol of a name that is declared if it does not exist. -/
theorem symbolOr_revalues (name : Text) {declare : Scope → Except Cause Scope}
    (hdeclare : ∀ D s s', Scope.Within D s → declare s = .ok s' → s'.Within D) (s : State) :
    Act.Yields (State.Revalues P) (fun _ _ => True) (symbolOr name declare) s := by
  have hR := Eval.tracks_revalues P
  rw [symbolOr, Act.Yields, Act.exec_bind_of_ok (Act.exec_scope s)]
  refine ⟨?_, fun _ _ => trivial⟩
  cases s.scope.find? name with
  | some sym => exact hR.refl s
  | none =>
    dsimp only
    cases hscope : declare s.scope with
    | error c => exact hR.refl s
    | ok scope => exact ⟨rfl, fun D _ hs => hdeclare D _ _ hs hscope⟩

/-- A name is bound to a value. -/
theorem modify_revalues {name : Text} {value : Expr} {change : Symbol → Symbol} (hP : ∀ D, P D → value.Within D)
    (hchange : ∀ sym, (change sym).value = some value ∧ (change sym).template = sym.template) (s : State) :
    Act.Yields (State.Revalues P) (fun _ _ => True) (Act.modifyScope fun s => s.modify name change) s := by
  refine ⟨⟨rfl, fun D hD hs => ?_⟩, fun _ _ => trivial⟩
  exact hs.modify fun sym hsym => hsym.bind (hP D hD) (hchange sym).1 (hchange sym).2

/-- SET. -/
theorem traces_assign (loc : Location) (name : Expr) {value : Expr} (hP : ∀ D, P D → value.Within D) :
    Traces naming [] P (fun _ _ => True) (liftM (assign w loc name value) : Emission PUnit) p := by
  have hR := Eval.tracks_revalues P
  refine .revalues ?_
  refine (Eval.nameOf_yields (Eval.evaluates_revalues P w.around) name p.2).bind hR.trans fun name s _ _ => ?_
  refine (symbolOr_revalues name (fun D s s' hs => hs.declareLocal) s).bind hR.trans fun sym s _ _ => ?_
  split
  · exact .report (hR.refl s) _
  · refine modify_revalues hP ?_ s
    exact fun _ => ⟨rfl, rfl⟩

/-- EQU. -/
theorem traces_equate (loc : Location) (name : Expr) {value : Expr} (hP : ∀ D, P D → value.Within D) :
    Traces naming [] P (fun _ _ => True) (liftM (equate w loc name value) : Emission PUnit) p := by
  have hR := Eval.tracks_revalues P
  refine .revalues ?_
  refine (Eval.nameOf_yields (Eval.evaluates_revalues P w.around) name p.2).bind hR.trans fun name s _ _ => ?_
  refine (symbolOr_revalues name (fun D s s' hs => hs.declareGlobal) s).bind hR.trans fun sym s _ _ => ?_
  split
  · exact .report (hR.refl s) _
  · refine modify_revalues hP ?_ s
    exact fun _ => ⟨rfl, rfl⟩

/-- DEFINE. -/
theorem traces_define (loc : Location) (name : Expr) {value : Expr} (hP : ∀ D, P D → value.Within D) :
    Traces naming [] P (fun _ _ => True) (liftM (define w loc name value) : Emission PUnit) p := by
  have hR := Eval.tracks_revalues P
  refine .revalues ?_
  refine (Eval.nameOf_yields (Eval.evaluates_revalues P w.around) name p.2).bind hR.trans fun name s _ _ => ?_
  refine ⟨?_, fun _ _ => trivial⟩
  rw [Act.exec_bind_of_ok (Act.exec_scope s)]
  split
  · exact hR.refl s
  · cases hdeclare : s.scope.declareGlobal name with
    | error c => exact hR.refl s
    | ok scope =>
      refine ⟨rfl, fun D hD hs => (hs.declareGlobal hdeclare).modify fun sym hsym => ?_⟩
      exact hsym.bind (hP D hD) rfl rfl

/-- RADIX. -/
theorem traces_setRadix (loc : Location) (value : Expr) :
    Traces naming [] P (fun _ _ => True) (liftM (setRadix loc value) : Emission PUnit) p := by
  have hR := Eval.tracks_revalues P
  have hset : ∀ radix : Int64, Act.Yields (State.Revalues P) (fun _ _ => True)
      (do Act.setScope (← Act.lift ((← Act.scope).setRadix radix loc))) p.2 := by
    intro radix
    refine ⟨?_, fun _ _ => trivial⟩
    rw [Act.exec_bind_of_ok (Act.exec_scope p.2), Scope.setRadix]
    split
    · exact hR.refl p.2
    · refine ⟨rfl, fun D _ hs => hs.modify fun sym hsym => ?_⟩
      exact hsym.bind (Expr.within_of_references_eq_nil rfl) rfl rfl
  refine .revalues ?_
  rw [setRadix.eq_def]
  split
  · exact hset _
  · exact hset 0
  · exact .report (hR.refl p.2) _

/-- UNDEF and PMACRO. -/
theorem traces_retract (loc : Location) (what : Retraction) (names : List Expr) :
    Traces naming [] P (fun _ _ => True) (retract w loc what names) p := by
  refine (Traces.names w.around names).bind fun names q _ => .forM (fun name q => .scope_bind ?_) q
  split
  · exact .setScope fun D _ hs => hs.remove name
  · exact .warn _

/-- MACRO. -/
theorem traces_defineMacro (loc : Location) (name : Expr) (parameters : List Expr) {body : List Token}
    (hP : ∀ D, P D → ∀ t ∈ body, t.isOriginal = true) :
    Traces naming [] P (fun _ _ => True) (defineMacro w loc name parameters body) p := by
  refine (Traces.name w.around name).bind fun name q _ => ?_
  refine (Traces.names w.around parameters).bind fun parameters q _ => .scope_bind (.lift_bind fun scope hscope => ?_)
  refine (Traces.setScope fun D _ hs => hs.declareLocal hscope).bind fun _ q _ => ?_
  dsimp only
  split
  · exact .warn _
  · refine .fresh_bind (.act (Nat.le_refl _) fun D hD hs => ⟨?_, fun _ _ => trivial⟩)
    refine hs.modifyTop fun f hf => hf.modify fun sym _ hsym => ⟨fun v hv => ?_, fun m hm => ?_⟩
    · cases hv
    · cases hm
      exact hP D hD.1.1.1.1

/-- A label is bound to a new identity, and its place is emitted. -/
theorem traces_label (hp : p.1.closed = false) (loc : Location) (name : Expr) :
    Traces w.assembler.naming [] P (fun _ _ => True) (label w loc name) p := by
  refine .act_bind (.name w.around name) fun name s _ => ?_
  refine .act_bind (.revalues (symbolOr_revalues name (fun D s s' hs => hs.declareLocal) s)) fun sym s _ => ?_
  split
  · exact .report _
  · let change (sym : Symbol) : Symbol :=
      { sym with value := some (.fragment loc (w.assembler.naming.name s.supply) name), loc, frozen := true }
    refine .of_ok (q := (p.1.push (.settled (.fragment loc (w.assembler.naming.name s.supply) name)),
      { s with scope := s.scope.modify name change, supply := s.supply + 1 })) rfl ?_
    dsimp only
    rw [Output.tokens_push hp]
    refine ⟨fun t ht => List.mem_append_left _ ht, Nat.le_succ _, fun _ _ id => ?_, fun D _ hc => ?_⟩
    · have hminted : minted w.assembler.naming s.supply (s.supply + 1) = [w.assembler.naming.name s.supply] := by
        rw [minted, Nat.add_sub_cancel_left]
        rfl
      rw [Token.allPlaces_append, List.count_append]
      exact Nat.le_of_eq (congrArg (_ + List.count id ·) hminted.symm)
    · -- the label is placed, so it has the property or tells that not all labels do
      by_cases hid : D (w.assembler.naming.name s.supply)
      · refine Or.inr ⟨⟨fun t ht => ?_, ?_⟩, trivial⟩
        · rcases List.mem_append.1 ht with ht | ht
          · exact hc.tokens t ht
          · rw [List.mem_singleton.1 ht]
            exact Token.within_of_references_eq_nil rfl rfl
        · have hvalue : (Expr.fragment loc (w.assembler.naming.name s.supply) name).Within D :=
            List.forall_mem_singleton.2 hid
          exact hc.scope.modify fun sym hsym => hsym.bind hvalue rfl rfl
      · refine Or.inl ⟨_, hid, Or.inl ?_⟩
        rw [Token.allPlaces_append]
        exact List.mem_append_right _ List.mem_cons_self

end Bind

end Bind

end MacroAsm
