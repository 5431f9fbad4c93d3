import MacroAsm.Proofs.Assembly.Entry
import MacroAsm.Proofs.Assembly.Hygiene
import MacroAsm.Proofs.Assembly.Nesting
import MacroAsm.Proofs.Scope.Echo

/-!
# Nested blocks of data

A block that is made of data asks for names and binds none. While it is assembled, names stand for the same with its
frame and without it, but for those that were bound in the frame when the block began (`Scope.Shows`), as the parameters
of a macro are (`Scope.Shows.bindAll`). What it asked for in vain moves out when it is accounted for
(`Scope.Shows.account`). So the names of the block around stand for the same after it, frame by frame, and nothing comes
out of it but data, what data is encoded to, and diagnostics (`Workbench.run_inert`).
-/

namespace MacroAsm

/-- The names that a block has of its own when parameters are bound to arguments, one after the other. -/
def Expand.ownOf : List Text → List Expr → (Text → Option Expr) → Text → Option Expr
  | p :: ps, e :: es, own => ownOf ps es (Function.update own p (some e))
  | _, _, own => own

/-- What moves to the block around stands for nothing. -/
theorem Symbol.isSet_of_hoisted {sym : Symbol} {nested : Bool} {name : Text}
    (h : sym.verdict nested name = .hoisted) : sym.isSet = false := by
  rw [verdict] at h
  cases hset : sym.isSet with
  | false => rfl
  | true =>
    rw [hset] at h
    cases hused : sym.used <;> rw [hused] at h <;> cases h

namespace Scope

/-- What names stand for in a block that binds some of its own over others. -/
def shadow (own : Text → Option Expr) (b : Text → Binding) : Text → Binding :=
  fun name => ((own name).map fun e => ⟨some e, false⟩).getD (b name)

theorem shadow_of_some {own : Text → Option Expr} {name : Text} {e : Expr} (h : own name = some e)
    (b : Text → Binding) : shadow own b name = ⟨some e, false⟩ := by
  rw [shadow, h]
  rfl

theorem shadow_of_none {own : Text → Option Expr} {name : Text} (h : own name = none) (b : Text → Binding) :
    shadow own b name = b name := by
  rw [shadow, h]
  rfl

theorem isSet_shadow {b : Text → Binding} {name : Text} (h : (b name).isSet = true) (own : Text → Option Expr) :
    (shadow own b name).isSet = true := by
  cases hown : own name with
  | none => rwa [shadow_of_none hown]
  | some e =>
    rw [shadow_of_some hown]
    rfl

/-- Names stand in `s` for what they stand for in `o`, but for those that `own` binds in the innermost frame of `s`:
below it nothing was bound, and what else is declared in it stands for nothing. -/
structure Shows (own : Text → Option Expr) (s o : Scope) : Prop where
  /-- There is a frame. -/
  nested : s.inner ≠ []
  /-- Nothing was bound below it. -/
  around : o.Echoes s.unnest
  /-- It binds each name once. -/
  nodup : s.top.names.Nodup
  /-- What is bound in it. -/
  bound : ∀ name e, own name = some e → s.top.binding? name = some ⟨some e, false⟩
  /-- What else is declared in it stands for nothing. -/
  absent : ∀ name sym, own name = none → s.top.find? name = some sym →
    sym.binding = Binding.unset ∧ o.binding name = Binding.unset

variable {own : Text → Option Expr} {s s' o : Scope}

/-- A new frame shows what names stand for. -/
theorem shows_nest (s : Scope) : s.nest.Shows (fun _ => none) s where
  nested := List.cons_ne_nil _ _
  around := .refl s
  nodup := List.nodup_nil
  bound name e h := by cases h
  absent name sym _ h := by cases h

/-- What is found in a scope with a frame on top. -/
theorem find?_of_nested (hs : s.inner ≠ []) (name : Text) :
    s.find? name = (s.top.find? name).orElse fun _ => s.unnest.find? name := by
  rw [find?_eq, find?_eq, unnest, top]
  cases hinner : s.inner with
  | nil => exact absurd hinner hs
  | cons f rest =>
    rw [findIn, List.headD_cons, List.tail_cons]
    cases f.find? name <;> rfl

/-- What names stand for with the innermost frame. -/
theorem Shows.binding (h : s.Shows own o) : s.binding = shadow own o.binding := by
  funext name
  rw [Scope.binding, find?_of_nested h.nested]
  cases hown : own name with
  | some e =>
    obtain ⟨sym, hsym, hbinding⟩ := Frame.exists_of_binding? (h.bound name e hown)
    rw [shadow_of_some hown, hsym]
    exact hbinding
  | none =>
    rw [shadow_of_none hown]
    cases hfind : s.top.find? name with
    | none =>
      rw [← h.around.binding_eq]
      rfl
    | some sym =>
      obtain ⟨hunset, hname⟩ := h.absent name sym hown hfind
      rw [hname]
      exact hunset

/-- Changing a symbol changes the innermost frame if it is there, and the frames below otherwise. -/
theorem modify_of_nested (hs : s.inner ≠ []) (name : Text) (g : Symbol → Symbol) :
    s.modify name g = if s.top.contains name then s.modifyTop fun f => f.modify name g
      else { s.unnest.modify name g with inner := s.top :: (s.unnest.modify name g).inner } := by
  obtain ⟨root, inner⟩ := s
  cases inner with
  | nil => exact absurd rfl hs
  | cons f rest =>
    simp only [modify, modifyFrameOf, unnest, top, modifyTop, modifyOwner, List.headD_cons, List.tail_cons]
    by_cases hf : f.contains name
    · simp only [hf, if_true]
    · simp only [hf, if_false, Bool.false_eq_true]
      by_cases hfound : (modifyOwner name (fun f => f.modify name g) rest).2
      · simp only [hfound, if_true]
      · by_cases hroot : root.contains name <;> simp [hfound, hroot]

/-- A change that keeps what a symbol stands for. -/
theorem Shows.modify (h : s.Shows own o) (name : Text) {g : Symbol → Symbol}
    (hg : ∀ sym, (g sym).binding = sym.binding) : (s.modify name g).Shows own o := by
  rw [modify_of_nested h.nested]
  obtain ⟨root, inner⟩ := s
  cases inner with
  | nil => exact absurd rfl h.nested
  | cons f rest =>
    split
    · refine ⟨List.cons_ne_nil _ _, h.around, Frame.nodup_modify h.nodup name g, fun other e hother => ?_,
        fun other sym hother hfind => ?_⟩
      · exact (Frame.binding?_modify hg f name other).trans (h.bound other e hother)
      · -- the symbol stands for what the one that it was made of stood for
        have hsame : f.binding? other = some sym.binding :=
          (Frame.binding?_modify hg f name other).symm.trans (Frame.binding?_of_find? hfind)
        obtain ⟨sym', hfind', hbinding⟩ := Frame.exists_of_binding? hsame
        rw [← hbinding]
        exact h.absent other sym' hother hfind'
    · exact ⟨List.cons_ne_nil _ _, h.around.modify name hg, h.nodup, h.bound, h.absent⟩

/-- A name that is not found is declared ahead. -/
theorem Shows.declare (h : s.Shows own o) {name : Text} (hfind : s.find? name = none) :
    (s.modifyTop fun f => f.insert name {}).Shows own o := by
  have hunset : shadow own o.binding name = Binding.unset := by
    rw [← h.binding, Scope.binding, hfind]
    rfl
  -- a name that the block binds is found
  have hown : own name = none := by
    cases hown : own name with
    | none => rfl
    | some e =>
      rw [shadow_of_some hown] at hunset
      cases hunset
  rw [shadow_of_none hown] at hunset
  obtain ⟨root, inner⟩ := s
  cases inner with
  | nil => exact absurd rfl h.nested
  | cons f rest =>
    refine ⟨List.cons_ne_nil _ _, h.around, Frame.nodup_insert h.nodup name {}, fun other e hother => ?_,
      fun other sym hother hfind => ?_⟩
    · have hne : other ≠ name := by
        rintro rfl
        rw [hown] at hother
        cases hother
      rw [modifyTop, top, List.headD_cons, Frame.binding?, Frame.find?_insert, if_neg hne]
      exact h.bound other e hother
    · rw [modifyTop, top, List.headD_cons, Frame.find?_insert] at hfind
      split at hfind
      · rename_i heq
        cases hfind
        rw [heq]
        exact ⟨rfl, hunset⟩
      · exact h.absent other sym hother hfind

/-- A name that is declared in the innermost frame moves to the frame below, if it is not bound there. -/
theorem Shows.hoist (h : s.Shows own o) {name : Text} (hown : own name = none) : (s.hoist name).1.Shows own o := by
  obtain ⟨root, inner⟩ := s
  rw [Scope.hoist.eq_def]
  split
  · rename_i f below rest hinner
    subst hinner
    split
    · exact h
    · rename_i sym hsym
      obtain ⟨hunset, hname⟩ := h.absent name sym hown hsym
      refine ⟨List.cons_ne_nil _ _, ?_, Frame.nodup_erase h.nodup name, fun other e hother => ?_,
        fun other sym' hother hfind => ?_⟩
      · -- the frame below has an unset symbol of that name, or gets one
        refine h.around.modifyTop (g := fun below => if below.contains name then below.modify name (absorb · sym)
          else below.insert name sym) ?_
        rw [unnest, top, List.tail_cons, List.headD_cons]
        split
        · exact Frame.echoes_of_binding? (Frame.binding?_modify (g := (absorb · sym)) (fun _ => rfl) below name)
        · rename_i hbelow
          exact (Frame.Echoes.refl o.binding below).insert (by simpa [Frame.contains] using hbelow) hunset hname
      · have hne : other ≠ name := by
          rintro rfl
          rw [hown] at hother
          cases hother
        rw [top, List.headD_cons, Frame.binding?, Frame.find?_erase_of_ne hne]
        exact h.bound other e hother
      · have hnodup : f.names.Nodup := h.nodup
        rw [top, List.headD_cons, Frame.find?_erase hnodup] at hfind
        split at hfind
        · cases hfind
        · exact h.absent other sym' hother hfind
  · exact h

/-- When the names of the innermost frame are accounted for, those of them that wait move to the frame below. -/
theorem Shows.account (h : s.Shows own o) (nested : Bool) : (s.account nested).1.Shows own o := by
  -- what is bound in the frame does not wait
  have hown : ∀ entry ∈ s.bindings, entry.2.isSet = false → own entry.1 = none := by
    intro entry hentry hunset
    have hfind : s.top.find? entry.1 = some entry.2 :=
      Frame.find?_of_mem_entries h.nodup (List.mem_filter.1 hentry).1
    cases hown : own entry.1 with
    | none => rfl
    | some e =>
      have hbound := h.bound entry.1 e hown
      rw [Frame.binding?_of_find? hfind, Option.some.injEq, Symbol.binding_of_unset hunset] at hbound
      cases hbound
  rw [Scope.account]
  generalize s.bindings = entries at hown
  induction entries generalizing s with
  | nil => exact h
  | cons entry rest ih =>
    obtain ⟨name, sym⟩ := entry
    rw [List.forall_mem_cons] at hown
    rw [accountFor]
    cases hverdict : sym.verdict nested name with
    | settled => exact ih h hown.2
    | hoisted => exact ih (h.hoist (hown.1 (Symbol.isSet_of_hoisted hverdict))) hown.2
    | reported d => exact ih h hown.2

/-- A name that is bound in the innermost frame is one of its own. -/
theorem Shows.bindIn (h : s.Shows own o) {name : Text} {value : Expr} {loc : Location}
    (hbind : Expand.bindIn s name value loc = .ok s') : s'.Shows (Function.update own name (some value)) o := by
  obtain ⟨root, inner⟩ := s
  cases inner with
  | nil => exact absurd rfl h.nested
  | cons f rest =>
    rw [Expand.bindIn] at hbind
    obtain ⟨t, hdeclare, hpure⟩ := Except.bind_eq_ok_iff.1 hbind
    -- the frame holds the name before it is bound, and the name is no macro
    obtain ⟨g, sym, rfl, hnodup, hsym, hmacro, hothers⟩ : ∃ g sym, t = ⟨root, g :: rest⟩ ∧ g.names.Nodup ∧
        g.find? name = some sym ∧ sym.isMacro = false ∧ ∀ other, other ≠ name → g.find? other = f.find? other := by
      rw [declareLocal] at hdeclare
      split at hdeclare
      · cases hdeclare
      · split at hdeclare
        · rename_i hcontains
          cases hdeclare
          obtain ⟨sym, hsym⟩ := Option.isSome_iff_exists.1 hcontains
          refine ⟨f, sym, rfl, h.nodup, hsym, ?_, fun _ _ => rfl⟩
          cases hown : own name with
          | none => exact congrArg Binding.isMacro (h.absent name sym hown hsym).1
          | some e =>
            have hbound := h.bound name e hown
            rw [Frame.binding?_of_find? hsym, Option.some.injEq] at hbound
            exact congrArg Binding.isMacro hbound
        · cases hdeclare
          refine ⟨f.insert name {}, {}, rfl, Frame.nodup_insert h.nodup name {}, ?_, rfl, fun other hother => ?_⟩
          · rw [Frame.find?_insert, if_pos rfl]
          · rw [Frame.find?_insert, if_neg hother]
    cases hpure
    refine ⟨List.cons_ne_nil _ _, h.around, Frame.nodup_modify hnodup name _, fun other e hother => ?_,
      fun other sym' hother hfind => ?_⟩
    · rw [modifyTop, top, List.headD_cons, Frame.binding?, Frame.find?_modify]
      by_cases heq : other = name
      · subst heq
        rw [Function.update_self, Option.some.injEq] at hother
        rw [if_pos rfl, hsym, ← hother, ← hmacro]
        rfl
      · rw [Function.update_of_ne heq] at hother
        rw [if_neg heq, hothers other heq]
        exact h.bound other e hother
    · have hne : other ≠ name := by
        rintro rfl
        rw [Function.update_self] at hother
        cases hother
      rw [Function.update_of_ne hne] at hother
      rw [modifyTop, top, List.headD_cons, Frame.find?_modify, if_neg hne, hothers other hne] at hfind
      exact h.absent other sym' hother hfind

/-- So are parameters. -/
theorem Shows.bindAll (h : s.Shows own o) {loc : Location} {ps : List Text} {es : List Expr}
    (hbind : Expand.bindAll loc ps es s = .ok s') : s'.Shows (Expand.ownOf ps es own) o := by
  induction ps generalizing es s own with
  | nil =>
    cases hbind
    exact h
  | cons p ps ih =>
    cases es with
    | nil =>
      cases hbind
      exact h
    | cons e es =>
      rw [Expand.bindAll] at hbind
      obtain ⟨t, hfirst, hrest⟩ := Except.bind_eq_ok_iff.1 hbind
      exact ih (h.bindIn hfirst) hrest

end Scope

namespace State

/-- One state leads to another over a block that binds nothing. -/
def KeepsShown (s s' : State) : Prop := ∀ own o, s.scope.Shows own o → s'.scope.Shows own o

theorem keepsShown_of_eq {s s' : State} (h : s'.scope = s.scope) : s.KeepsShown s' := by
  intro own o ho
  rwa [h]

theorem progress_keepsShown : Progress KeepsShown where
  refl _ _ _ h := h
  trans _ _ _ hxy hyz own o ho := hyz own o (hxy own o ho)

end State

namespace Eval

/-- A preorder of states that contains all that evaluation does, and whatever leaves the scope as it is. -/
structure Covers (R : State → State → Prop) : Prop extends Tracks R fun _ _ => True where
  /-- The scope is left as it is. -/
  same : ∀ s s' : State, s'.scope = s.scope → R s s'

theorem Covers.evaluates {R : State → State → Prop} (hR : Covers R) (u : Surroundings) :
    Evaluates u R fun _ _ => True :=
  hR.toTracks.evaluates fun _ _ _ _ _ _ => trivial

/-- Evaluation binds nothing. -/
theorem covers_keepsShown : Covers State.KeepsShown where
  toProgress := State.progress_keepsShown
  known _ _ _ _ _ := trivial
  request loc name s := by
    refine ⟨fun own o ho => ?_, trivial⟩
    rw [request, Act.exec_bind_of_ok (Act.exec_scope s)]
    cases hfind : s.scope.find? name with
    | some sym => exact ho.modify name fun _ => rfl
    | none =>
      simp only [Scope.declareLocal_of_find?_eq_none hfind]
      exact (ho.declare hfind).modify name fun _ => rfl
  deferred _ := State.keepsShown_of_eq rfl
  same _ _ := State.keepsShown_of_eq

end Eval

/-- Whether a token is data, what data is encoded to, or a diagnostic. -/
def Token.isInert : Token → Bool
  | .data .. | .bytes .. | .message _ => true
  | _ => false

namespace Pass

/-- What is known of the items of a block of data. -/
def Inert (_ : State) (item : Item) : Prop := item.token.isInert = true

variable {R : State → State → Prop} {inMacro : Bool} {w : Workbench}

/-- A step that handles data, what it is encoded to and diagnostics, while the state leads on. -/
def MapsInert (R : State → State → Prop) (inMacro : Bool) (pass : Pass) : Prop :=
  pass.Maps R inMacro Inert Inert

variable (hR : Eval.Covers R)
include hR

private theorem invariant_inert : Emission.Invariant R (Emission.Collects Inert) :=
  Emission.invariant_collects hR.toProgress fun _ _ _ _ h => h

/-- A step keeps data, what it is encoded to and diagnostics if it does so without a mistake. -/
theorem mapsInert_of_yields {pass : Pass} (h : ∀ item p, item.token.isInert = true → Emission.Collects Inert p →
      Emission.Yields R (Emission.Collects Inert) (fun _ _ => True) (pass item) p) :
    pass.MapsInert R inMacro := by
  refine maps_of_collects hR.toProgress (fun _ _ _ _ h => h) (fun _ item hitem => ?_) h
  obtain ⟨token, pending⟩ := item
  cases token with
  | message d => rfl
  | _ => cases hitem

/-- A step that passes on what it is given. -/
theorem mapsInert_of_emitItem {pass : Pass}
    (h : ∀ item, item.token.isInert = true → ∃ i : Item, pass item = Emission.emitItem i ∧ i.token = item.token) :
    pass.MapsInert R inMacro := by
  refine mapsInert_of_yields hR fun item p hitem hp => ?_
  obtain ⟨i, hpass, hi⟩ := h item hitem
  rw [hpass]
  refine hp.emitItem (invariant_inert hR) ?_
  rwa [Inert, hi]

/-- Evaluating such a token leaves one. -/
theorem reduce_inert (u : Surroundings) {t : Token} (ht : t.isInert = true) (s : State) :
    Act.Yields R (fun t' _ => t'.isInert = true) (Token.reduce u t) s := by
  cases t with
  | data loc kind values =>
    rw [Token.reduce]
    refine (Eval.evaluateAll_yields (hR.evaluates u) true values s).bind hR.trans fun vs s1 _ _ => ?_
    exact .pure (hR.refl s1) rfl
  | bytes | message =>
    rw [Token.reduce]
    · exact .pure (hR.refl s) ht
    all_goals simp
  | _ => cases ht

/-- The first evaluation. -/
theorem mapsInert_reduceFirst (w : Workbench) : (reduceFirst w).MapsInert R inMacro := by
  refine mapsInert_of_yields hR fun item p hitem hp => ?_
  rw [reduceFirst]
  refine Emission.yields_getThe ?_
  refine (Emission.Yields.act (invariant_inert hR) hp (reduce_inert hR w.around hitem p.2)).bind
    (invariant_inert hR) fun t q _ hq ht => ?_
  exact Emission.yields_getThe (hq.emitItem (invariant_inert hR) ht)

/-- The second evaluation. -/
theorem mapsInert_reduceAgain (w : Workbench) : (reduceAgain w).MapsInert R inMacro := by
  refine mapsInert_of_yields hR fun item p hitem hp => ?_
  rw [reduceAgain]
  split
  · refine (Emission.Yields.act (invariant_inert hR) hp (reduce_inert hR w.around hitem p.2)).bind
      (invariant_inert hR) fun t q _ hq ht => ?_
    exact hq.emitItem (invariant_inert hR) ht
  · exact hp.emitItem (invariant_inert hR) hitem

/-- Nothing of it binds or is expanded. -/
theorem mapsInert_localize (w : Workbench) : (localize w).MapsInert R inMacro := by
  refine mapsInert_of_emitItem hR fun item hitem => ⟨item, ?_, rfl⟩
  obtain ⟨token, pending⟩ := item
  cases token with
  | data | bytes | message => rfl
  | _ => cases hitem

/-- Nothing of it is left to be expanded. -/
theorem mapsInert_expandRest (w : Workbench) : (expandRest w).MapsInert R inMacro := by
  refine mapsInert_of_emitItem hR fun item hitem => ⟨item, ?_, rfl⟩
  obtain ⟨token, pending⟩ := item
  cases token with
  | data | bytes | message => rfl
  | _ => cases hitem

/-- It declares no global names. -/
theorem mapsInert_declareGlobals (w : Workbench) : (ofToken (Declare.declareGlobals w)).MapsInert R inMacro := by
  refine mapsInert_of_emitItem hR fun item hitem => ⟨.settled item.token, ?_, rfl⟩
  obtain ⟨token, pending⟩ := item
  cases token with
  | data | bytes | message => rfl
  | _ => cases hitem

/-- No jump is among it. -/
theorem mapsInert_relax : (ofToken Finish.relax).MapsInert R inMacro := by
  refine mapsInert_of_yields hR fun item p hitem hp => ?_
  have hexec : (ofToken Finish.relax item).exec p =
      (.ok ⟨⟩, (p.1.push (.settled item.token), { p.2 with bankSwitched := false })) := by
    obtain ⟨token, pending⟩ := item
    cases token with
    | data | bytes | message => rfl
    | _ => cases hitem
  have hpushed : Emission.Collects Inert (p.1.push (.settled item.token), { p.2 with bankSwitched := false }) :=
    Emission.Collects.push (p := (p.1, { p.2 with bankSwitched := false })) hp hitem
  refine ⟨?_, ?_, fun _ _ => trivial⟩
  · rw [hexec]
    exact hR.same p.2 _ rfl
  · rw [hexec]
    exact hpushed

/-- No instruction is among it. -/
theorem mapsInert_encode (w : Workbench) : (ofToken (Finish.encode w)).MapsInert R inMacro := by
  refine mapsInert_of_emitItem hR fun item hitem => ⟨.settled item.token, ?_, rfl⟩
  obtain ⟨token, pending⟩ := item
  cases token with
  | data | bytes | message => rfl
  | _ => cases hitem

omit hR in
/-- Encoded data consists of data, bytes and diagnostics. -/
theorem isInert_of_data {kind : DataKind} {values : List Expr} {ts : List Token}
    (h : Encode.data kind values = .ok ts) : ∀ t ∈ ts, t.isInert = true := by
  intro t ht
  rcases Encode.data_cases h ht with ⟨loc, text, rfl⟩ | ⟨loc, written, rfl⟩ | ⟨loc, group, rfl, -⟩
  · rfl
  · rfl
  · rfl

/-- Data is encoded. -/
theorem mapsInert_complete (w : Workbench) : (ofToken (Finish.complete w)).MapsInert R inMacro := by
  refine mapsInert_of_yields hR fun item p hitem hp => ?_
  obtain ⟨token, pending⟩ := item
  cases token with
  | data loc kind values =>
    rw [ofToken, Finish.complete]
    cases hdata : Encode.data kind values with
    | ok ts => exact hp.emitAll (invariant_inert hR) (isInert_of_data hdata)
    | error d => exact .report (invariant_inert hR) hp d
  | bytes | message => exact hp.emitItem (invariant_inert hR) rfl
  | _ => cases hitem

end Pass

namespace Workbench

section Stages

variable {R : State → State → Prop} {inMacro : Bool} {passes : List Pass} {last : Pass} (hR : Eval.Covers R)

/-- A stage whose steps handle data. -/
private theorem mapsInert_chain (hpasses : ∀ pass ∈ passes, pass.MapsInert R inMacro)
    (hlast : last.MapsInert R inMacro) : Stage.Chain R inMacro Pass.Inert passes last Pass.Inert := by
  induction passes with
  | nil => exact .last hlast
  | cons pass rest ih =>
    rw [List.forall_mem_cons] at hpasses
    exact .step hpasses.1 (fun _ _ _ _ h => h) (ih hpasses.2)

include hR

/-- A stage of a block of data does to the state what evaluation does. -/
private theorem mapsInert_stage (hpasses : ∀ pass ∈ passes, pass.MapsInert R inMacro)
    (hlast : last.MapsInert R inMacro) {items : List Item}
    (hitems : ∀ item ∈ items, item.token.isInert = true) (s : State) :
    R s ((Stage.run inMacro passes last (Stage.messagesFirst items)).run s).2 ∧
      ∀ item ∈ ((Stage.run inMacro passes last (Stage.messagesFirst items)).run s).1.items,
        item.token.isInert = true :=
  Stage.run_maps hR.toProgress (fun _ _ _ _ h => h) (fun _ _ _ _ h => h) (mapsInert_chain hpasses hlast)
    fun item hitem => hitems item (Stage.mem_messagesFirst.1 hitem)

/-- The third stage of a block of data does to the state what evaluation does. -/
theorem mapsInert_finishStage (w : Workbench) {items : List Item}
    (hitems : ∀ item ∈ items, item.token.isInert = true) (s : State) :
    R s ((w.finishStage items).run s).2 ∧
      ∀ item ∈ ((w.finishStage items).run s).1.items, item.token.isInert = true := by
  have hpasses : ∀ pass ∈ ([.reduceAgain w, .localize w, .expandRest w, .ofToken Finish.relax,
      .ofToken (Finish.encode w)] : List Pass), pass.MapsInert R w.block.inMacro := by
    simp only [List.forall_mem_cons, Pass.mapsInert_reduceAgain hR, Pass.mapsInert_localize hR,
      Pass.mapsInert_expandRest hR, Pass.mapsInert_relax hR, Pass.mapsInert_encode hR, List.not_mem_nil, true_and,
      false_imp_iff, implies_true]
  exact mapsInert_stage hR hpasses (Pass.mapsInert_complete hR w) hitems s

end Stages

/-- A block of data binds nothing, and its output is data, what data is encoded to, and diagnostics. -/
theorem run_inert (w : Workbench) {source : List Token} (hsource : ∀ t ∈ source, t.isInert = true) (s : State) :
    s.KeepsShown ((w.run source).run s).2 ∧
      ∀ item ∈ ((w.run source).run s).1.items, item.token.isInert = true := by
  have hR := Eval.covers_keepsShown
  have hstart : ∀ item ∈ source.map Item.settled, item.token.isInert = true := by
    intro item hitem
    obtain ⟨t, ht, rfl⟩ := List.mem_map.1 hitem
    exact hsource t ht
  rcases hdeclare : (w.declareStage source).run s with ⟨t1, s1⟩
  rcases hbind : (w.bindStage t1.items).run s1 with ⟨t2, s2⟩
  rw [run, StateM.run_bind, hdeclare, StateM.run_bind, hbind]
  have hdeclared : s.KeepsShown ((w.declareStage source).run s).2 ∧
      ∀ item ∈ ((w.declareStage source).run s).1.items, item.token.isInert = true :=
    Stage.run_maps hR.toProgress (fun _ _ _ _ h => h) (fun _ _ _ _ h => h)
      (.last (Pass.mapsInert_declareGlobals hR w)) hstart
  rw [hdeclare] at hdeclared
  have hbound : s1.KeepsShown ((w.bindStage t1.items).run s1).2 ∧
      ∀ item ∈ ((w.bindStage t1.items).run s1).1.items, item.token.isInert = true :=
    mapsInert_stage hR (List.forall_mem_singleton.2 (Pass.mapsInert_reduceFirst hR w))
      (Pass.mapsInert_localize hR w) hdeclared.2 s1
  rw [hbind] at hbound
  obtain ⟨hshown, hinert⟩ := mapsInert_finishStage hR w hbound.2 s2
  exact ⟨fun own o ho => hshown own o (hbound.1 own o (hdeclared.1 own o ho)), hinert⟩

end Workbench

end MacroAsm
