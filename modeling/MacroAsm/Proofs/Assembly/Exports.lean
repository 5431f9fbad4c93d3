import MacroAsm.Proofs.Assembly.DataBlock
import MacroAsm.Proofs.Assembly.Program
import MacroAsm.Proofs.Assembly.Reordering
import MacroAsm.Proofs.Eval.Marking

/-!
# Exported names

A program exports the global names of the root scope that stand for something in the end. EQU makes a name global
that no frame holds. An expression that asks for such a name before declares it ahead in the frame of the unit,
and there EQU binds it then, so that the name is not exported. A definition exports its name if and only if the
unit does not hold it by then (`Assembler.mem_exports_assemble`).

So what is exported depends on the order of statements. Two orders export the same names exactly if they agree on
the definitions that come too late (`Assembler.exports_reordered`). No definition does that stands ahead of everything
that asks for its name (`Assembler.exports_of_unasked`), so that the names are the same in two orders in which all of
them do (`Assembler.exports_eq_of_definesAhead`).
-/

namespace MacroAsm

/-- Two parts of a relation by which each thing belongs to one other reach the same from the same, apart from what
is reached anyway. -/
theorem exists_congr_of_biUnique {α β : Type} {F E E' : α → β → Prop} {P : β → Prop}
    (hF : Relator.BiUnique F) (hE : ∀ x y, E x y → F x y ∧ ¬ P y) (hE' : ∀ x y, E' x y → F x y ∧ ¬ P y) :
    (∀ y, (P y ∨ ∃ x, E x y) ↔ P y ∨ ∃ x, E' x y) ↔ ∀ x, (∃ y, E x y) ↔ ∃ y, E' x y := by
  -- one direction, from one part to the other
  have hone : ∀ {E E' : α → β → Prop}, (∀ x y, E x y → F x y ∧ ¬ P y) → (∀ x y, E' x y → F x y ∧ ¬ P y) →
      ((∀ y, P y ∨ (∃ x, E x y) → P y ∨ ∃ x, E' x y) ↔ ∀ x, (∃ y, E x y) → ∃ y, E' x y) := by
    intro E E' hE hE'
    constructor
    · rintro h x ⟨y, hxy⟩
      obtain ⟨hF1, hP⟩ := hE x y hxy
      rcases h y (Or.inr ⟨x, hxy⟩) with hy | ⟨x', hx'⟩
      · exact (hP hy).elim
      · obtain rfl := hF.1 hF1 (hE' x' y hx').1
        exact ⟨y, hx'⟩
    · rintro h y (hy | ⟨x, hxy⟩)
      · exact Or.inl hy
      · obtain ⟨y', hy'⟩ := h x ⟨y, hxy⟩
        obtain rfl := hF.2 (hE x y hxy).1 (hE' x y' hy').1
        exact Or.inr ⟨x, hy'⟩
  simp only [iff_iff_implies_and_implies, forall_and, hone hE hE', hone hE' hE]

/-- Whether a name is global in a frame and stands for something. -/
def Frame.exportsAt (f : Frame) (name : Text) : Bool := (f.find? name).any fun sym => sym.global && sym.isSet

namespace Scope

/-- The names that a scope exports: the global ones that stand for something. -/
def exports (s : Scope) : List Text := (s.globals.filter fun g => g.2.isSet).map Prod.fst

/-- Whether an open unit holds a name. -/
def holds (s : Scope) (name : Text) : Bool := (findIn name s.inner).isSome

/-- A scope over which a program is assembled: a unit is open, the root frame binds each name once, and what has
no value in it is global. -/
structure IsHost (s : Scope) : Prop where
  /-- A unit is open. -/
  inner : s.inner ≠ []
  /-- The root frame binds each name once. -/
  nodup : s.root.names.Nodup
  /-- What has no value in the root frame is global. -/
  shared : s.root.All fun sym => sym.isSet = true ∨ sym.global = true

variable {s : Scope} {name : Text}

/-- Exported names are those of the root frame that are global and stand for something. -/
theorem mem_exports (hnodup : s.root.names.Nodup) : name ∈ s.exports ↔ s.root.exportsAt name = true := by
  simp only [exports, globals, List.filter_filter, List.mem_map, List.mem_filter, Frame.exportsAt]
  constructor
  · rintro ⟨⟨other, sym⟩, ⟨hmem, hsym⟩, rfl⟩
    rw [Frame.find?_of_mem_entries hnodup hmem, Option.any_some, Bool.and_comm]
    exact hsym
  · intro h
    obtain ⟨sym, hfind, hsym⟩ := Option.any_eq_true _ _ |>.1 h
    refine ⟨(name, sym), ⟨Frame.mem_entries_of_find? hfind, ?_⟩, rfl⟩
    rw [Bool.and_comm]
    exact hsym

/-- Changing the symbol of a name that a unit holds leaves the root frame as it is. -/
theorem root_modify_of_holds (h : s.holds name = true) (g : Symbol → Symbol) :
    (s.modify name g).root = s.root := by
  rw [holds] at h
  simp only [modify, modifyFrameOf, modifyOwner_snd, h, if_true]

/-- Changing the symbol of a name that no unit holds changes the root frame. -/
theorem find?_root_modify (h : s.holds name = false) (g : Symbol → Symbol) (other : Text) :
    (s.modify name g).root.find? other =
      if other = name then (s.root.find? other).map g else s.root.find? other := by
  have hfind := find?_modify s name other g
  rw [holds] at h
  simp only [modify, modifyFrameOf, modifyOwner_snd, h, Bool.false_eq_true, if_false]
  by_cases hc : s.root.contains name
  · rw [if_pos hc]
    exact Frame.find?_modify s.root name other g
  · rw [if_neg hc]
    have hnone : s.root.find? name = none := Option.not_isSome_iff_eq_none.1 hc
    split
    · rename_i heq
      rw [heq, hnone]
      rfl
    · rfl

/-- A symbol of which more is known after a change can be changed in the scope of a program. -/
theorem IsHost.modify (h : s.IsHost) (name : Text) {g : Symbol → Symbol}
    (hg : ∀ sym : Symbol, sym.isSet = true ∨ sym.global = true → (g sym).isSet = true ∨ (g sym).global = true) :
    (s.modify name g).IsHost := by
  have hrel : List.Forall₂ (fun _ _ => True) s.inner (s.modify name g).inner ∧
      (s.root.names.Nodup → (s.modify name g).root.names.Nodup) ∧
      ((s.root.All fun sym => sym.isSet = true ∨ sym.global = true) →
        (s.modify name g).root.All fun sym => sym.isSet = true ∨ sym.global = true) :=
    modifyFrameOf_rel (g := fun f => f.modify name g)
      (Q := fun f f' => (f.names.Nodup → f'.names.Nodup) ∧
        ((f.All fun sym => sym.isSet = true ∨ sym.global = true) →
          f'.All fun sym => sym.isSet = true ∨ sym.global = true))
      (fun _ => trivial) (fun _ => ⟨id, id⟩) (fun _ _ _ _ _ => trivial)
      fun _ _ _ => ⟨fun hnodup => Frame.nodup_modify hnodup name g, fun hall => hall.modify fun sym _ => hg sym⟩
  obtain ⟨hinner, hroot⟩ := hrel
  refine ⟨fun hnil => h.inner ?_, hroot.1 h.nodup, hroot.2 h.shared⟩
  have hlength := hinner.length_eq
  rw [hnil] at hlength
  exact List.length_eq_zero_iff.1 hlength

/-- A name that is declared ahead in the frame of a unit leaves the root frame as it is. -/
theorem IsHost.declare (h : s.IsHost) (name : Text) :
    (s.modifyTop fun f => f.insert name {}).IsHost ∧ (s.modifyTop fun f => f.insert name {}).root = s.root := by
  obtain ⟨hinner, hnodup, hshared⟩ := h
  obtain ⟨f, rest, hf⟩ := List.exists_cons_of_ne_nil hinner
  rw [modifyTop, hf]
  exact ⟨⟨List.cons_ne_nil _ _, hnodup, hshared⟩, rfl⟩

/-- A change that keeps whether symbols are global and stand for something exports the same names. -/
theorem exportsAt_modify {g : Symbol → Symbol} (hg : ∀ sym, (g sym).isSet = sym.isSet ∧ (g sym).global = sym.global)
    (s : Scope) (name other : Text) : (s.modify name g).root.exportsAt other = s.root.exportsAt other := by
  cases hholds : s.holds name with
  | true => rw [root_modify_of_holds hholds]
  | false =>
    rw [Frame.exportsAt, find?_root_modify hholds, Frame.exportsAt]
    split
    · cases s.root.find? other with
      | none => rfl
      | some sym => simp only [Option.map_some, Option.any_some, hg sym]
    · rfl

/-- A unit holds a name if one of the open frames has it. -/
theorem holds_iff : s.holds name = true ↔ ∃ f ∈ s.inner, name ∈ f.names := by
  rw [holds]
  constructor
  · intro h
    obtain ⟨sym, hsym⟩ := Option.isSome_iff_exists.1 h
    obtain ⟨f, hf, hfind⟩ := exists_of_findIn hsym
    exact ⟨f, hf, Frame.contains_iff_mem_names.1 (by rw [Frame.contains, hfind]; rfl)⟩
  · rintro ⟨f, hf, hname⟩
    obtain ⟨root, inner⟩ := s
    induction inner with
    | nil => cases hf
    | cons first rest ih =>
      rw [findIn]
      cases hfind : first.find? name with
      | some sym => rfl
      | none =>
        rcases List.mem_cons.1 hf with rfl | hf
        · have hcontains := Frame.contains_iff_mem_names.2 hname
          rw [Frame.contains, hfind] at hcontains
          cases hcontains
        · exact ih hf

/-- Changing a symbol enters no name. -/
theorem holds_modify (s : Scope) (name : Text) (g : Symbol → Symbol) (other : Text) :
    (s.modify name g).holds other = s.holds other := by
  simp only [holds, modify, modifyFrameOf, modifyOwner_snd]
  split
  · rw [findIn_modifyOwner]
    split
    · exact Option.isSome_map
    · rfl
  · split <;> rfl

/-- Names that are not touched are held by no unit if they were not. -/
theorem Marks.holds {touched : Text → Prop} {s' : Scope} (h : s.Marks touched s') (hname : ¬ touched name)
    (hholds : s.holds name = false) : s'.holds name = false := by
  by_contra hheld
  rw [Bool.not_eq_false, holds_iff] at hheld
  obtain ⟨f', hf', hmem⟩ := hheld
  obtain ⟨⟨root, inner⟩, added, hframes, rfl, -, hadded⟩ := h
  -- the name is not one that was declared ahead, so the frame had it when it was only marked
  obtain ⟨f, hf, hmem⟩ : ∃ f ∈ inner, name ∈ f.names := by
    cases inner with
    | nil => exact absurd hf' List.not_mem_nil
    | cons first rest =>
      rcases List.mem_cons.1 hf' with rfl | hf'
      · rw [Frame.names_append] at hmem
        rcases List.mem_append.1 hmem with hmem | hmem
        · exact ⟨first, List.mem_cons_self, hmem⟩
        · obtain ⟨entry, hentry, rfl⟩ := List.mem_map.1 hmem
          exact (hname (hadded entry hentry).touched).elim
      · exact ⟨f', List.mem_cons_of_mem _ hf', hmem⟩
  obtain ⟨old, hold, hmarks⟩ := exists_of_forall₂ hframes.inner.flip hf
  rw [Frame.Marks.names_eq hmarks] at hmem
  rw [holds_iff.2 ⟨old, hold, hmem⟩] at hholds
  cases hholds

end Scope

/-- One state leads to another without a change of what is exported. -/
def State.KeepsExports (s s' : State) : Prop :=
  s.scope.IsHost → s'.scope.IsHost ∧ ∀ name, s'.scope.root.exportsAt name = s.scope.root.exportsAt name

/-- Evaluation exports nothing. -/
theorem Eval.covers_keepsExports : Eval.Covers State.KeepsExports where
  refl _ h := ⟨h, fun _ => rfl⟩
  trans _ _ _ hxy hyz h := by
    obtain ⟨hy, hsame⟩ := hxy h
    obtain ⟨hz, hsame'⟩ := hyz hy
    exact ⟨hz, fun name => (hsame' name).trans (hsame name)⟩
  known _ _ _ _ _ := trivial
  request loc name s := by
    refine ⟨fun hs => ?_, trivial⟩
    rw [Eval.request, Act.exec_bind_of_ok (Act.exec_scope s)]
    cases hfind : s.scope.find? name with
    | some sym =>
      exact ⟨hs.modify name fun _ => id,
        Scope.exportsAt_modify (g := fun sym => { sym with used := true }) (fun _ => ⟨rfl, rfl⟩) s.scope name⟩
    | none =>
      simp only [Scope.declareLocal_of_find?_eq_none hfind]
      obtain ⟨hdeclared, hroot⟩ := hs.declare name
      refine ⟨hdeclared.modify name fun _ => id, fun other => ?_⟩
      refine (Scope.exportsAt_modify (g := fun sym => { sym with loc, frozen := true, used := true })
        (fun _ => ⟨rfl, rfl⟩) _ name other).trans ?_
      rw [hroot]
  deferred _ h := ⟨h, fun _ => rfl⟩
  same s s' hscope h := by
    rw [hscope]
    exact ⟨h, fun _ => rfl⟩

namespace Eval

variable {α β : Type} {u : Surroundings} {name : Text} {s₀ : State}

/-- An action enters a name in no unit, in any state in which names stand for what they do in one. -/
def Spares (name : Text) (s₀ : State) (act : Act α) : Prop :=
  ∀ s, s.scope.binding = s₀.scope.binding → s.scope.holds name = false →
    (act.exec s).2.scope.binding = s₀.scope.binding ∧ (act.exec s).2.scope.holds name = false

theorem Spares.pure (a : α) : Spares name s₀ (Pure.pure a) := fun _ hs hholds => ⟨hs, hholds⟩

theorem Spares.bind {act : Act α} {k : α → Act β} (h : Spares name s₀ act) (hk : ∀ a, Spares name s₀ (k a)) :
    Spares name s₀ (act >>= k) := by
  intro s hs hholds
  have hact := h s hs hholds
  rcases hexec : act.exec s with ⟨r, s'⟩
  rw [hexec] at hact
  cases r with
  | ok a =>
    rw [Act.exec_bind_of_ok hexec]
    exact hk a s' hact.1 hact.2
  | error f =>
    rw [Act.exec_bind_of_error hexec]
    exact hact

/-- Evaluating an expression enters no name that the expression does not lead to. -/
theorem spares_flattenGuarded {e : Expr} (he : ¬ Demands u s₀ e name) (guard : List Text) :
    Spares name s₀ (flattenGuarded u e guard) := by
  intro s hs hholds
  have hothers : ∀ other, Demands u s₀ e other → other ≠ name := fun other hother heq => he (heq ▸ hother)
  obtain ⟨htouches, hbinding⟩ := flattenGuarded_touches hothers guard hs
  exact ⟨hbinding, htouches.scope.holds (fun h => h rfl) hholds⟩

theorem spares_settle (deferrable : Bool) (e : Expr) : Spares name s₀ (settle deferrable e) := by
  intro s hs hholds
  rw [settle]
  split
  · exact ⟨hs, hholds⟩
  · split
    · exact ⟨hs, hholds⟩
    · exact ⟨hs, hholds⟩

/-- Evaluating expressions enters no name that none of them leads to. -/
theorem spares_evaluateAll {es : List Expr} (hes : ∀ e ∈ es, ¬ Demands u s₀ e name) (deferrable : Bool) :
    Spares name s₀ (evaluateAll u deferrable es) := by
  induction es with
  | nil => exact .pure _
  | cons e rest ih =>
    rw [List.forall_mem_cons] at hes
    rw [evaluateAll]
    exact ((spares_flattenGuarded hes.1 []).bind (spares_settle deferrable)).bind fun v =>
      (ih hes.2).bind fun vs => .pure _

end Eval

namespace Bind

variable {s s' : State} {w : Workbench} {loc nameLoc : Location} {name : Text} {value : Expr}

/-- EQU enters no name in a unit. -/
theorem holds_equate (hunset : (s.scope.binding name).isSet = false)
    (h : (equate w loc (.identifier nameLoc name) value).exec s = (.ok ⟨⟩, s')) (other : Text) :
    s'.scope.holds other = s.scope.holds other := by
  rw [equate, Act.exec_bind_of_ok (exec_nameOf_identifier w.around nameLoc name s)] at h
  cases hfind : s.scope.find? name with
  | some sym =>
    have hsym : sym.isSet = false := by
      rw [Scope.binding, hfind] at hunset
      exact hunset
    rw [Act.exec_bind_of_ok (exec_symbolOr_of_some hfind _), hsym, if_neg Bool.false_ne_true] at h
    cases h
    exact Scope.holds_modify s.scope name _ other
  | none =>
    obtain ⟨hin, hroot⟩ := Scope.find?_eq_none_iff.1 hfind
    have hdeclare : s.scope.declareGlobal name =
        .ok { s.scope with root := s.scope.root.insert name (Scope.promote {}) } := by
      rw [Scope.declareGlobal, hroot, hin]
    have hfound : Scope.find? { s.scope with root := s.scope.root.insert name (Scope.promote {}) } name =
        some (Scope.promote {}) := by
      rw [Scope.find?_eq, hin, Frame.find?_insert, if_pos rfl]
      rfl
    rw [Act.exec_bind_of_ok (exec_symbolOr_of_none hfind hdeclare), hfound, if_neg (by decide)] at h
    cases h
    exact Scope.holds_modify _ name _ other

/-- EQU exports a name that is found if no unit holds it, and nothing else. -/
theorem exportsAt_equate_of_find? (hs : s.scope.IsHost) {sym : Symbol} (hfind : s.scope.find? name = some sym)
    (hunset : sym.isSet = false)
    (h : (equate w loc (.identifier nameLoc name) value).exec s = (.ok ⟨⟩, s')) :
    s'.scope.IsHost ∧ ∀ other, s'.scope.root.exportsAt other = true ↔
      s.scope.root.exportsAt other = true ∨ other = name ∧ s.scope.holds name = false := by
  rw [equate, Act.exec_bind_of_ok (exec_nameOf_identifier w.around nameLoc name s),
    Act.exec_bind_of_ok (exec_symbolOr_of_some hfind _), hunset, if_neg Bool.false_ne_true] at h
  cases h
  refine ⟨hs.modify name fun _ _ => Or.inl rfl, fun other => ?_⟩
  show (s.scope.modify name _).root.exportsAt other = true ↔ _
  cases hholds : s.scope.holds name with
  | true =>
    rw [Scope.root_modify_of_holds hholds]
    simp
  | false =>
    -- a name of the root frame that stands for nothing is global
    have hroot : s.scope.root.find? name = some sym := by
      rw [Scope.holds, Option.isSome_eq_false_iff, Option.isNone_iff_eq_none] at hholds
      rw [Scope.find?_eq, hholds] at hfind
      exact hfind
    have hglobal : sym.global = true := by
      rcases hs.shared.of_find? hroot with hset | hglobal
      · rw [hunset] at hset
        cases hset
      · exact hglobal
    rw [Frame.exportsAt, Scope.find?_root_modify hholds]
    by_cases hother : other = name
    · rw [if_pos hother, hother, hroot]
      simp [Symbol.isSet, hglobal]
    · rw [if_neg hother, Frame.exportsAt]
      simp [hother]

/-- EQU exports its name if no unit holds it, and nothing else. -/
theorem exportsAt_equate (hs : s.scope.IsHost) (hunset : (s.scope.binding name).isSet = false)
    (h : (equate w loc (.identifier nameLoc name) value).exec s = (.ok ⟨⟩, s')) :
    s'.scope.IsHost ∧ ∀ other, s'.scope.root.exportsAt other = true ↔
      s.scope.root.exportsAt other = true ∨ other = name ∧ s.scope.holds name = false := by
  cases hfind : s.scope.find? name with
  | some sym =>
    rw [Scope.binding, hfind] at hunset
    exact exportsAt_equate_of_find? hs hfind hunset h
  | none =>
    -- the name is declared in the root frame, and found there
    obtain ⟨hin, hroot⟩ := Scope.find?_eq_none_iff.1 hfind
    let declared : Scope := { s.scope with root := s.scope.root.insert name (Scope.promote {}) }
    have hdeclare : s.scope.declareGlobal name = .ok declared := by rw [Scope.declareGlobal, hroot, hin]
    have hfound : declared.find? name = some (Scope.promote {}) := by
      rw [Scope.find?_eq, hin, Frame.find?_insert, if_pos rfl]
      rfl
    have hhost : declared.IsHost :=
      ⟨hs.inner, Frame.nodup_insert hs.nodup name _, hs.shared.insert name (Or.inr rfl)⟩
    have hsame : (equate w loc (.identifier nameLoc name) value).exec s =
        (equate w loc (.identifier nameLoc name) value).exec { s with scope := declared } := by
      rw [equate, Act.exec_bind_of_ok (exec_nameOf_identifier w.around nameLoc name s),
        Act.exec_bind_of_ok (exec_symbolOr_of_none hfind hdeclare), hfound, Act.exec_bind_of_ok
          (exec_nameOf_identifier w.around nameLoc name _), Act.exec_bind_of_ok (exec_symbolOr_of_some hfound _)]
      rfl
    rw [hsame] at h
    obtain ⟨hs', hexports⟩ := exportsAt_equate_of_find? hhost hfound rfl h
    refine ⟨hs', fun other => (hexports other).trans (or_congr_left ?_)⟩
    show (s.scope.root.insert name _).exportsAt other = true ↔ _
    rw [Frame.exportsAt, Frame.find?_insert, Frame.exportsAt]
    by_cases hother : other = name
    · rw [if_pos hother, hother, hroot]
      exact iff_of_false Bool.false_ne_true Bool.false_ne_true
    · rw [if_neg hother]

end Bind

namespace Entry

variable {u : Surroundings} {s s' : State} {t : Token} {name : Text} {v : Expr}

/-- A definition builds one name, and is about to bind it in one state. -/
theorem Prepares.unique {other : Text} {v' : Expr} {s'' : State} (h : Prepares u s t name v s')
    (h' : Prepares u s t other v' s'') : name = other ∧ s' = s'' := by
  obtain ⟨loc, n, s1, hreduce, hspell⟩ := h
  obtain ⟨loc', n', s1', hreduce', hspell'⟩ := h'
  rw [hreduce] at hreduce'
  cases hreduce'
  rw [hspell] at hspell'
  cases hspell'
  exact ⟨rfl, rfl⟩

/-- Data is no definition. -/
theorem not_prepares_data (loc : Location) (kind : DataKind) (es : List Expr) :
    ¬ Prepares u s (.data loc kind es) name v s' := by
  rintro ⟨loc', n, s1, hreduce, -⟩
  rw [Token.reduce] at hreduce
  obtain ⟨vs, s2, -, hparts⟩ := Act.exists_of_exec_bind hreduce
  cases hparts

/-- A definition that is prepared exports nothing by that. -/
theorem Prepares.keepsExports (h : Prepares u s t name v s') : s.KeepsExports s' := by
  obtain ⟨loc, n, s1, hreduce, hspell⟩ := h
  have hevaluates := Eval.covers_keepsExports.evaluates u
  have hfirst := (Token.reduce_yields hevaluates t s).1
  have hsecond := (Eval.nameOf_yields hevaluates n s1).1
  rw [hreduce] at hfirst
  rw [hspell] at hsecond
  exact Eval.covers_keepsExports.trans _ _ _ hfirst hsecond

/-- Data that is entered exports nothing. -/
theorem keepsExports_bindOne (w : Workbench) (loc : Location) (kind : DataKind) (es : List Expr) (trail : Trail)
    (s : State) : s.KeepsExports ((bindOne w (.settled (.data loc kind es)) trail).run s).2 := by
  have hR := Eval.covers_keepsExports
  have hlast : (Pass.localize w).Maps State.KeepsExports w.block.inMacro Pass.Inert fun _ _ => True :=
    fun item s hitem => ⟨(Pass.mapsInert_localize hR w item s hitem).1, fun _ _ => trivial⟩
  have hchain := Stage.Chain.step (Pass.mapsInert_reduceFirst hR w) (fun _ _ _ _ h => h) (.last hlast)
  refine (Stage.through_feeds hR.toProgress (fun _ _ _ _ h => h) hchain (.settled (.data loc kind es)) trail s
    rfl ?_).1
  exact fun _ _ _ _ => trivial

/-- Evaluating a definition or data leads to a name. -/
inductive Asks (u : Surroundings) (s : State) : Token → Text → Prop where
  /-- The value of a definition does. -/
  | value {loc : Location} {n e : Expr} {name : Text} (h : Eval.Demands u s e name) :
    Asks u s (.assign loc .equate n e) name
  /-- Something in data does. -/
  | datum {loc : Location} {kind : DataKind} {es : List Expr} {e : Expr} {name : Text} (he : e ∈ es)
    (h : Eval.Demands u s e name) : Asks u s (.data loc kind es) name

/-- A definition of a name that is written out, or data. -/
def IsPlain (t : Token) : Prop :=
  (∃ loc l name e, t = .assign loc .equate (.identifier l name) e) ∨ ∃ loc kind es, t = .data loc kind es

theorem IsPlain.equate_or_data (h : IsPlain t) : t.isEquate = true ∨ t.isData = true := by
  rcases h with ⟨loc, l, name, e, rfl⟩ | ⟨loc, kind, es, rfl⟩
  · exact Or.inl rfl
  · exact Or.inr rfl

/-- What is prepared for is the name that is written out. -/
theorem Prepares.name_eq {loc l : Location} {n other : Text} {e : Expr}
    (h : Prepares u s (.assign loc .equate (.identifier l n) e) other v s') : n = other := by
  obtain ⟨loc', n', s1, hreduce, hspell⟩ := h
  rw [Token.reduce] at hreduce
  obtain ⟨n'', s2, hname, hparts⟩ := Act.exists_of_exec_bind hreduce
  cases hname
  obtain ⟨v', s3, hvalue, hparts⟩ := Act.exists_of_exec_bind hparts
  cases hparts
  cases hspell
  rfl

/-- Preparing a definition of a name that is written out enters no name that the value does not ask for. -/
theorem Prepares.holds {loc l : Location} {n other : Text} {e : Expr}
    (h : Prepares u s (.assign loc .equate (.identifier l n) e) other v s')
    (hasks : ¬ Asks u s (.assign loc .equate (.identifier l n) e) name) (hholds : s.scope.holds name = false) :
    s'.scope.holds name = false := by
  obtain ⟨loc', n', s1, hreduce, hspell⟩ := h
  rw [Token.reduce] at hreduce
  obtain ⟨n'', s2, hname, hparts⟩ := Act.exists_of_exec_bind hreduce
  -- a name that is written out is built from nothing
  cases hname
  obtain ⟨v', s3, hvalue, hparts⟩ := Act.exists_of_exec_bind hparts
  cases hparts
  cases hspell
  have hdemands : ¬ Eval.Demands u s e name := fun h => hasks (.value h)
  have hspares := (Eval.spares_flattenGuarded hdemands [n]).bind (Eval.spares_settle true)
  have hafter := (hspares s rfl hholds).2
  rw [Token.reduceValue, Eval.evaluateDefinition] at hvalue
  rwa [hvalue] at hafter

variable {radix : Nat} {g : Eval.Following} {b b' : Text → Binding}

/-- A statement defines a name by a way to follow names. -/
def Defines (u : Surroundings) (radix : Nat) (g : Eval.Following) (t : Token) (name : Text) : Prop :=
  ∃ loc n e, t = .assign loc .equate n e ∧ Spells u radix g n name

/-- A statement defines one name at most. -/
theorem Defines.unique {other : Text} (h : Defines u radix g t name) (h' : Defines u radix g t other) :
    name = other := by
  obtain ⟨loc, n, e, rfl, hname⟩ := h
  obtain ⟨loc', n', e', heq, hother⟩ := h'
  cases heq
  exact hname.unique hother

section Defines

variable (hargs : u.args = [])
include hargs

/-- A name stands for nothing before a definition of it is entered. -/
theorem EntersAll.unset_of_defines (hg : Eval.Solves u radix g b') {source : List Token} {items : List Item}
    (h : EntersAll u radix b source items b') (ht : t ∈ source) (hname : Defines u radix g t name) :
    (b name).isSet = false := by
  induction h with
  | nil => cases ht
  | @cons b b1 b2 first rest items items' hfirst hrest ih =>
    rcases List.mem_cons.1 ht with rfl | ht
    · obtain ⟨loc, n, e, rfl, hspells⟩ := hname
      have hstart : Eval.Solves u radix g b := hg.of_extends fun other hother => by
        have hkept := hfirst.eq_of_isSet hother
        rw [hrest.eq_of_isSet (by rw [hkept]; exact hother), hkept]
      cases hfirst with
      | equate hbuilt hbuilds _ hunset =>
        rwa [hspells.unique (.of_leaves hargs hstart hbuilt hbuilds)]
    · by_contra hset
      rw [Bool.not_eq_false] at hset
      have hkept := ih hg ht
      rw [hfirst.eq_of_isSet hset, hset] at hkept
      cases hkept

/-- A name is defined once. -/
theorem EntersAll.eq_of_defines (hg : Eval.Solves u radix g b') {source : List Token} {items : List Item}
    (h : EntersAll u radix b source items b') {t' : Token} (ht : t ∈ source) (ht' : t' ∈ source)
    (hname : Defines u radix g t name) (hname' : Defines u radix g t' name) : t = t' := by
  induction h with
  | nil => cases ht
  | @cons b b1 b2 first rest items items' hfirst hrest ih =>
    -- a definition of a name is not entered behind another one
    have hclash : ∀ other ∈ rest, Defines u radix g first name → Defines u radix g other name → False := by
      rintro other hother ⟨loc, n, e, rfl, hspells⟩ hdefines
      have hstart : Eval.Solves u radix g b := hg.of_extends fun other hother => by
        have hkept := hfirst.eq_of_isSet hother
        rw [hrest.eq_of_isSet (by rw [hkept]; exact hother), hkept]
      obtain ⟨name', v, rfl, hspells', -⟩ := Enters.spells hargs hstart hfirst
      obtain rfl := hspells.unique hspells'
      have hunset := EntersAll.unset_of_defines hargs hg hrest hother hdefines
      rw [Function.update_self] at hunset
      cases hunset
    rcases List.mem_cons.1 ht with rfl | hrest' <;> rcases List.mem_cons.1 ht' with rfl | hrest''
    · rfl
    · exact (hclash t' hrest'' hname hname').elim
    · exact (hclash t hrest' hname' hname).elim
    · exact ih hg hrest' hrest''

end Defines

end Entry

namespace Assembler

open Entry (Prepares bindOne Advances EntersAll Spells IsSolution)

/-- The state in which the second stage handles the statement that comes after `pre`. -/
def after (a : Assembler) (scope : Scope) (pre : List Token) : State :=
  ((Workbench.bindStage ⟨a, a.outermost, a.runner a.maxDepth⟩ (pre.map .settled)).run (start scope)).2

/-- A statement of a program exports a name: it is a definition of it, and when it is about to bind the name, no
open unit holds that. -/
def Exports (a : Assembler) (scope : Scope) (source : List Token) (t : Token) (name : Text) : Prop :=
  ∃ pre v s, pre ++ [t] <+: source ∧ Prepares a.outermost.around (a.after scope pre) t name v s ∧
    s.scope.holds name = false

variable {a : Assembler} {scope : Scope} {source : List Token}

/-- What a longer program exports. -/
theorem exports_append_singleton {t t' : Token} {name : Text} :
    a.Exports scope (source ++ [t]) t' name ↔ a.Exports scope source t' name ∨
      t' = t ∧ ∃ v s, Prepares a.outermost.around (a.after scope source) t name v s ∧ s.scope.holds name = false := by
  constructor
  · rintro ⟨pre, v, s, hpre, hprepares, hholds⟩
    rcases List.prefix_concat_iff.1 hpre with heq | hpre
    · obtain ⟨rfl, hlast⟩ := List.append_inj' heq rfl
      cases hlast
      exact Or.inr ⟨rfl, v, s, hprepares, hholds⟩
    · exact Or.inl ⟨pre, v, s, hpre, hprepares, hholds⟩
  · rintro (⟨pre, v, s, hpre, hprepares, hholds⟩ | ⟨rfl, v, s, hprepares, hholds⟩)
    · exact ⟨pre, v, s, hpre.trans (List.prefix_append _ _), hprepares, hholds⟩
    · exact ⟨source, v, s, List.prefix_refl _, hprepares, hholds⟩

/-- The second stage of a program of definitions and data. -/
def bound (a : Assembler) (scope : Scope) (source : List Token) : Trail × State :=
  (Stage.feed (bindOne ⟨a, a.outermost, a.runner a.maxDepth⟩) (source.map .settled) Trail.empty).run (start scope)

/-- The state after definitions and data is that after the second stage of them. -/
theorem after_eq (h : ∀ t ∈ source, t.isEquate = true ∨ t.isData = true) :
    a.after scope source = (a.bound scope source).2 := by
  have hmessage : ∀ t ∈ source, t.isMessage = false := fun t ht =>
    (Token.declareGlobals_of_isSequential ⟨a, a.outermost, none⟩
      (Token.isSequential_of_equate_or_data (h t ht))).2.1
  rw [after, Workbench.bindStage, Stage.messagesFirst_settled hmessage]
  rfl

/-- The statements of a program go through the second stage one after the other. -/
theorem bound_append (pre post : List Token) : a.bound scope (pre ++ post) =
    (Stage.feed (bindOne ⟨a, a.outermost, a.runner a.maxDepth⟩) (post.map .settled) (a.bound scope pre).1).run
      (a.bound scope pre).2 := by
  rw [bound, List.map_append]
  exact Stage.run_feed_append rfl _

/-- One more statement goes through the second stage. -/
theorem bound_append_singleton (ht : (a.bound scope source).1.stopped = false) (t : Token) :
    a.bound scope (source ++ [t]) = (bindOne ⟨a, a.outermost, a.runner a.maxDepth⟩ (.settled t)
      (a.bound scope source).1).run (a.bound scope source).2 := by
  rw [bound_append, List.map_singleton]
  exact Stage.run_feed_cons ht rfl []

/-- The second stage keeps what was reported. -/
theorem items_bound_sublist (a : Assembler) (scope : Scope) (pre post : List Token) :
    (a.bound scope pre).1.items <+: (a.bound scope (pre ++ post)).1.items := by
  rw [bound_append]
  exact (Stage.grows_through _ _ _).feed _ _ _

theorem isHost_start (hroot : scope.IsRoot) : (start scope).scope.IsHost :=
  ⟨List.cons_ne_nil _ _, hroot.nodup, hroot.shared⟩

/-- If the second stage reports no failure, then it exports what its definitions do. -/
theorem exportsAt_bound (hroot : scope.IsRoot) (hsource : ∀ t ∈ source, t.isEquate = true ∨ t.isData = true)
    (hok : ∀ i ∈ (a.bound scope source).1.items, i.token.fails = false) :
    (a.bound scope source).1.stopped = false ∧ (a.bound scope source).2.scope.IsHost ∧
      ∀ name, (a.bound scope source).2.scope.root.exportsAt name = true ↔
        scope.root.exportsAt name = true ∨ ∃ t, a.Exports scope source t name := by
  -- the last statement is handled in the state after the others
  induction source using List.reverseRecOn with
  | nil =>
    refine ⟨rfl, isHost_start hroot, fun name => (or_iff_left ?_).symm⟩
    rintro ⟨t, pre, v, s, hpre, -⟩
    simp at hpre
  | append_singleton pre t ih =>
    rw [List.forall_mem_append, List.forall_mem_singleton] at hsource
    obtain ⟨ht, hhost, hexports⟩ := ih hsource.1 fun i hi => hok i ((items_bound_sublist a scope pre [t]).subset hi)
    have hafter : a.after scope pre = (a.bound scope pre).2 := after_eq hsource.1
    rw [bound_append_singleton ht] at hok ⊢
    simp only [exports_append_singleton, hafter]
    rcases Token.equate_or_data hsource.2 with ⟨loc, n, e, rfl⟩ | ⟨loc, kind, es, rfl⟩
    · rcases Entry.advances_prepares ⟨a, a.outermost, a.runner a.maxDepth⟩ ht loc n e (a.bound scope pre).2 with
        ⟨i, hi, hfails⟩ | ⟨items, -, hstopped, -, other, v, s1, hprepares, hunset, hbound⟩
      · rw [hok i hi] at hfails
        cases hfails
      · obtain ⟨hhost1, hsame⟩ := hprepares.keepsExports hhost
        obtain ⟨hhost2, hexports2⟩ := Bind.exportsAt_equate hhost1 hunset hbound
        refine ⟨hstopped, hhost2, fun name => ?_⟩
        rw [hexports2, hsame, hexports, or_assoc]
        refine or_congr_right ⟨?_, ?_⟩
        · rintro (⟨t, ht⟩ | ⟨rfl, hholds⟩)
          · exact ⟨t, Or.inl ht⟩
          · exact ⟨_, Or.inr ⟨rfl, v, s1, hprepares, hholds⟩⟩
        · rintro ⟨t, ht | ⟨rfl, v', s', hprepares', hholds⟩⟩
          · exact Or.inl ⟨t, ht⟩
          · obtain ⟨rfl, rfl⟩ := hprepares.unique hprepares'
            exact Or.inr ⟨rfl, hholds⟩
    · rcases Entry.advances_data ⟨a, a.outermost, a.runner a.maxDepth⟩ ht loc kind es (a.bound scope pre).2 with
        ⟨i, hi, hfails⟩ | ⟨items, -, hstopped, -⟩
      · rw [hok i hi] at hfails
        cases hfails
      · obtain ⟨hhost', hsame⟩ := Entry.keepsExports_bindOne ⟨a, a.outermost, a.runner a.maxDepth⟩ loc kind es
          (a.bound scope pre).1 _ hhost
        refine ⟨hstopped, hhost', fun name => ?_⟩
        rw [hsame, hexports]
        refine or_congr_right (exists_congr fun t => (or_iff_left ?_).symm)
        rintro ⟨-, v, s', hprepares, -⟩
        exact Entry.not_prepares_data loc kind es hprepares

/-- Definitions and data that do not ask for a name do not enter it in the frame of the unit. -/
theorem holds_bound {name : Text} (hroot : scope.IsRoot)
    (hsource : ∀ t ∈ source, Entry.IsPlain t)
    (hok : ∀ i ∈ (a.bound scope source).1.items, i.token.fails = false)
    (hasks : ∀ pre t post, source = pre ++ t :: post → ¬ Entry.Asks a.outermost.around (a.after scope pre) t name) :
    (a.bound scope source).2.scope.holds name = false := by
  -- the last statement is handled in the state after the others
  induction source using List.reverseRecOn with
  | nil =>
    have hstart : (a.bound scope []).2.scope = scope.nest := rfl
    rw [hstart, Scope.holds, Scope.nest, hroot.inner]
    rfl
  | append_singleton pre t ih =>
    rw [List.forall_mem_append, List.forall_mem_singleton] at hsource
    have hpre : ∀ t ∈ pre, t.isEquate = true ∨ t.isData = true :=
      fun t ht => (hsource.1 t ht).equate_or_data
    have hok' : ∀ i ∈ (a.bound scope pre).1.items, i.token.fails = false :=
      fun i hi => hok i ((items_bound_sublist a scope pre [t]).subset hi)
    have ht := (exportsAt_bound hroot hpre hok').1
    have hbefore : (a.bound scope pre).2.scope.holds name = false :=
      ih hsource.1 hok' fun pre' t' post heq => hasks pre' t' (post ++ [t]) (by simp [heq])
    have hlast := hasks pre t [] rfl
    rw [after_eq hpre] at hlast
    rw [bound_append_singleton ht] at hok ⊢
    rcases hsource.2 with ⟨loc, l, n, e, rfl⟩ | ⟨loc, kind, es, rfl⟩
    · rcases Entry.advances_prepares ⟨a, a.outermost, a.runner a.maxDepth⟩ ht loc (.identifier l n) e
        (a.bound scope pre).2 with ⟨i, hi, hfails⟩ | ⟨-, -, -, -, other, v, s1, hprepares, hunset, hbound⟩
      · rw [hok i hi] at hfails
        cases hfails
      · rw [Bind.holds_equate hunset hbound]
        exact hprepares.holds hlast hbefore
    · rcases Entry.advances_evaluates ⟨a, a.outermost, a.runner a.maxDepth⟩ ht loc kind es (a.bound scope pre).2 with
        ⟨i, hi, hfails⟩ | ⟨-, -, -, vs, hvalues, -⟩
      · rw [hok i hi] at hfails
        cases hfails
      · have hspares : ((Eval.evaluateAll (Workbench.around ⟨a, a.outermost, a.runner a.maxDepth⟩) true es).exec
            (a.bound scope pre).2).2.scope.holds name = false :=
          (Eval.spares_evaluateAll (fun e he h => hlast (.datum he h)) true _ rfl hbefore).2
        rwa [hvalues] at hspares

section Clean

variable (hsource : ∀ t ∈ source, t.isEquate = true ∨ t.isData = true)
include hsource

/-- What the second stage leaves goes through the third one. -/
theorem run_bound : (Workbench.run ⟨a, a.outermost, a.runner a.maxDepth⟩ source).run (start scope) =
    (Workbench.finishStage ⟨a, a.outermost, a.runner a.maxDepth⟩ (a.bound scope source).1.items).run
      (a.bound scope source).2 :=
  Workbench.run_of_forall _ (fun t ht => Token.isSequential_of_equate_or_data (hsource t ht)) rfl

variable (hok : ∀ t ∈ (a.assemble scope source).tokens, t.fails = false)
include hok

/-- A program that reports no failure reports none in its second stage. -/
theorem fails_bound : ∀ i ∈ (a.bound scope source).1.items, i.token.fails = false := by
  intro i hi
  by_contra hfails
  rw [Bool.not_eq_false] at hfails
  rcases hrun : (Workbench.run ⟨a, a.outermost, a.runner a.maxDepth⟩ source).run (start scope) with ⟨trail, s⟩
  have hkept := Entry.fails_finishStage ⟨a, a.outermost, a.runner a.maxDepth⟩ ⟨i, hi, hfails⟩
    (a.bound scope source).2
  rw [← run_bound hsource, hrun] at hkept
  obtain ⟨t, ht, hfails⟩ := Entry.fails_assemble hrun hkept
  rw [hok t ht] at hfails
  cases hfails

variable (hradix : (scope.binding Scope.radixName).isSet = true)
include hradix

/-- The statements of a program are entered, and those that come after others in the state after these. -/
theorem entersAll_bound {pre post : List Token} (heq : source = pre ++ post) :
    ∃ items, (a.bound scope pre).2.scope.radix = scope.radix ∧
      (a.bound scope source).1.items = (a.bound scope pre).1.items ++ items ∧
      EntersAll a.outermost.around scope.radix (a.bound scope pre).2.scope.binding post items
        (a.bound scope source).2.scope.binding := by
  have hclean := fails_bound hsource hok
  subst heq
  rw [List.forall_mem_append] at hsource
  let w : Workbench := ⟨a, a.outermost, a.runner a.maxDepth⟩
  have hfirst : Advances Trail.empty (fun items s' => EntersAll a.outermost.around scope.radix scope.binding pre items
      s'.scope.binding) (a.bound scope pre) :=
    Entry.advances_feed_bind w (t := Trail.empty) rfl hsource.1 (s := start scope) hradix
  rcases hfirst with ⟨i, hi, hfails⟩ | ⟨items, -, hstopped, henters⟩
  · rw [hclean i ((items_bound_sublist a scope pre post).subset hi)] at hfails
    cases hfails
  · have hkept := henters.eq_of_isSet hradix
    have hsame : (a.bound scope pre).2.scope.radix = scope.radix := by
      rw [Scope.radix_eq, hkept, ← Scope.radix_eq]
    have hsecond := Entry.advances_feed_bind w hstopped hsource.2 (by rw [hkept]; exact hradix)
    rw [hsame, ← bound_append] at hsecond
    rcases hsecond with ⟨i, hi, hfails⟩ | ⟨items, hitems, -, henters⟩
    · rw [hclean i hi] at hfails
      cases hfails
    · exact ⟨items, hsame, hitems, henters⟩

/-- A program exports what the root scope does, and what its definitions export. -/
theorem mem_exports_assemble (hroot : scope.IsRoot) (name : Text) :
    name ∈ (a.assemble scope source).scope.exports ↔
      name ∈ scope.exports ∨ ∃ t, a.Exports scope source t name := by
  obtain ⟨-, hhost, hexports⟩ := exportsAt_bound hroot hsource (fails_bound hsource hok)
  obtain ⟨items, -, hitems, henters⟩ := entersAll_bound hsource hok hradix (List.nil_append source).symm
  have hinert : ∀ i ∈ (a.bound scope source).1.items, i.token.isInert = true := by
    intro i hi
    rw [hitems] at hi
    obtain ⟨loc, kind, vs, hdata⟩ := henters.isData i hi
    rw [hdata]
    rfl
  have hfinish := (Workbench.mapsInert_finishStage Eval.covers_keepsExports
    ⟨a, a.outermost, a.runner a.maxDepth⟩ hinert (a.bound scope source).2).1
  rcases hrun : (Workbench.run ⟨a, a.outermost, a.runner a.maxDepth⟩ source).run (start scope) with ⟨trail, s⟩
  rw [← run_bound hsource, hrun] at hfinish
  obtain ⟨hhost', hsame⟩ := hfinish hhost
  rw [scope_assemble hrun, Scope.mem_exports hhost'.nodup, hsame, hexports, Scope.mem_exports hroot.nodup]

/-- A definition that exports a name is one of the program, and defines the name. -/
theorem Exports.defines {g : Eval.Following}
    (hg : Eval.Solves a.outermost.around scope.radix g (a.bound scope source).2.scope.binding) {t : Token} {name : Text}
    (h : a.Exports scope source t name) :
    t ∈ source ∧ Entry.Defines a.outermost.around scope.radix g t name := by
  obtain ⟨pre, v, s, ⟨post, heq⟩, hprepares, -⟩ := h
  rw [List.append_assoc, List.singleton_append] at heq
  have hmem : t ∈ source := heq ▸ List.mem_append_right pre List.mem_cons_self
  have hpre : ∀ t ∈ pre, t.isEquate = true ∨ t.isData = true :=
    fun t ht => hsource t (heq ▸ List.mem_append_left _ ht)
  rw [after_eq hpre] at hprepares
  -- the solution solves what is bound before the statement
  obtain ⟨items, hsame, -, henters⟩ := entersAll_bound hsource hok hradix heq.symm
  have hstart := hg.of_extends fun other hother => henters.eq_of_isSet hother
  rcases Token.equate_or_data (hsource t hmem) with ⟨loc, n, e, rfl⟩ | ⟨loc, kind, es, rfl⟩
  · obtain ⟨⟨n', l, hbuilt, hspells, -⟩, -⟩ := hprepares.leaves
    rw [hsame] at hbuilt hspells
    exact ⟨hmem, loc, n, e, rfl, .of_leaves rfl hstart hbuilt hspells⟩
  · exact (Entry.not_prepares_data loc kind es hprepares).elim

/-- A name that the root scope exports is exported by no definition. -/
theorem Exports.not_mem (hroot : scope.IsRoot) {g : Eval.Following}
    (hg : Eval.Solves a.outermost.around scope.radix g (a.bound scope source).2.scope.binding) {t : Token} {name : Text}
    (h : a.Exports scope source t name) : name ∉ scope.exports := by
  obtain ⟨hmem, hdefines⟩ := h.defines hsource hok hradix hg
  obtain ⟨items, -, -, henters⟩ := entersAll_bound hsource hok hradix (List.nil_append source).symm
  have hunset : (scope.binding name).isSet = false := henters.unset_of_defines rfl hg hmem hdefines
  rw [Scope.mem_exports hroot.nodup, Frame.exportsAt]
  rw [Scope.binding, Scope.find?_eq, hroot.inner] at hunset
  cases hfind : scope.root.find? name with
  | none => exact Bool.false_ne_true
  | some sym =>
    rw [hfind] at hunset
    have hsym : sym.isSet = false := hunset
    simp [hsym]

end Clean

/-- Let a program of definitions and data be reordered. If no failure is reported either way, then the same names
are exported exactly if the same definitions export theirs, that is, are reached while no unit holds the name. -/
theorem exports_reordered (a : Assembler) {scope : Scope} {source source' : List Token} (hroot : scope.IsRoot)
    (hradix : (scope.binding Scope.radixName).isSet = true)
    (hsource : ∀ t ∈ source, t.isEquate = true ∨ t.isData = true) (hperm : source.Perm source')
    (hok : ∀ t ∈ (a.assemble scope source).tokens, t.fails = false)
    (hok' : ∀ t ∈ (a.assemble scope source').tokens, t.fails = false) :
    (∀ name, name ∈ (a.assemble scope source).scope.exports ↔ name ∈ (a.assemble scope source').scope.exports) ↔
      ∀ t, (∃ name, a.Exports scope source t name) ↔ ∃ name, a.Exports scope source' t name := by
  have hsource' : ∀ t ∈ source', t.isEquate = true ∨ t.isData = true :=
    fun t ht => hsource t (hperm.mem_iff.2 ht)
  -- both orders have one solution, which tells what name each definition defines
  obtain ⟨items, -, -, henters⟩ := entersAll_bound hsource hok hradix (List.nil_append source).symm
  obtain ⟨items', -, -, henters'⟩ := entersAll_bound hsource' hok' hradix (List.nil_append source').symm
  obtain ⟨g, hsolution⟩ := EntersAll.exists_isSolution rfl (Eval.mem_domain_of_isSome _) henters
  have hg := (EntersAll.solved rfl hsolution henters).1
  have hg' := (EntersAll.solved rfl (hsolution.perm hperm) henters').1
  simp only [mem_exports_assemble hsource hok hradix hroot, mem_exports_assemble hsource' hok' hradix hroot]
  refine exists_congr_of_biUnique
    (F := fun t name => t ∈ source ∧ Entry.Defines a.outermost.around scope.radix g t name) ⟨?_, ?_⟩ ?_ ?_
  · rintro t t' name ⟨hmem, hdefines⟩ ⟨hmem', hdefines'⟩
    exact henters.eq_of_defines rfl hg hmem hmem' hdefines hdefines'
  · rintro t name other ⟨-, hdefines⟩ ⟨-, hdefines'⟩
    exact hdefines.unique hdefines'
  · intro t name h
    exact ⟨h.defines hsource hok hradix hg, h.not_mem hsource hok hradix hroot hg⟩
  · intro t name h
    obtain ⟨hmem, hdefines⟩ := h.defines hsource' hok' hradix hg'
    exact ⟨⟨hperm.mem_iff.2 hmem, hdefines⟩, h.not_mem hsource' hok' hradix hroot hg'⟩

/-- A program defines names ahead: neither a statement in front of a definition nor the value that it gives asks for
the name. -/
def DefinesAhead (a : Assembler) (scope : Scope) (source : List Token) : Prop :=
  ∀ pre t post, source = pre ++ t :: post → ∀ loc l name e,
    .assign loc .equate (.identifier l name) e ∈ t :: post → ¬ Entry.Asks a.outermost.around (a.after scope pre) t name

section Ahead

variable (hroot : scope.IsRoot) (hsource : ∀ t ∈ source, Entry.IsPlain t)
  (hok : ∀ t ∈ (a.assemble scope source).tokens, t.fails = false)
include hroot hsource hok

/-- A definition exports its name if it stands ahead of everything that asks for the name. -/
theorem exports_of_unasked {before rest : List Token} {loc l : Location} {name : Text} {e : Expr}
    (heq : source = before ++ .assign loc .equate (.identifier l name) e :: rest)
    (hasks : ∀ pre t post, before ++ [.assign loc .equate (.identifier l name) e] = pre ++ t :: post →
      ¬ Entry.Asks a.outermost.around (a.after scope pre) t name) :
    a.Exports scope source (.assign loc .equate (.identifier l name) e) name := by
  subst heq
  have hclean := fails_bound (fun t ht => (hsource t ht).equate_or_data) hok
  rw [List.forall_mem_append] at hsource
  have hbefore : ∀ t ∈ before, t.isEquate = true ∨ t.isData = true := fun t ht => (hsource.1 t ht).equate_or_data
  have hquiet : ∀ i ∈ (a.bound scope before).1.items, i.token.fails = false :=
    fun i hi => hclean i ((items_bound_sublist a scope before _).subset hi)
  have ht := (exportsAt_bound hroot hbefore hquiet).1
  have hholds := holds_bound hroot hsource.1 hquiet fun pre t post hsplit =>
    hasks pre t (post ++ [.assign loc .equate (.identifier l name) e]) (by simp [hsplit])
  have hsub := (items_bound_sublist a scope (before ++ [.assign loc .equate (.identifier l name) e]) rest).subset
  rw [List.append_assoc, List.singleton_append, bound_append_singleton ht] at hsub
  rcases Entry.advances_prepares ⟨a, a.outermost, a.runner a.maxDepth⟩ ht loc (.identifier l name) e
    (a.bound scope before).2 with ⟨i, hi, hfails⟩ | ⟨-, -, -, -, other, v, s, hprepares, -⟩
  · rw [hclean i (hsub hi)] at hfails
    cases hfails
  · obtain rfl := hprepares.name_eq
    have hown := hasks before _ [] rfl
    rw [after_eq hbefore] at hown
    refine ⟨before, v, s, ⟨rest, by simp⟩, ?_, hprepares.holds hown hholds⟩
    rwa [after_eq hbefore]

/-- A definition that exports a name somewhere does so in a program that defines names ahead. -/
theorem Exports.of_definesAhead {other : List Token} {t : Token} {name : Text} (h : a.Exports scope other t name)
    (ht : t ∈ source) (hahead : a.DefinesAhead scope source) : a.Exports scope source t name := by
  obtain ⟨pre, v, s, -, hprepares, -⟩ := h
  rcases hsource t ht with ⟨loc, l, n, e, rfl⟩ | ⟨loc, kind, es, rfl⟩
  · obtain rfl := hprepares.name_eq
    obtain ⟨before, rest, heq⟩ := List.append_of_mem ht
    refine exports_of_unasked hroot hsource hok heq fun pre t post hsplit => ?_
    refine hahead pre t (post ++ rest) ?_ loc l n e ?_
    · rw [heq, ← List.singleton_append, ← List.append_assoc, hsplit]
      simp
    · -- the definition is the last of the statements up to it
      have hlast : (before ++ [Token.assign loc .equate (.identifier l n) e]).getLast? =
          (pre ++ t :: post).getLast? := by rw [hsplit]
      rw [← List.cons_append]
      refine List.mem_append_left _ (List.mem_of_getLast? ?_)
      simpa [List.getLast?_append] using hlast.symm
  · exact (Entry.not_prepares_data loc kind es hprepares).elim

end Ahead

/-- Let a program of definitions and data be reordered, and let both orders define names ahead. If no failure is
reported either way, then the same names are exported. -/
theorem exports_eq_of_definesAhead (a : Assembler) {scope : Scope} {source source' : List Token} (hroot : scope.IsRoot)
    (hradix : (scope.binding Scope.radixName).isSet = true) (hsource : ∀ t ∈ source, Entry.IsPlain t)
    (hperm : source.Perm source') (hahead : a.DefinesAhead scope source) (hahead' : a.DefinesAhead scope source')
    (hok : ∀ t ∈ (a.assemble scope source).tokens, t.fails = false)
    (hok' : ∀ t ∈ (a.assemble scope source').tokens, t.fails = false) (name : Text) :
    name ∈ (a.assemble scope source).scope.exports ↔ name ∈ (a.assemble scope source').scope.exports := by
  have hsource' : ∀ t ∈ source', Entry.IsPlain t := fun t ht => hsource t (hperm.mem_iff.2 ht)
  have hmem : ∀ {other : List Token} {t : Token}, a.Exports scope other t name → t ∈ other := by
    rintro other t ⟨pre, v, s, hsub, -⟩
    exact hsub.subset (List.mem_append_right _ List.mem_cons_self)
  rw [mem_exports_assemble (fun t ht => (hsource t ht).equate_or_data) hok hradix hroot,
    mem_exports_assemble (fun t ht => (hsource' t ht).equate_or_data) hok' hradix hroot]
  refine or_congr_right (exists_congr fun t => ⟨fun h => ?_, fun h => ?_⟩)
  · exact h.of_definesAhead hroot hsource' hok' (hperm.mem_iff.1 (hmem h)) hahead'
  · exact h.of_definesAhead hroot hsource hok (hperm.mem_iff.2 (hmem h)) hahead

end Assembler

namespace Entry

/-- `X EQU 5`. -/
def equateX : Token :=
  .assign Location.none .equate (.identifier Location.none "X") (.literal Location.none 5)

/-- `Y EQU X+1`. -/
def equateY : Token :=
  .assign Location.none .equate (.identifier Location.none "Y")
    (.binary Location.none .add (.identifier Location.none "X") (.literal Location.none 1))

/-- `DB X`. -/
def byteX : Token := .data Location.none .bytes [.identifier Location.none "X"]

end Entry

open Entry in
/-- `Y EQU X+1` exports a name behind `DB X` as it does in front of it. -/
theorem Assembler.exports_reordered_equateY :
    [equateX, byteX, equateY].Perm [equateX, equateY, byteX] ∧
      ((∃ name, Exports (.bare 0) Scope.initial [equateX, byteX, equateY] equateY name) ↔
        ∃ name, Exports (.bare 0) Scope.initial [equateX, equateY, byteX] equateY name) := by
  have hperm : [equateX, byteX, equateY].Perm [equateX, equateY, byteX] :=
    (List.Perm.swap equateY byteX []).cons equateX
  have hboth : (assemble (.bare 0) Scope.initial [equateX, byteX, equateY]).scope.exports =
      (assemble (.bare 0) Scope.initial [equateX, equateY, byteX]).scope.exports := by decide +kernel
  refine ⟨hperm, (exports_reordered _ isRoot_initial (by decide +kernel) (by decide +kernel) hperm
    (by decide +kernel) (by decide +kernel)).1 (fun name => ?_) equateY⟩
  rw [hboth]

open Entry in
/-- `X EQU 5` stands ahead of `DB X`. -/
theorem Assembler.definesAhead_equateX : DefinesAhead (.bare 0) Scope.initial [equateX, byteX] := by
  intro pre t post heq loc l name e hmem hasks
  -- only the first statement stands in front of the definition, and it asks for nothing
  have hfirst : pre = [] ∧ t = equateX := by
    rcases pre with _ | ⟨first, rest⟩
    · exact ⟨rfl, (List.cons.inj heq).1.symm⟩
    · have hbytes : t :: post <:+ [byteX] := ⟨rest, (List.cons.inj heq).2.symm⟩
      have hlast := List.mem_singleton.1 (hbytes.subset hmem)
      cases hlast
  obtain ⟨-, rfl⟩ := hfirst
  cases hasks with
  | value hdemands =>
    cases hdemands with
    | request hrequests => cases hrequests (.report (.fail Location.none Text.empty))
    | follow hrequests => cases hrequests (.report (.fail Location.none Text.empty))

open Entry in
/-- `X EQU 5` exports X in front of `DB X`, and not behind it. -/
theorem Assembler.exists_reordered_not_exports :
    let early := assemble (.bare 0) Scope.initial [equateX, byteX]
    let late := assemble (.bare 0) Scope.initial [byteX, equateX]
    Scope.initial.find? "X" = none ∧ [equateX, byteX].Perm [byteX, equateX] ∧
      (∀ t ∈ early.tokens, t.fails = false) ∧ (∀ t ∈ late.tokens, t.fails = false) ∧
      early.scope.exports = ["X"] ∧ late.scope.exports = [] :=
  ⟨rfl, .swap _ _ [], by decide +kernel, by decide +kernel, by decide +kernel, by decide +kernel⟩

end MacroAsm
