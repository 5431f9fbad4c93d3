import MacroAsm.Proofs.Assembly.Evolution
import MacroAsm.Proofs.Eval.Action

/-!
# Properties of symbols that last

A property of symbols that every entry of `Scope.Evolves` hands on, as in `Scope.Lasting`, holds of every
symbol of a scope for good once it does (`Scope.Evolves.everywhere`). The property may tell the symbols of
the root frame from those of open units.
-/

namespace MacroAsm

namespace Frame

variable {P : Symbol → Prop} {f : Frame}

/-- Every symbol of a frame has a property. -/
def All (P : Symbol → Prop) (f : Frame) : Prop := ∀ entry ∈ f.entries, P entry.2

/-- What is found under a name is among the entries. -/
theorem mem_entries_of_find? {name : Text} {sym : Symbol} (h : f.find? name = some sym) :
    (name, sym) ∈ f.entries := by
  obtain ⟨before, after, hentries, -⟩ := List.lookup_eq_some_iff.1 h
  rw [hentries]
  exact List.mem_append_right before List.mem_cons_self

theorem All.of_find? (h : f.All P) {name : Text} {sym : Symbol} (hfind : f.find? name = some sym) :
    P sym :=
  h (name, sym) (mem_entries_of_find? hfind)

theorem all_empty : Frame.empty.All P := fun _ h => absurd h List.not_mem_nil

/-- A change of the symbol of a name that keeps its property. -/
theorem All.modify (h : f.All P) {name : Text} {g : Symbol → Symbol}
    (hg : ∀ sym, f.find? name = some sym → P sym → P (g sym)) : (f.modify name g).All P := by
  obtain ⟨entries⟩ := f
  simp only [All, Frame.modify, Frame.find?] at *
  induction entries with
  | nil => exact fun entry hentry => absurd hentry List.not_mem_nil
  | cons e rest ih =>
    obtain ⟨n, sym⟩ := e
    rw [List.forall_mem_cons] at h
    by_cases hn : n = name
    · subst hn
      rw [modifyEntries, if_pos (beq_self_eq_true n), List.forall_mem_cons]
      exact ⟨hg sym (by rw [List.lookup_cons_self]) h.1, h.2⟩
    · have hne : (name == n) = false := beq_eq_false_iff_ne.2 (Ne.symm hn)
      rw [modifyEntries, if_neg (by simpa using hn), List.forall_mem_cons]
      refine ⟨h.1, ih h.2 fun sym' hsym' => hg sym' ?_⟩
      rwa [List.lookup_cons, hne]

/-- A symbol with the property is entered. -/
theorem All.insert (h : f.All P) (name : Text) {sym : Symbol} (hsym : P sym) :
    (f.insert name sym).All P := by
  rw [Frame.insert]
  split
  · exact h.modify fun _ _ _ => hsym
  · intro entry hentry
    rcases List.mem_append.1 hentry with hentry | hentry
    · exact h entry hentry
    · rw [List.mem_singleton.1 hentry]
      exact hsym

theorem All.erase (h : f.All P) (name : Text) : (f.erase name).All P :=
  fun entry hentry => h entry (List.mem_of_mem_eraseP hentry)

end Frame

namespace Scope

/-- Every symbol of the root frame has the property `P false`, and every symbol of an open unit the
property `P true`. -/
structure Everywhere (P : Bool → Symbol → Prop) (s : Scope) : Prop where
  /-- The root frame. -/
  root : s.root.All (P false)
  /-- The frames of the open units. -/
  inner : ∀ f ∈ s.inner, f.All (P true)

/-- A property of symbols that the handling of statements hands on. -/
structure Lasting (ok : Macro → Prop) (P : Bool → Symbol → Prop) : Prop where
  /-- A symbol changes. -/
  changes : ∀ inner sym sym', sym.Changes sym' → P inner sym → P inner sym'
  /-- A name is declared in an open unit. -/
  declared : P true {}
  /-- A name becomes global. -/
  promoted : ∀ inner sym, P inner sym → P false (promote sym)
  /-- A name is bound by DEFINE. -/
  defined : ∀ inner sym value loc, P inner sym →
    P inner { sym with value := some value, loc, define := true }
  /-- A name is bound to a macro. -/
  template : ∀ sym m loc, ok m → P true sym → P true { sym with value := none, template := some m, loc }
  /-- A name is bound as a block begins. -/
  bound : ∀ sym value loc, P true sym → P true { sym with value := some value, loc, used := true }
  /-- A name moves to the frame of the block around. -/
  absorbed : ∀ old sym, P true old → P true (absorb old sym)
  /-- A name is merged. -/
  merged : ∀ inner test onTrue onFalse here name r, onTrue.All (P inner) → onFalse.All (P inner) →
    here.All (P inner) → MergeStep test onTrue onFalse here name r → r.1.All (P inner)

section Everywhere

variable {ok : Macro → Prop} {P : Bool → Symbol → Prop} {s : Scope}

/-- A change of the innermost frame of an open unit. -/
theorem Everywhere.modifyTop (h : s.Everywhere P) (hs : s.inner ≠ []) {g : Frame → Frame}
    (hg : s.top.All (P true) → (g s.top).All (P true)) : (s.modifyTop g).Everywhere P := by
  cases hinner : s.inner with
  | nil => exact absurd hinner hs
  | cons f rest =>
    have hall := h.inner
    rw [hinner, List.forall_mem_cons] at hall
    rw [top, hinner, List.headD_cons] at hg
    rw [Scope.modifyTop, hinner]
    exact ⟨h.root, List.forall_mem_cons.2 ⟨hg hall.1, hall.2⟩⟩

/-- A change of the frame of the innermost symbol of a name. -/
theorem Everywhere.modifyFrameOf (h : s.Everywhere P) {name : Text} {g : Frame → Frame}
    (hg : ∀ (inner : Bool) (f : Frame) (sym : Symbol), f.find? name = some sym →
      s.find? name = some sym → f.All (P inner) → (g f).All (P inner)) :
    (s.modifyFrameOf name g).Everywhere P := by
  have hrel := modifyFrameOf_rel (R := fun f f' => f.All (P true) → f'.All (P true))
    (Q := fun f f' => f.All (P false) → f'.All (P false)) (fun _ h => h) (fun _ h => h)
    (fun f _ sym hsym hfind => hg true f sym hsym hfind) (fun sym hsym hfind => hg false _ sym hsym hfind)
  refine ⟨hrel.2 h.root, ?_⟩
  have hforall : ∀ {fs gs : List Frame}, List.Forall₂ (fun f f' => f.All (P true) → f'.All (P true)) fs gs →
      (∀ f ∈ fs, f.All (P true)) → ∀ f ∈ gs, f.All (P true) := by
    intro fs gs hfs hall
    induction hfs with
    | nil => exact hall
    | cons hfg _ ih =>
      rw [List.forall_mem_cons] at hall ⊢
      exact ⟨hfg hall.1, ih hall.2⟩
  exact hforall hrel.1 h.inner

/-- Declaring a name in the innermost frame of an open unit. -/
theorem Everywhere.declareLocal (hP : Lasting ok P) (h : s.Everywhere P) (hs : s.inner ≠ [])
    {s' : Scope} {name : Text} (hdeclare : s.declareLocal name = .ok s') : s'.Everywhere P := by
  cases (declareLocal_eq_ok hdeclare).2 with
  | kept => exact h
  | entered => exact h.modifyTop hs fun htop => htop.insert name hP.declared

/-- Declaring a name in the root frame. -/
theorem Everywhere.declareGlobal (hP : Lasting ok P) (h : s.Everywhere P) {s' : Scope} {name : Text}
    (hdeclare : s.declareGlobal name = .ok s') : s'.Everywhere P := by
  cases declareGlobal_eq_ok hdeclare with
  | kept => exact h
  | promoted => exact ⟨h.root.modify fun sym _ hsym => hP.promoted false sym hsym, h.inner⟩
  | entered => exact ⟨h.root.insert name (hP.promoted true _ hP.declared), h.inner⟩
  | @moved sym _ hin =>
    obtain ⟨f, hf, hfind⟩ := exists_of_findIn hin
    have herase : (s.modifyFrameOf name fun f => f.erase name).Everywhere P :=
      h.modifyFrameOf fun inner f sym _ _ hall => hall.erase name
    -- the symbol leaves its frame, as if it were removed there
    have hinner : (s.modifyFrameOf name fun f => f.erase name).inner =
        (modifyOwner name (fun f => f.erase name) s.inner).1 := by
      rw [Scope.modifyFrameOf]
      simp only [modifyOwner_snd, hin, Option.isSome_some, if_true]
    refine ⟨h.root.insert name (hP.promoted true sym ((h.inner f hf).of_find? hfind)), ?_⟩
    rw [← hinner]
    exact herase.inner

/-- Moving a name to the frame below. -/
theorem Everywhere.hoist (hP : Lasting ok P) (h : s.Everywhere P) (name : Text) :
    (s.hoist name).1.Everywhere P := by
  rw [hoist.eq_def]
  split
  · rename_i f below rest hinner
    have hall := h.inner
    rw [hinner, List.forall_mem_cons, List.forall_mem_cons] at hall
    cases hfind : f.find? name with
    | none => exact h
    | some sym =>
      refine ⟨h.root, ?_⟩
      simp only [List.forall_mem_cons]
      refine ⟨hall.1.erase name, ?_, hall.2.2⟩
      split
      · exact hall.2.1.modify fun old _ hold => hP.absorbed old sym hold
      · exact hall.2.1.insert name (hall.1.of_find? hfind)
  · exact h

/-- Declaring a name keeps a unit open. -/
theorem inner_ne_nil_of_declareLocal (hs : s.inner ≠ []) {s' : Scope} {name : Text}
    (h : s.declareLocal name = .ok s') : s'.inner ≠ [] := by
  cases (declareLocal_eq_ok h).2 with
  | kept => exact hs
  | entered =>
    rw [Scope.modifyTop]
    split
    · exact hs
    · exact List.cons_ne_nil _ _

/-- A block begins with symbols that have the property. -/
theorem Everywhere.opens (hP : Lasting ok P) (h : s.Everywhere P) {t : Scope} (hopens : s.Opens t) :
    t.Everywhere P := by
  induction hopens with
  | nest => exact ⟨h.root, List.forall_mem_cons.2 ⟨Frame.all_empty, h.inner⟩⟩
  | @bind t t' name value loc ht hbind ih =>
    rw [Expand.bindIn] at hbind
    obtain ⟨t1, hdeclare, hok⟩ := Except.bind_eq_ok_iff.1 hbind
    cases hok
    have hopen : t.inner ≠ [] := by
      obtain ⟨f, -, rfl⟩ := ht.exists_top
      exact List.cons_ne_nil _ _
    refine (ih.declareLocal hP hopen hdeclare).modifyTop
      (inner_ne_nil_of_declareLocal hopen hdeclare) fun htop => ?_
    exact htop.modify fun sym _ hsym => hP.bound sym value loc hsym

theorem Everywhere.pointwise {t : Scope} (ht : t.Everywhere P) (h : s.Kept t) :
    Pointwise (fun _ f => f.All (P true)) (fun _ f => f.All (P false)) s t :=
  ⟨(forall₂_and_right h.inner ht.inner).imp fun _ _ hboth => hboth.1, ht.root⟩

/-- The second of two scopes that are related by a property of it has the property. -/
theorem everywhere_of_pointwise {t : Scope}
    (h : Pointwise (fun _ f => f.All (P true)) (fun _ f => f.All (P false)) s t) : t.Everywhere P := by
  refine ⟨h.root, fun f hf => ?_⟩
  obtain ⟨i, hi, rfl⟩ := List.mem_iff_getElem.1 hf
  exact (List.forall₂_iff_get.1 h.inner).2 i (by rw [h.inner.length_eq]; exact hi) hi

/-- Merging forks whose symbols have the property. -/
theorem everywhere_mergeForks (hP : Lasting ok P) {here fallback : Scope}
    (hhere : Pointwise (fun _ f => f.All (P true)) (fun _ f => f.All (P false)) s here)
    (hfallback : Pointwise (fun _ f => f.All (P true)) (fun _ f => f.All (P false)) s fallback)
    {forks : List (Expr × Conditional.Fork)}
    (hforks : ∀ arm ∈ forks,
      Pointwise (fun _ f => f.All (P true)) (fun _ f => f.All (P false)) s arm.2.scope) :
    Pointwise (fun _ f => f.All (P true)) (fun _ f => f.All (P false)) s
      (Conditional.mergeForks fallback forks here).1 := by
  refine mergeForks_rec (fun here test onTrue onFalse hh ht hf => ?_) hhere hfallback hforks
  exact merge_rec
    (fun _ t f here name r ht hf hh hstep => hP.merged true _ t f here name r ht hf hh hstep)
    (fun _ t f here name r ht hf hh hstep => hP.merged false _ t f here name r ht hf hh hstep) hh ht hf

/-- A property that lasts holds of every symbol for good. -/
theorem Evolves.everywhere (hP : Lasting ok P) {s s' : Scope} (h : Evolves ok s s')
    (hs : s.WellFormed) (hall : s.Everywhere P) : s'.Everywhere P := by
  induction h with
  | refl s => exact hall
  | trans hst _ ihst ihtv => exact ihtv (hst.preserved hs).wellFormed (ihst hs hall)
  | modify s name g hg =>
    refine hall.modifyFrameOf fun inner f sym hsym hfind hf => hf.modify fun sym' hsym' => ?_
    rw [hsym] at hsym'
    cases hsym'
    exact hP.changes inner sym (g sym) (hg sym hfind)
  | modifyTop s name g hg =>
    exact hall.modifyTop hs.isOpen fun htop =>
      htop.modify fun sym hsym => hP.changes true sym (g sym) (hg sym hsym)
  | modifyRoot s name g hg =>
    exact ⟨hall.root.modify fun sym hsym => hP.changes false sym (g sym) (hg sym hsym), hall.inner⟩
  | declareLocal h => exact hall.declareLocal hP hs.isOpen h
  | declareGlobal h => exact hall.declareGlobal hP h
  | define hnone h value loc =>
    refine (hall.declareGlobal hP h).modifyFrameOf fun inner f sym _ _ hf => ?_
    exact hf.modify fun sym _ hsym => hP.defined inner sym value loc hsym
  | remove hfind h => exact hall.modifyFrameOf fun inner f sym _ _ hf => hf.erase _
  | defineMacro s name hm loc =>
    exact hall.modifyTop hs.isOpen fun htop =>
      htop.modify fun sym _ hsym => hP.template sym _ loc hm hsym
  | hoist => exact hall.hoist hP _
  | block hopens hrun ih =>
    have hv := ih (hs.of_opens hopens) (hall.opens hP hopens)
    exact ⟨hv.root, fun f hf => hv.inner f (List.mem_of_mem_tail hf)⟩
  | fork s forks after hforks hafter last hlast ihforks ihlast =>
    -- every arm leaves a copy of the scope whose symbols have the property
    have harm : ∀ {t : Scope}, Evolves ok s.nest t → t.Everywhere P →
        Pointwise (fun _ f => f.All (P true)) (fun _ f => f.All (P false)) s t.unnest := by
      intro t hrun ht
      have hunnest : t.unnest.Everywhere P :=
        ⟨ht.root, fun f hf => ht.inner f (List.mem_of_mem_tail hf)⟩
      exact hunnest.pointwise (kept_unnest .nest (hrun.preserved (hs.of_opens .nest)))
    have hnest := hall.opens hP .nest
    refine everywhere_of_pointwise (everywhere_mergeForks hP (hall.pointwise hs.kept) ?_ ?_)
    · cases last with
      | none => exact hall.pointwise hs.kept
      | some t => exact harm (hlast t rfl) (ihlast t rfl (hs.of_opens .nest) hnest)
    · intro arm hmem
      rw [hafter arm hmem]
      exact harm (hforks arm hmem) (ihforks arm hmem (hs.of_opens .nest) hnest)

end Everywhere

end Scope

end MacroAsm
