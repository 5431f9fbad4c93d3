import Mathlib
import MacroAsm.Proofs.Assembly.Conducting
import MacroAsm.Proofs.Assembly.Hygiene
import MacroAsm.Proofs.Assembly.Linkable
import MacroAsm.Proofs.Assembly.StandIn

/-!
# Macros and values

A symbol is bound to a value or to a macro. MACRO takes away the value that a symbol had, but SET and RADIX do not
take away its macro, so that a SET of the name of a macro leaves a symbol with both (`Assembler.assemble_mixed`).
Nothing else mixes them: in a run that ends where SET or RADIX would bind a symbol that holds a macro, no symbol of
any frame holds both at any moment, and a program for which that makes no difference leaves none with both
(`Assembler.assemble_unmixed`). It makes none for a program with neither SET nor RADIX in it
(`Assembler.unmixed_of_steady`).

The merge of two arms takes macros from the first arm and values from the scope around, so it is not enough that the
scopes which are merged are unmixed: a name must not be bound to a macro in one of them and to a value in another
one. They do not disagree in that way because an arm changes what is below its own frame, and there it removes macros
but enters no names (`Scope.Conducts.classes`).
-/

namespace MacroAsm

/-- Whether a symbol holds no value or no macro. -/
def Symbol.isUnmixed (sym : Symbol) : Bool := sym.value.isNone || sym.template.isNone

/-- Whether SET and RADIX take no macro over when they bind a symbol: it holds none. -/
def Bind.sparesMacro (_ : Text) (sym : Symbol) : Bool := !sym.isMacro

/-- Whether no symbol of any frame holds a value and a macro. -/
def Scope.isUnmixed (s : Scope) : Bool :=
  (s.root :: s.inner).all fun f => f.entries.all fun entry => entry.2.isUnmixed

namespace Symbol

/-- A symbol that may be in the frame of an open unit, or in the root frame: it holds no macro, or no value and is
in an open unit. -/
def Parted (inner : Bool) (sym : Symbol) : Prop := sym.template = none ∨ inner = true ∧ sym.value = none

variable {inner : Bool} {sym sym' : Symbol}

/-- A symbol that may hold a macro, or a value. -/
def OnSide : Bool → Symbol → Prop
  | true, sym => sym.value = none
  | false, sym => sym.template = none

theorem Parted.isUnmixed (h : sym.Parted inner) : sym.isUnmixed = true := by
  rcases h with h | ⟨-, h⟩ <;> rw [Symbol.isUnmixed, h] <;> simp

/-- A symbol on either side is parted. -/
theorem OnSide.parted {isMacro : Bool} (h : sym.OnSide isMacro) : sym.Parted true := by
  cases isMacro with
  | true => exact Or.inr ⟨rfl, h⟩
  | false => exact Or.inl h

theorem isSet_eq_false_iff : sym.isSet = false ↔ sym.value = none ∧ sym.template = none := by
  rw [isSet, Bool.or_eq_false_iff, Option.isSome_eq_false_iff, Option.isSome_eq_false_iff,
    Option.isNone_iff_eq_none, Option.isNone_iff_eq_none]

theorem Parted.congr (h : sym.Parted inner) (hvalue : sym'.value = sym.value)
    (htemplate : sym'.template = sym.template) : sym'.Parted inner := by
  rwa [Parted, hvalue, htemplate]

end Symbol

namespace Frame

/-- Every symbol of a frame has a property, which may depend on its name. -/
def AllNamed (P : Text → Symbol → Prop) (f : Frame) : Prop := ∀ name sym, f.find? name = some sym → P name sym

section AllNamed

variable {P : Text → Symbol → Prop} {f : Frame} {name : Text}

/-- A changed symbol has the property. -/
theorem AllNamed.modify (h : f.AllNamed P) {g : Symbol → Symbol}
    (hg : ∀ sym, f.find? name = some sym → P name sym → P name (g sym)) : (f.modify name g).AllNamed P := by
  intro other sym hsym
  rw [find?_modify] at hsym
  split at hsym
  · rename_i heq
    subst heq
    obtain ⟨old, hold, rfl⟩ := Option.map_eq_some_iff.1 hsym
    exact hg old hold (h other old hold)
  · exact h other sym hsym

/-- A symbol that is entered has the property. -/
theorem AllNamed.insert (h : f.AllNamed P) {sym : Symbol} (hsym : P name sym) : (f.insert name sym).AllNamed P := by
  intro other found hfound
  rw [find?_insert] at hfound
  split at hfound
  · rename_i heq
    cases hfound
    exact heq ▸ hsym
  · exact h other found hfound

/-- A name is removed. -/
theorem AllNamed.erase (h : f.AllNamed P) (hnodup : f.names.Nodup) (name : Text) : (f.erase name).AllNamed P := by
  intro other sym hsym
  rw [find?_erase hnodup] at hsym
  split at hsym
  · cases hsym
  · exact h other sym hsym

end AllNamed

/-- Every name of a frame is in another one, and bound to a macro in both of them or in none. -/
def Classes (o f : Frame) : Prop :=
  f.AllNamed fun name sym => ∃ old, o.find? name = some old ∧ sym.isMacro = old.isMacro

/-- The names of a frame that another one binds to macros hold no value, and the others hold no macro. -/
def Sides (o f : Frame) : Prop :=
  f.AllNamed fun name sym => sym.OnSide (o.macroAt name).isSome

variable {o f f' : Frame}

theorem Classes.refl (f : Frame) : f.Classes f := fun _ sym hsym => ⟨sym, hsym, rfl⟩

/-- What is in the frame in between is in the first one. -/
theorem Classes.trans (h : o.Classes f) (h' : f.Classes f') : o.Classes f' := by
  intro name sym hsym
  obtain ⟨mid, hmid, heq⟩ := h' name sym hsym
  obtain ⟨old, hold, heq'⟩ := h name mid hmid
  exact ⟨old, hold, heq.trans heq'⟩

/-- A change of a symbol that keeps its macro. -/
theorem classes_modify (f : Frame) (name : Text) {g : Symbol → Symbol}
    (hg : ∀ sym, (g sym).template = sym.template) : f.Classes (f.modify name g) := by
  refine AllNamed.modify (Classes.refl f) fun sym _ hsym => ?_
  rw [Symbol.isMacro, hg]
  exact hsym

/-- A parted frame whose names are what they were in another one is on the sides of that. -/
theorem Classes.sides (h : o.Classes f) (hf : f.All (Symbol.Parted true)) : o.Sides f := by
  intro name sym hsym
  obtain ⟨old, hold, heq⟩ := h name sym hsym
  rw [Symbol.isMacro, Symbol.isMacro] at heq
  rw [Frame.macroAt, hold, Option.bind_some, ← heq]
  rcases hf.of_find? hsym with htemplate | ⟨-, hvalue⟩
  · rw [htemplate]
    exact htemplate
  · cases hmacro : sym.template with
    | none => exact hmacro
    | some m => exact hvalue

/-- A frame without macros has none under any name. -/
theorem macroAt_of_all (h : f.All (Symbol.Parted false)) (name : Text) : f.macroAt name = none := by
  rw [macroAt, Option.bind_eq_none_iff]
  intro sym hsym
  rcases h.of_find? hsym with htemplate | ⟨hinner, -⟩
  · exact htemplate
  · cases hinner

/-- Frames without macros are on the sides of each other. -/
theorem sides_of_all (ho : o.All (Symbol.Parted false)) (hf : f.All (Symbol.Parted false)) : o.Sides f := by
  intro name sym hsym
  have htemplate := macroAt_of_all hf name
  rw [macroAt, hsym] at htemplate
  rw [macroAt_of_all ho]
  exact htemplate

theorem Sides.all (h : o.Sides f) (hnodup : f.names.Nodup) : f.All (Symbol.Parted true) := by
  exact fun entry hentry => (h entry.1 entry.2 (find?_of_mem_entries hnodup hentry)).parted

/-- A frame that is on the sides of one without macros has none. -/
theorem Sides.all_root (h : o.Sides f) (hnodup : f.names.Nodup) (ho : o.All (Symbol.Parted false)) :
    f.All (Symbol.Parted false) := by
  intro entry hentry
  have hside : entry.2.OnSide (o.macroAt entry.1).isSome := h entry.1 entry.2 (find?_of_mem_entries hnodup hentry)
  rw [macroAt_of_all ho] at hside
  exact Or.inl hside

end Frame

namespace Scope

/-- What merging keeps of a name: it depends only on what a symbol is bound to, and what is merged of symbols that
have it has it. -/
structure Merges (P : Symbol → Prop) : Prop where
  /-- It depends on what the symbol is bound to. -/
  bound : ∀ sym sym' : Symbol, sym'.value = sym.value → sym'.template = sym.template → P sym → P sym'
  /-- It is kept by merging symbols that are set. -/
  merged : ∀ test hs ts fs m, P hs → P ts → P fs → MergedSymbol test hs ts fs m → P m

theorem bound_carry (dst : Symbol) (src : Option Symbol) :
    (carry dst src).value = dst.value ∧ (carry dst src).template = dst.template := by
  cases src <;> exact ⟨rfl, rfl⟩

section Merge

variable {P : Text → Symbol → Prop} {test : Expr} {onTrue onFalse here o : Frame} {name : Text}
  {r : Frame × Option Cause}

/-- Merging a name keeps a property of the symbols of all frames. -/
theorem MergeStep.all (hP : ∀ name, Merges (P name)) (htrue : onTrue.AllNamed P) (hfalse : onFalse.AllNamed P)
    (hhere : here.AllNamed P) (hnodup : here.names.Nodup) (h : MergeStep test onTrue onFalse here name r) :
    r.1.AllNamed P := by
  -- the symbol that a merge of two set symbols starts from
  have hbase : ∀ {ts : Symbol}, onTrue.find? name = some ts → P name ((here.find? name).getD ts) := by
    intro ts hts
    cases hfind : here.find? name with
    | none => exact htrue name ts hts
    | some hs => exact hhere name hs hfind
  cases h with
  | reserved | unbalanced | absent => exact hhere
  | removed => exact hhere.erase hnodup name
  | @both ts fs merged _ hts hfs htsSet hfsSet hmerge =>
    refine hhere.insert ?_
    exact (hP name).merged test _ ts fs merged (hbase hts) (htrue name ts hts) (hfalse name fs hfs)
      (mergedSymbol_of_mergeSet htsSet hfsSet hmerge)
  | clash _ hts => exact hhere.insert (hbase hts)
  | declared _ htrueUnset hfalseUnset _ hsome =>
    refine hhere.insert ((hP name).bound ((here.find? name).getD {}) _ ?_ ?_ ?_)
    · rw [(bound_carry _ _).1, (bound_carry _ _).1]
    · rw [(bound_carry _ _).2, (bound_carry _ _).2]
    · -- a new symbol is bound to what the unset one of an arm is bound to, which is nothing
      have hnew : ∀ {f : Frame} {sym : Symbol}, f.AllNamed P → f.isSetAt name = false → f.find? name = some sym →
          P name {} := by
        intro f sym hf hunset hsym
        rw [Frame.isSetAt, hsym] at hunset
        obtain ⟨hvalue, htemplate⟩ := Symbol.isSet_eq_false_iff.1 hunset
        exact (hP name).bound sym {} hvalue.symm htemplate.symm (hf name sym hsym)
      cases hfind : here.find? name with
      | some hs => exact hhere name hs hfind
      | none =>
        rw [hfind, Option.isSome_none, Option.isSome_iff_exists, Option.isSome_iff_exists] at hsome
        rcases hsome with hsome | ⟨sym, hsym⟩ | ⟨sym, hsym⟩
        · cases hsome
        · exact hnew htrue htrueUnset hsym
        · exact hnew hfalse hfalseUnset hsym

/-- Being bound to a macro in both of two frames or in none is kept. -/
theorem merges_classes (o : Frame) (name : Text) :
    Merges fun sym => ∃ old, o.find? name = some old ∧ sym.isMacro = old.isMacro where
  bound sym sym' _ htemplate := by
    rintro ⟨old, hold, heq⟩
    exact ⟨old, hold, by rw [← heq, Symbol.isMacro, Symbol.isMacro, htemplate]⟩
  merged test hs ts fs m := by
    rintro ⟨old, hold, hhere⟩ ⟨old', hold', htrue⟩ - hmerged
    rw [hold, Option.some.injEq] at hold'
    subst hold'
    refine ⟨old, hold, ?_⟩
    cases hmerged with
    | sameMacro htemplate => rw [← htrue, Symbol.isMacro, Symbol.isMacro, htemplate]
    | sameValue _ _ _ _ _ _ _ htemplate => rw [← hhere, Symbol.isMacro, Symbol.isMacro, htemplate]
    | choice _ _ _ _ _ htemplate => rw [← hhere, Symbol.isMacro, Symbol.isMacro, htemplate]

/-- Being on a side is kept. -/
theorem merges_sides (isMacro : Bool) : Merges (Symbol.OnSide isMacro) where
  bound sym sym' hvalue htemplate h := by
    cases isMacro with
    | true => exact hvalue.trans h
    | false => exact htemplate.trans h
  merged test hs ts fs m hhere htrue _ hmerged := by
    cases isMacro with
    | true =>
      -- the arms hold no value, so they were merged by their macros
      cases hmerged with
      | sameMacro _ _ _ _ hvalue => exact hvalue.trans hhere
      | sameValue hts | choice hts => exact absurd (htrue.symm.trans hts) nofun
    | false =>
      cases hmerged with
      | sameMacro htemplate => exact htemplate.trans htrue
      | sameValue _ _ _ _ _ _ _ htemplate => exact htemplate.trans hhere
      | choice _ _ _ _ _ htemplate => exact htemplate.trans hhere

end Merge

variable {may : Text → Symbol → Bool} {s s' t v v' : Scope} {name : Text}

section Lower

/-- The frames below the innermost one are related if all are. -/
theorem tail_forall₂ {R : Frame → Frame → Prop} {fs gs : List Frame} (h : List.Forall₂ R fs gs) :
    List.Forall₂ R fs.tail gs.tail := by
  cases h with
  | nil => exact .nil
  | cons _ hrest => exact hrest

theorem forall₂_classes_refl (fs : List Frame) : List.Forall₂ Frame.Classes fs fs :=
  List.forall₂_same.2 fun f _ => .refl f

/-- A change of the innermost frame leaves those below. -/
@[simp]
theorem tail_inner_modifyTop (s : Scope) (g : Frame → Frame) : (s.modifyTop g).inner.tail = s.inner.tail := by
  rw [modifyTop]
  split <;> rename_i hinner <;> rw [hinner]
  rfl

/-- A change of the innermost symbol of a name that keeps its macro. -/
theorem classes_modify (s : Scope) (name : Text) {g : Symbol → Symbol}
    (hg : ∀ sym, (g sym).template = sym.template) : List.Forall₂ Frame.Classes s.inner (s.modify name g).inner :=
  (modifyFrameOf_rel (Q := fun _ _ => True) Frame.Classes.refl (fun _ => trivial)
    (fun f _ _ _ _ => Frame.classes_modify f name hg) fun _ _ _ => trivial).1

/-- Declaring a name in the innermost frame leaves those below. -/
theorem tail_inner_declareLocal (h : s.declareLocal name = .ok s') : s'.inner.tail = s.inner.tail := by
  cases (declareLocal_eq_ok h).2 with
  | kept => rfl
  | entered => rw [tail_inner_modifyTop]

/-- Declaring a name in the root frame enters none in the others. -/
theorem classes_declareGlobal (hs : s.WellFormed) (h : s.declareGlobal name = .ok s') :
    List.Forall₂ Frame.Classes s.inner s'.inner := by
  cases declareGlobal_eq_ok h with
  | kept | promoted | entered => exact forall₂_classes_refl _
  | moved =>
    exact modifyOwner_forall₂ Frame.Classes.refl fun f hf _ _ _ =>
      Frame.AllNamed.erase (Frame.Classes.refl f) (hs.inner f hf).nodup name

/-- What a statement does without a block of its own enters no name below the innermost frame, and binds none there
to a macro. -/
theorem Acts.classes (h : s.Acts may s') (hs : s.WellFormed) :
    List.Forall₂ Frame.Classes s.inner.tail s'.inner.tail := by
  cases h with
  | mark name g hg _ => exact tail_forall₂ (classes_modify s name fun sym => (hg sym).template)
  | markRoot => exact forall₂_classes_refl _
  | declareAhead _ h =>
    rw [tail_inner_declareLocal h]
    exact forall₂_classes_refl _
  | declareLocal h | defineMacro h =>
    rw [tail_inner_modifyTop, tail_inner_declareLocal h]
    exact forall₂_classes_refl _
  | declareGlobal h => exact tail_forall₂ (classes_declareGlobal hs h)
  | assign | radix | bind => exact tail_forall₂ (classes_modify s _ fun _ => rfl)
  | define _ h =>
    exact tail_forall₂ (forall₂_trans (R := Frame.Classes) (fun _ _ _ h h' => h.trans h')
      (classes_declareGlobal hs h) (classes_modify _ _ fun _ => rfl))
  | @remove name =>
    refine tail_forall₂ (modifyFrameOf_rel (Q := fun _ _ => True) Frame.Classes.refl (fun _ => trivial)
      (fun f hf _ _ _ => ?_) fun _ _ _ => trivial).1
    exact Frame.AllNamed.erase (Frame.Classes.refl f) (hs.inner f hf).nodup name

/-- Names that move at the end of a block stay within two frames. -/
theorem Hoists.tail_tail_inner (h : v.Hoists v') : v'.inner.tail.tail = v.inner.tail.tail := by
  induction h with
  | refl => rfl
  | @step v v' name _ _ _ _ _ _ ih =>
    rw [ih, hoist.eq_def]
    split
    · rename_i hinner
      rw [hinner]
      split <;> simp [hinner]
    · rfl

/-- What happens in a block to the frames below its own, and at its end to those further down. -/
theorem classes_unnest (hopens : s.Opens t) (hrun : List.Forall₂ Frame.Classes t.inner.tail v.inner.tail)
    (hends : v.Hoists v') : List.Forall₂ Frame.Classes s.inner.tail v'.unnest.inner.tail := by
  obtain ⟨f, -, rfl⟩ := hopens.exists_top
  rw [Scope.unnest, hends.tail_tail_inner]
  exact tail_forall₂ hrun

/-- Whatever is done to a scope enters no name below the innermost frame, and binds none there to a macro. -/
theorem Conducts.classes (h : Conducts may s s') (hs : s.WellFormed) :
    List.Forall₂ Frame.Classes s.inner.tail s'.inner.tail := by
  induction h with
  | refl => exact forall₂_classes_refl _
  | trans hst _ ihst ihtv =>
    exact forall₂_trans (R := Frame.Classes) (fun _ _ _ h h' => h.trans h') (ihst hs) (ihtv (hst.wellFormed hs))
  | act h => exact h.classes hs
  | block hopens _ hends ih => exact classes_unnest hopens (ih (hs.of_opens hopens)) hends
  | fork s forks ran ended hforks hends hended last hlast hlastEnds ihforks ihlast =>
    have hnest := hs.of_opens .nest
    -- the frames of the arms bind each name once, which the merge of names asks for
    have hlower : ∀ {u u' : Scope}, Conducts may s.nest u → u.Hoists u' →
        List.Forall₂ Frame.Classes s.nest.inner.tail u.inner.tail →
        List.Forall₂ (fun o f => f.names.Nodup ∧ o.Classes f) s.inner.tail u'.unnest.inner.tail := by
      intro u u' hu hu' hclasses
      have hwell := ((hu'.evolves fun _ => True).preserved (hu.wellFormed hnest)).wellFormed
      refine forall₂_and_right (classes_unnest .nest hclasses hu') fun f hf => ?_
      exact (hwell.inner f (List.mem_of_mem_tail (List.mem_of_mem_tail hf))).nodup
    have hself : List.Forall₂ (fun o f => f.names.Nodup ∧ o.Classes f) s.inner.tail s.inner.tail :=
      forall₂_and_right (forall₂_classes_refl _) fun f hf => (hs.inner f (List.mem_of_mem_tail hf)).nodup
    refine List.Forall₂.imp (fun _ _ h => h.2) (mergeForks_rec
      (P := fun v => List.Forall₂ (fun o f => f.names.Nodup ∧ o.Classes f) s.inner.tail v.inner.tail)
      (fun here test onTrue onFalse hh ht hf => ?_) hself ?_ fun arm harm => ?_)
    · rcases tail_inner_merge here test onTrue onFalse with heq | heq
      · rwa [heq]
      · rw [heq]
        exact mergeInner_rec (fun o _ _ _ _ _ ht hf hh hstep => ⟨hstep.nodup hh.1,
          hstep.all (merges_classes o) ht.2 hf.2 hh.2 hh.1⟩) hh ht hf
    · cases last with
      | none => exact hself
      | some u => exact hlower (hlast u rfl) (hlastEnds u rfl) (ihlast u rfl hnest)
    · rw [hended arm harm]
      exact hlower (hforks arm harm) (hends arm harm) (ihforks arm harm hnest)

end Lower

/-- A scope in which symbols hold values or macros, and those of the root frame no macros. -/
abbrev Parted (s : Scope) : Prop := s.Everywhere Symbol.Parted

/-- A scope whose frames are on the sides of those of another one. -/
def Sided (s v : Scope) : Prop :=
  Pointwise (fun o f => f.names.Nodup ∧ o.Sides f) (fun o f => f.names.Nodup ∧ o.Sides f) s v

section Parted

/-- In a parted scope no symbol holds both. -/
theorem Everywhere.isUnmixed (h : s.Parted) : s.isUnmixed = true := by
  have hframe : ∀ {inner : Bool} {f : Frame}, f.All (Symbol.Parted inner) →
      (f.entries.all fun entry => entry.2.isUnmixed) = true :=
    fun hf => List.all_eq_true.2 fun entry hentry => (hf entry hentry).isUnmixed
  rw [Scope.isUnmixed, List.all_cons, Bool.and_eq_true]
  refine ⟨hframe h.root, List.all_eq_true.2 fun f hf => hframe (h.inner f hf)⟩

/-- A scope that is on the sides of a parted one is parted. -/
theorem Sided.parted (h : s.Sided v) (hs : s.Parted) : v.Parted := by
  refine ⟨h.root.2.all_root h.root.1 hs.root, fun f hf => ?_⟩
  obtain ⟨i, hi, rfl⟩ := List.getElem_of_mem hf
  obtain ⟨hnodup, hsides⟩ := h.inner.get (h.inner.length_eq ▸ hi) hi
  exact hsides.all hnodup

theorem sided_self (hs : s.WellFormed) (h : s.Parted) : s.Sided s :=
  ⟨List.forall₂_same.2 fun f hf => ⟨(hs.inner f hf).nodup, (Frame.Classes.refl f).sides (h.inner f hf)⟩,
    hs.root, Frame.sides_of_all h.root h.root⟩

/-- A change of the innermost symbol of a name after which it holds no value or no macro. -/
theorem Everywhere.modify_parted (h : s.Parted) {g : Symbol → Symbol}
    (hg : ∀ inner sym, s.find? name = some sym → sym.Parted inner → (g sym).Parted inner) :
    (s.modify name g).Parted := by
  refine h.modifyFrameOf fun inner f sym hsym hfind hf => hf.modify fun sym' hsym' => ?_
  rw [hsym] at hsym'
  cases hsym'
  exact hg inner sym hfind

/-- A name is declared in the innermost frame, and its symbol changed. -/
theorem Everywhere.declareLocal_parted (h : s.Parted) (hs : s.WellFormed) (hdeclare : s.declareLocal name = .ok s') :
    s'.Parted := by
  cases (declareLocal_eq_ok hdeclare).2 with
  | kept => exact h
  | entered => exact h.modifyTop hs.isOpen fun htop => htop.insert name (Or.inl rfl)

/-- A name is declared in the root frame. It was unset, if it moves there. -/
theorem Everywhere.declareGlobal_parted (h : s.Parted) (hdeclare : s.declareGlobal name = .ok s') : s'.Parted := by
  cases declareGlobal_eq_ok hdeclare with
  | kept => exact h
  | promoted => exact ⟨h.root.modify fun sym _ hsym => hsym, h.inner⟩
  | entered => exact ⟨h.root.insert name (Or.inl rfl), h.inner⟩
  | @moved sym _ hin hunset =>
    refine ⟨h.root.insert name (Or.inl (Symbol.isSet_eq_false_iff.1 hunset).2), ?_⟩
    have herase : (s.modifyFrameOf name fun f => f.erase name).Parted :=
      h.modifyFrameOf fun inner f sym _ _ hall => hall.erase name
    have hinner : (s.modifyFrameOf name fun f => f.erase name).inner =
        (modifyOwner name (fun f => f.erase name) s.inner).1 := by
      rw [Scope.modifyFrameOf]
      simp only [modifyOwner_snd, hin, Option.isSome_some, if_true]
    rw [← hinner]
    exact herase.inner

/-- A name that does not exist holds nothing once it is declared in the root frame. -/
theorem find?_declareGlobal_of_none (hnone : s.find? name = none) (h : s.declareGlobal name = .ok s') :
    s'.find? name = some (promote {}) := by
  obtain ⟨hin, hroot⟩ := find?_eq_none_iff.1 hnone
  cases declareGlobal_eq_ok h with
  | kept hfound | promoted hfound => rw [hroot] at hfound; cases hfound
  | moved _ hfound => rw [hin] at hfound; cases hfound
  | entered => rw [find?_eq, hin, Option.orElse_none, Frame.find?_insert, if_pos rfl]

/-- A statement without a block of its own binds no symbol to a value and a macro, if SET and RADIX bind none that
holds a macro. -/
theorem Acts.parted (h : s.Acts Bind.sparesMacro s') (hs : s.WellFormed) (hparted : s.Parted) : s'.Parted := by
  have hplain : ∀ {sym : Symbol}, (!sym.isMacro) = true → sym.template = none :=
    fun h => by simpa [Symbol.isMacro] using h
  cases h with
  | mark name g hg hvalue => exact hparted.modify_parted fun _ sym _ h => h.congr (hvalue sym) (hg sym).template
  | markRoot name g hg hvalue =>
    exact ⟨hparted.root.modify fun sym _ h => h.congr (hvalue sym) (hg sym).template, hparted.inner⟩
  | declareAhead _ h => exact hparted.declareLocal_parted hs h
  | declareLocal h =>
    exact (hparted.declareLocal_parted hs h).modifyTop (inner_ne_nil_of_declareLocal hs.isOpen h)
      fun htop => htop.modify fun _ _ hsym => hsym
  | declareGlobal h => exact hparted.declareGlobal_parted h
  | assign _ _ _ _ hmay | radix _ _ hmay =>
    exact hparted.modify_parted fun _ sym hfind _ => Or.inl (hplain (hmay sym hfind))
  | bind _ _ _ hunset =>
    exact hparted.modify_parted fun _ sym hfind _ => Or.inl (Symbol.isSet_eq_false_iff.1 (hunset sym hfind)).2
  | define hnone h =>
    refine (hparted.declareGlobal_parted h).modify_parted fun _ sym hfind _ => ?_
    rw [find?_declareGlobal_of_none hnone h] at hfind
    cases hfind
    exact Or.inl rfl
  | remove => exact hparted.modifyFrameOf fun _ _ _ _ _ hf => hf.erase _
  | defineMacro h =>
    -- MACRO takes the value away
    exact (hparted.declareLocal_parted hs h).modifyTop (inner_ne_nil_of_declareLocal hs.isOpen h)
      fun htop => htop.modify fun _ _ _ => Or.inr ⟨rfl, rfl⟩

/-- A block begins with a frame that holds no macros. -/
theorem Opens.exists_plain (h : s.Opens t) :
    ∃ f : Frame, f.All (Symbol.Parted false) ∧ t = { s with inner := f :: s.inner } := by
  induction h with
  | nest => exact ⟨Frame.empty, Frame.all_empty, rfl⟩
  | @bind t t' name value loc _ hbind ih =>
    obtain ⟨f, hf, rfl⟩ := ih
    rw [Expand.bindIn] at hbind
    obtain ⟨t1, hdeclare, hok⟩ := Except.bind_eq_ok_iff.1 hbind
    cases hok
    have hbound : ∀ {f : Frame}, f.All (Symbol.Parted false) → (f.modify name fun sym =>
        { sym with value := some value, loc, used := true }).All (Symbol.Parted false) :=
      fun hf => hf.modify fun _ _ h => h.imp_right fun h => absurd h.1 Bool.false_ne_true
    cases (declareLocal_eq_ok hdeclare).2 with
    | kept => exact ⟨_, hbound hf, rfl⟩
    | entered => exact ⟨_, hbound (hf.insert name (Or.inl rfl)), rfl⟩

/-- A block begins with a parted scope. -/
theorem Everywhere.opens_parted (h : s.Parted) (hopens : s.Opens t) : t.Parted := by
  obtain ⟨f, hf, rfl⟩ := hopens.exists_plain
  refine ⟨h.root, List.forall_mem_cons.2 ⟨fun entry hentry => ?_, h.inner⟩⟩
  exact (hf entry hentry).imp_right fun h => absurd h.1 Bool.false_ne_true

/-- Names that move at the end of a block hold nothing. -/
theorem Hoists.sides {os : List Frame} (h : v.Hoists v') (hs : List.Forall₂ Frame.Sides os v.inner.tail) :
    List.Forall₂ Frame.Sides os v'.inner.tail ∧ v'.root = v.root := by
  induction h with
  | refl v => exact ⟨hs, rfl⟩
  | @step v v' name sym hfind _ hunset _ _ ih =>
    rw [hoist.eq_def] at ih
    split at ih
    · rename_i f below rest hinner
      rw [top, hinner, List.headD_cons] at hfind
      rw [hinner] at hs
      rw [hfind] at ih
      obtain ⟨hvalue, htemplate⟩ := Symbol.isSet_eq_false_iff.1 hunset
      cases hs with
      | cons hbelow hrest =>
        refine ih (.cons ?_ hrest)
        split
        · refine hbelow.modify fun old _ hold => ?_
          exact (merges_sides _).bound old _ rfl rfl hold
        · refine hbelow.insert ?_
          cases (Frame.macroAt _ name).isSome
          · exact htemplate
          · exact hvalue
    · exact ih hs

/-- A block leaves a scope on the sides of what was there before it, if it ran over a parted one. -/
theorem Conducts.sided (h : Conducts may t v) (hs : s.WellFormed) (hparted : s.Parted) (hopens : s.Opens t)
    (hrun : v.Parted) (hends : v.Hoists v') : s.Sided v'.unnest := by
  have hwell := h.wellFormed (hs.of_opens hopens)
  have hended := ((hends.evolves fun _ => True).preserved hwell).wellFormed
  have hclasses := h.classes (hs.of_opens hopens)
  obtain ⟨f, -, rfl⟩ := hopens.exists_top
  -- below the frame of the block every name is of the kind that it was of before
  have hbelow : List.Forall₂ Frame.Sides s.inner v.inner.tail :=
    (forall₂_and_right hclasses fun f hf => hrun.inner f (List.mem_of_mem_tail hf)).imp
      fun _ _ h => h.2.sides h.1
  obtain ⟨hinner, hroot⟩ := hends.sides hbelow
  refine ⟨forall₂_and_right hinner fun f hf => (hended.inner f (List.mem_of_mem_tail hf)).nodup,
    hended.root, ?_⟩
  rw [Scope.unnest, hroot]
  exact Frame.sides_of_all hparted.root hrun.root

/-- Whatever is done to a scope binds no symbol to a value and a macro, if SET and RADIX bind none that holds a
macro. -/
theorem Conducts.parted (h : Conducts Bind.sparesMacro s s') (hs : s.WellFormed) (hparted : s.Parted) :
    s'.Parted := by
  induction h with
  | refl => exact hparted
  | trans hst _ ihst ihtv => exact ihtv (hst.wellFormed hs) (ihst hs hparted)
  | act h => exact h.parted hs hparted
  | block hopens hrun hends ih =>
    have hran := ih (hs.of_opens hopens) (hparted.opens_parted hopens)
    exact (hrun.sided hs hparted hopens hran hends).parted hparted
  | fork s forks ran ended hforks hends hended last hlast hlastEnds ihforks ihlast =>
    have hnest := hs.of_opens .nest
    have hopened := hparted.opens_parted .nest
    -- the merged scopes are all on the sides of the scope that the arms were copied from
    refine Sided.parted (mergeForks_rec (P := s.Sided) (fun here test _ _ hh ht hf => ?_)
      (sided_self hs hparted) ?_ fun arm harm => ?_) hparted
    · refine merge_rec (fun o _ _ _ _ _ ht hf hh hstep => ?_) (fun o _ _ _ _ _ ht hf hh hstep => ?_) hh ht hf
      all_goals
        exact ⟨hstep.nodup hh.1, hstep.all (fun name => merges_sides (o.macroAt name).isSome) ht.2 hf.2 hh.2 hh.1⟩
    · cases last with
      | none => exact sided_self hs hparted
      | some u => exact (hlast u rfl).sided hs hparted .nest (ihlast u rfl hnest hopened) (hlastEnds u rfl)
    · rw [hended arm harm]
      exact (hforks arm harm).sided hs hparted .nest (ihforks arm harm hnest hopened) (hends arm harm)

end Parted

end Scope

/-- A root scope in which each name is bound once, and none to a macro. -/
structure Scope.IsPlain (s : Scope) : Prop where
  /-- Each name is bound once. -/
  nodup : s.root.names.Nodup
  /-- No unit is open. -/
  alone : s.inner = []
  /-- There are no macros. -/
  plain : s.root.All (Symbol.Parted false)

namespace Scope.IsPlain

variable {s s' : Scope} {name : Text}

/-- A name is declared. -/
theorem declareGlobal (h : s.IsPlain) (hdeclare : s.declareGlobal name = .ok s') : s'.IsPlain := by
  cases declareGlobal_eq_ok hdeclare with
  | kept => exact h
  | promoted =>
    refine ⟨?_, h.alone, h.plain.modify fun _ _ hsym => hsym⟩
    rw [Frame.names_modify]
    exact h.nodup
  | moved _ hin =>
    rw [h.alone] at hin
    cases hin
  | entered => exact ⟨Frame.nodup_insert h.nodup _ _, h.alone, h.plain.insert name (Or.inl rfl)⟩

/-- A definition from outside is entered. -/
theorem enter {d : Define} (h : s.IsPlain) (henter : d.enter s = .ok s') : s'.IsPlain := by
  obtain ⟨t, hdeclare, hok⟩ := Except.bind_eq_ok_iff.1 henter
  cases hok
  have ht := h.declareGlobal hdeclare
  refine ⟨?_, ht.alone, ht.plain.modify fun _ _ hsym => hsym.imp_right fun h => absurd h.1 Bool.false_ne_true⟩
  rw [Frame.names_modify]
  exact ht.nodup

/-- The root scope with the definitions from outside. -/
theorem rootScope {defines : List Define} (h : Define.rootScope defines = .ok s) : s.IsPlain := by
  have hfold : ∀ {s s' : Scope}, s.IsPlain → defines.foldlM Define.enter s = .ok s' → s'.IsPlain := by
    clear h
    induction defines with
    | nil =>
      intro s s' hs h
      cases h
      exact hs
    | cons d rest ih =>
      intro s s' hs h
      obtain ⟨t, henter, hrest⟩ := Except.bind_eq_ok_iff.1 h
      exact ih (hs.enter henter) hrest
  have hinitial : Scope.initial.IsPlain :=
    ⟨List.nodup_singleton Scope.radixName, rfl, Frame.all_empty.insert _ (Or.inl rfl)⟩
  exact hfold hinitial h

/-- The scope in which the block of the program begins is well formed. -/
theorem wellFormed_nest (h : s.IsPlain) : s.nest.WellFormed := by
  refine ⟨List.cons_ne_nil _ _, h.nodup, List.forall_mem_cons.2 ⟨Frame.isInner_empty, ?_⟩⟩
  rw [h.alone]
  exact List.forall_mem_nil _

/-- The scope in which the block of the program begins is parted. -/
theorem parted_nest (h : s.IsPlain) : s.nest.Parted := by
  refine Everywhere.opens_parted ⟨h.plain, ?_⟩ .nest
  rw [h.alone]
  exact List.forall_mem_nil _

end Scope.IsPlain

/-- A state in which the statements of a block may be handled while a program is assembled over a root scope, where
SET and RADIX must bind only symbols that `may` allows. -/
inductive Conducted (may : Text → Symbol → Bool) (a : Assembler) (scope : Scope) : Workbench → State → Prop where
  /-- The block of the program begins. -/
  | start : Conducted may a scope ⟨a, a.outermost, a.runnerWithin may a.maxDepth⟩ (Assembler.start scope)
  /-- Statements are handled. -/
  | proceed {w : Workbench} {s s' : State} (h : Conducted may a scope w s)
    (hs : Scope.Conducts may s.scope s'.scope) : Conducted may a scope w s'
  /-- A nested block begins, over a frame of its own or over the same scope. -/
  | nest {b b' : Block} {depth : Nat} {s s' : State}
    (h : Conducted may a scope ⟨a, b, a.runnerWithin may (depth + 1)⟩ s)
    (hs : s'.scope = s.scope ∨ s.scope.Opens s'.scope) : Conducted may a scope ⟨a, b', a.runnerWithin may depth⟩ s'

namespace Conducted

variable {may : Text → Symbol → Bool} {a : Assembler} {scope : Scope} {w : Workbench} {s : State}

/-- The scope is well formed. -/
theorem wellFormed (h : Conducted may a scope w s) (hscope : scope.IsPlain) : s.scope.WellFormed := by
  induction h with
  | start => exact hscope.wellFormed_nest
  | proceed _ hs ih => exact hs.wellFormed ih
  | nest _ hs ih =>
    rcases hs with hs | hs
    · rwa [hs]
    · exact ih.of_opens hs

/-- Nested blocks conduct themselves as told. -/
theorem conducts (h : Conducted may a scope w s) : w.Conducts may := by
  have hdepth : ∃ b depth, w = ⟨a, b, a.runnerWithin may depth⟩ := by
    induction h with
    | start => exact ⟨_, _, rfl⟩
    | proceed _ _ ih => exact ih
    | nest => exact ⟨_, _, rfl⟩
  obtain ⟨b, depth, rfl⟩ := hdepth
  exact a.conducts_runnerWithin may b depth

/-- Handling an item leads on. -/
theorem handle (h : Conducted may a scope w s) (hscope : scope.IsPlain) {pass : Pass}
    (hpass : pass ∈ w.passesWithin may) (item : Item) :
    Conducted may a scope w ((pass.handle w.block.inMacro item).run s).2 :=
  h.proceed (h.conducts.alters_handle hpass _ item s (h.wellFormed hscope))

/-- Assembling a block leads on, and so it does up to the end of each batch of its output. -/
theorem run (h : Conducted may a scope w s) (hscope : scope.IsPlain) (source : List Token) :
    Conducted may a scope w ((w.runWithin may source).run s).2 ∧
      ∀ b ∈ ((w.runWithin may source).run s).1.batches, Conducted may a scope w b.after := by
  obtain ⟨hrun, hbatches⟩ := h.conducts.alters_run source s
  exact ⟨h.proceed (hrun (h.wellFormed hscope)), fun b hb => h.proceed (hbatches b hb (h.wellFormed hscope))⟩

/-- The scope is parted, where SET and RADIX must not bind a symbol that holds a macro. -/
theorem parted (h : Conducted Bind.sparesMacro a scope w s) (hscope : scope.IsPlain) : s.scope.Parted := by
  induction h with
  | start => exact hscope.parted_nest
  | proceed h hs ih => exact hs.parted (h.wellFormed hscope) ih
  | nest _ hs ih =>
    rcases hs with hs | hs
    · rwa [hs]
    · exact ih.opens_parted hs

end Conducted

/-- A statement that is neither SET nor RADIX is carried out whatever these may bind. -/
theorem Pass.localizeWithin_eq (may : Text → Symbol → Bool) (w : Workbench) {item : Item}
    (h : item.token.isRebinding = false) : localizeWithin may w item = localize w item := by
  rw [localizeWithin]
  split
  · rename_i htoken
    rw [htoken] at h
    cases h
  · rename_i htoken
    rw [htoken] at h
    cases h
  · rfl

namespace Grammar

/-- Tokens with neither SET nor RADIX in them. -/
abbrev Steady (t : Token) : Prop := t.everywhere (fun t => !t.isRebinding) = true

/-- No step of a block makes SET or RADIX. -/
theorem closed_steady : Closed Steady fun _ => True :=
  closed_everywhere (q := fun traits => !traits.isRebinding) (fun _ _ _ => rfl) (fun _ => rfl) fun _ _ => rfl

end Grammar

section Steady

open Grammar

variable {may : Text → Symbol → Bool}

/-- A block with neither SET nor RADIX in it is assembled whatever these may bind. -/
theorem Workbench.run_runWithin {w : Workbench} (hw : (uniform Steady fun _ => True).Equips w) {other : Option Runner}
    (h : Option.Rel (uniform Steady fun _ => True).Agree w.runner other) {source : List Token}
    (hsource : ∀ t ∈ source, Steady t) {s : State} (hs : (uniform Steady fun _ => True).Sound s.scope) :
    (Workbench.runWithin may { w with runner := other } source).run s = (w.run source).run s := by
  obtain ⟨hlocalize, hexpand⟩ := sameOn_runner w.block.inMacro (fun item => closed_steady.bodies item.token) hw h
  have hbind : (Pass.localize w).SameOn w.block.inMacro ((uniform Steady fun _ => True).Knows (Carries Steady))
      (.localizeWithin may { w with runner := other }) := by
    intro item s hitem
    have hsame : Pass.localizeWithin may { w with runner := other } item =
        Pass.localize { w with runner := other } item :=
      Pass.localizeWithin_eq may _ (by simpa using Token.of_everywhere hitem.2)
    rw [← hlocalize item s hitem, Pass.handle, Pass.handle, hsame]
  have hdeclared := closed_steady.knows_declareStage hw hsource hs
  have hbound := closed_steady.knows_bindStage hw hdeclared
  have hfirst : Workbench.declareStage { w with runner := other } source = w.declareStage source := rfl
  rw [runWithin, run, StateM.run_bind, StateM.run_bind, StateM.run_bind, StateM.run_bind, hfirst]
  have hsecond := closed_steady.run_bindStage hw hbind hdeclared
  have hthird := closed_steady.run_finishStage hw (fun _ _ _ => rfl) hbind hexpand hbound
  rw [← hthird, ← hsecond]
  rfl

end Steady

namespace Assembler

variable {a : Assembler} {scope : Scope} {source : List Token}

/-- The scopes after the batches of a program and at its end are those of states in which statements may be
handled. -/
theorem conducted_assembleWithin (may : Text → Symbol → Bool) (source : List Token) (hscope : scope.IsPlain) :
    (∀ b ∈ (a.assembleWithin may scope source).batches, ∃ w, Conducted may a scope w b.after) ∧
      ∃ w s, Conducted may a scope w s ∧ (a.assembleWithin may scope source).scope = s.scope := by
  have hstart : Conducted may a scope ⟨a, a.outermost, a.runnerWithin may a.maxDepth⟩ (Assembler.start scope) := .start
  obtain ⟨hrun, hbatches⟩ := hstart.run hscope source
  rw [assembleWithin]
  generalize (Workbench.runWithin may ⟨a, a.outermost, a.runnerWithin may a.maxDepth⟩ source).run
    (Assembler.start scope) = r at hrun hbatches ⊢
  obtain ⟨trail, s⟩ := r
  refine ⟨fun b hb => ⟨_, hbatches b hb⟩, _, s, hrun, ?_⟩
  dsimp only [Assembly.scope]
  split
  · rfl
  · exact Scope.accountFor_outermost _ _

/-- A program that is assembled in the same way where SET and RADIX must not bind a symbol that holds a macro leaves no
symbol with a value and a macro, neither after any part of its output nor at the end. -/
theorem isUnmixed_of_assembleWithin (hscope : scope.IsPlain)
    (hsame : a.assembleWithin Bind.sparesMacro scope source = a.assemble scope source) :
    (∀ b ∈ (a.assemble scope source).batches, b.after.scope.isUnmixed = true) ∧
      (a.assemble scope source).scope.isUnmixed = true := by
  obtain ⟨hbatches, w, s, hreached, hfinal⟩ := conducted_assembleWithin Bind.sparesMacro source hscope
  rw [hsame] at hbatches hfinal
  refine ⟨fun b hb => ?_, ?_⟩
  · obtain ⟨w, hw⟩ := hbatches b hb
    exact (hw.parted hscope).isUnmixed
  · rw [hfinal]
    exact (hreached.parted hscope).isUnmixed

/-- No symbol of any frame holds a value and a macro, at any moment of a run in which a SET or RADIX of a symbol that
holds a macro ends the program. A program for which that makes no difference leaves none with both, neither after any
part of its output nor at the end. -/
theorem assemble_unmixed (hscope : scope.IsPlain) :
    (∀ w s, Conducted Bind.sparesMacro a scope w s → s.scope.isUnmixed = true) ∧
      (a.assembleWithin Bind.sparesMacro scope source = a.assemble scope source →
        (∀ b ∈ (a.assemble scope source).batches, b.after.scope.isUnmixed = true) ∧
          (a.assemble scope source).scope.isUnmixed = true) :=
  ⟨fun _ _ h => (h.parted hscope).isUnmixed, isUnmixed_of_assembleWithin hscope⟩

section Steady

open Grammar

/-- Nested blocks with neither SET nor RADIX in them are assembled whatever these may bind. -/
theorem agree_runnerWithin (may : Text → Symbol → Bool) (hincluder : ∀ find, a.includer = some find →
      ∀ loc path loader body, find loc path loader = .ok body → ∀ t ∈ body, Steady t) (depth : Nat) :
    Option.Rel (uniform Steady fun _ => True).Agree (a.runner depth) (a.runnerWithin may depth) :=
  Grammar.agree_runner rfl (fun _ => rfl) (fun b depth ih _ hbody _ hs =>
    Workbench.run_runWithin (closed_steady.equips hincluder b depth) ih hbody hs) depth

/-- A program with neither SET nor RADIX in it is assembled whatever these may bind. -/
theorem assembleWithin_eq (may : Text → Symbol → Bool) (hscope : scope.IsPlain)
    (h : a.Throughout (fun t => !t.isRebinding) scope source) :
    a.assembleWithin may scope source = a.assemble scope source := by
  have hs : (uniform Steady fun _ => True).Sound (Assembler.start scope).scope := by
    refine ⟨hscope.wellFormed_nest, h.macros.root, List.forall_mem_cons.2 ⟨Frame.all_empty, h.macros.inner⟩⟩
  have hrun : (Workbench.runWithin may ⟨a, a.outermost, a.runnerWithin may a.maxDepth⟩ source).run
      (Assembler.start scope) =
        (Workbench.run ⟨a, a.outermost, a.runner a.maxDepth⟩ source).run (Assembler.start scope) :=
    Workbench.run_runWithin (closed_steady.equips h.includer a.outermost a.maxDepth)
      (agree_runnerWithin may h.includer a.maxDepth) h.source hs
  rewrite [assembleWithin, assemble, hrun]
  generalize (Workbench.run ⟨a, a.outermost, a.runner a.maxDepth⟩ source).run (Assembler.start scope) = r
  rfl

/-- A program with neither SET nor RADIX in it leaves no symbol with a value and a macro, neither after any part of its
output nor at the end. -/
theorem unmixed_of_steady (hscope : scope.IsPlain) (h : a.Throughout (fun t => !t.isRebinding) scope source) :
    (∀ b ∈ (a.assemble scope source).batches, b.after.scope.isUnmixed = true) ∧
      (a.assemble scope source).scope.isUnmixed = true :=
  isUnmixed_of_assembleWithin hscope (assembleWithin_eq _ hscope h)

end Steady

/-- `M MACRO`, `N SET 5`, `END`. -/
def setOther : List Token :=
  [.macroDef Location.none (.identifier Location.none "M") [] [],
    .assign Location.none .set (.identifier Location.none "N") (.literal Location.none 5),
    .stop Location.none]

/-- One symbol of this program holds a macro, and another one a value. -/
theorem assemble_unmixed_setOther :
    let out := assemble (.bare 1) Scope.initial setOther
    ((out.scope.find? "M").map Symbol.isMacro = some true ∧ ((out.scope.find? "N").bind Symbol.value).isSome = true) ∧
      out.batches.length = 1 ∧ (∀ b ∈ out.batches, b.after.scope.isUnmixed = true) ∧ out.scope.isUnmixed = true := by
  have hscope : Scope.initial.IsPlain := .rootScope (show Define.rootScope [] = .ok Scope.initial from rfl)
  have hsame : assembleWithin Bind.sparesMacro (.bare 1) Scope.initial setOther =
      assemble (.bare 1) Scope.initial setOther := by
    cbv
  exact ⟨by decide +kernel, by decide +kernel, (assemble_unmixed hscope).2 hsame⟩

/-- `M MACRO`, `M SET 5`. -/
def setMacro : List Token :=
  [.macroDef Location.none (.identifier Location.none "M") [] [],
    .assign Location.none .set (.identifier Location.none "M") (.literal Location.none 5)]

/-- Assembling this program leaves M with a value and a macro. -/
theorem assemble_mixed : (assemble (.bare 1) Scope.initial setMacro).scope.isUnmixed = false := by
  decide +kernel

end Assembler

end MacroAsm
