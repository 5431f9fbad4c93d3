import MacroAsm.Assembly.Conditional
import MacroAsm.Proofs.Scope.Merge

/-!
# How scopes evolve

`Scope.Evolves` lists all that the handling of statements does to a scope, one constructor for each way in
which a statement acts on it. Blocks that are nested act on a scope with a frame of their own, and the arms
of an undecided condition on copies of the scope, which are merged. `ok` tells which macros are defined.

What holds along every run is read off that list. Here this is `Scope.Evolves.preserved`: scopes stay well
formed, and the frames below the innermost one keep what is bound in them.
-/

namespace MacroAsm

/-- What a statement may do to a symbol that is there. -/
structure Symbol.Changes (sym sym' : Symbol) : Prop where
  /-- Macros are kept. -/
  template : sym'.template = sym.template
  /-- Whether it was bound by DEFINE is kept. -/
  define : sym'.define = sym.define
  /-- Whether it is internal state is kept. -/
  reserved : sym'.reserved = sym.reserved
  /-- Whether it belongs to the whole program is kept. -/
  isGlobal : sym'.global = sym.global
  /-- A symbol that was used stays so. -/
  used : sym.used = true → sym'.used = true
  /-- A symbol that is frozen stays so. -/
  frozen : sym.frozen = true → sym'.frozen = true
  /-- The value is kept, or bound. -/
  value : sym'.value = sym.value ∨ sym'.value.isSome = true

namespace Scope

/-- The scopes with which the block of a statement begins: a new frame in which names may be bound. -/
inductive Opens (s : Scope) : Scope → Prop where
  /-- The new frame. -/
  | nest : Opens s s.nest
  /-- A name bound in it. -/
  | bind {t t' : Scope} {name : Text} {value : Expr} {loc : Location} (ht : Opens s t)
    (hbind : Expand.bindIn t name value loc = .ok t') : Opens s t'

/-- What the handling of statements does to a scope. The macros that are defined satisfy `ok`. -/
inductive Evolves (ok : Macro → Prop) : Scope → Scope → Prop where
  /-- Nothing happens. -/
  | refl (s : Scope) : Evolves ok s s
  /-- One thing happens after another. -/
  | trans {s t v : Scope} (hst : Evolves ok s t) (htv : Evolves ok t v) : Evolves ok s v
  /-- The innermost symbol of a name changes. -/
  | modify (s : Scope) (name : Text) (g : Symbol → Symbol)
    (hg : ∀ sym, s.find? name = some sym → sym.Changes (g sym)) : Evolves ok s (s.modify name g)
  /-- A symbol of the innermost frame changes. -/
  | modifyTop (s : Scope) (name : Text) (g : Symbol → Symbol)
    (hg : ∀ sym, s.top.find? name = some sym → sym.Changes (g sym)) :
    Evolves ok s (s.modifyTop fun f => f.modify name g)
  /-- A symbol of the root frame changes. -/
  | modifyRoot (s : Scope) (name : Text) (g : Symbol → Symbol)
    (hg : ∀ sym, s.root.find? name = some sym → sym.Changes (g sym)) :
    Evolves ok s { s with root := s.root.modify name g }
  /-- A name is declared in the innermost frame. -/
  | declareLocal {s s' : Scope} {name : Text} (h : s.declareLocal name = .ok s') : Evolves ok s s'
  /-- A name is declared in the root frame. -/
  | declareGlobal {s s' : Scope} {name : Text} (h : s.declareGlobal name = .ok s') : Evolves ok s s'
  /-- A name that does not exist is bound by DEFINE. -/
  | define {s s' : Scope} {name : Text} (hnone : s.find? name = none)
    (h : s.declareGlobal name = .ok s') (value : Expr) (loc : Location) :
    Evolves ok s (s'.modify name fun sym => { sym with value := some value, loc, define := true })
  /-- A name that was bound by DEFINE or to a macro is removed. -/
  | remove {s : Scope} {name : Text} {sym : Symbol} (hfind : s.find? name = some sym)
    (h : sym.define = true ∨ sym.isMacro = true) : Evolves ok s (s.remove name)
  /-- A name of the innermost frame is bound to a macro. -/
  | defineMacro (s : Scope) (name : Text) {m : Macro} (hm : ok m) (loc : Location) :
    Evolves ok s (s.modifyTop fun f => f.modify name fun sym =>
      { sym with value := none, template := some m, loc })
  /-- A name that waits to be bound moves to the frame below. -/
  | hoist {s : Scope} {name : Text} {sym : Symbol} (hfind : s.top.find? name = some sym)
    (hused : sym.used = true) (hunset : sym.isSet = false) (hreserved : sym.reserved = false) :
    Evolves ok s (s.hoist name).1
  /-- A block is assembled over a frame of its own. -/
  | block {s t v : Scope} (hopens : s.Opens t) (hrun : Evolves ok t v) : Evolves ok s v.unnest
  /-- Arms are assembled over copies of the scope, and what they did is merged. -/
  | fork (s : Scope) (forks : List (Expr × Conditional.Fork)) (after : Conditional.Fork → Scope)
    (hforks : ∀ arm ∈ forks, Evolves ok s.nest (after arm.2))
    (hafter : ∀ arm ∈ forks, arm.2.scope = (after arm.2).unnest) (last : Option Scope)
    (hlast : ∀ t ∈ last, Evolves ok s.nest t) :
    Evolves ok s (Conditional.mergeForks ((last.map Scope.unnest).getD s) forks s).1

end Scope

namespace Frame

/-- A frame that can belong to an open unit: it binds each name once, and neither definitions nor internal
state, which are in the root frame. -/
structure IsInner (f : Frame) : Prop where
  /-- Each name is bound once. -/
  nodup : f.names.Nodup
  /-- No name was bound by DEFINE. -/
  define : ∀ name sym, f.find? name = some sym → sym.define = false
  /-- No name is internal state. -/
  reserved : ∀ name sym, f.find? name = some sym → sym.reserved = false

/-- What happens to a frame below the innermost one. No name is bound to a macro or becomes internal state,
and in the frame of an open unit no name loses its value. -/
structure Keeps (inner : Bool) (f f' : Frame) : Prop where
  /-- No name is bound to a macro. -/
  macroAt : ∀ name, f.macroAt name = none → f'.macroAt name = none
  /-- No name becomes internal state. -/
  isReservedAt : ∀ name, f.isReservedAt name = false → f'.isReservedAt name = false
  /-- No name loses its value. -/
  isSetAt : inner = true → ∀ name, f.macroAt name = none → f.isSetAt name = true →
    f'.isSetAt name = true

theorem Keeps.refl (inner : Bool) (f : Frame) : f.Keeps inner f :=
  ⟨fun _ h => h, fun _ h => h, fun _ _ _ h => h⟩

/-- What is kept twice is kept. -/
theorem Keeps.trans {inner : Bool} {f g h : Frame} (hfg : f.Keeps inner g) (hgh : g.Keeps inner h) :
    f.Keeps inner h where
  macroAt name hname := hgh.macroAt name (hfg.macroAt name hname)
  isReservedAt name hname := hgh.isReservedAt name (hfg.isReservedAt name hname)
  isSetAt hinner name hname hset :=
    hgh.isSetAt hinner name (hfg.macroAt name hname) (hfg.isSetAt hinner name hname hset)

/-- What a frame keeps is told by what is found under each name. -/
theorem Keeps.of_find? {inner : Bool} {f f' : Frame}
    (h : ∀ name, f'.find? name = f.find? name ∨
      ∃ sym', f'.find? name = some sym' ∧
        (f.macroAt name = none → sym'.template = none) ∧
        (f.isReservedAt name = false → sym'.reserved = false) ∧
        (f.macroAt name = none → f.isSetAt name = true → sym'.isSet = true)) :
    f.Keeps inner f' where
  macroAt name hname := by
    rcases h name with heq | ⟨sym', hfind, htemplate, -, -⟩
    · rwa [Frame.macroAt, heq]
    · rw [Frame.macroAt, hfind]
      exact htemplate hname
  isReservedAt name hname := by
    rcases h name with heq | ⟨sym', hfind, -, hreserved, -⟩
    · rwa [Frame.isReservedAt, heq]
    · rw [Frame.isReservedAt, hfind]
      exact hreserved hname
  isSetAt _ name hname hset := by
    rcases h name with heq | ⟨sym', hfind, -, -, hisSet⟩
    · rwa [Frame.isSetAt, heq]
    · rw [Frame.isSetAt, hfind]
      exact hisSet hname hset

end Frame

namespace Symbol

/-- A symbol that is set stays so. -/
theorem Changes.isSet {sym sym' : Symbol} (h : sym.Changes sym') (hset : sym.isSet = true) :
    sym'.isSet = true := by
  rw [Symbol.isSet, h.template]
  rw [Symbol.isSet] at hset
  rcases h.value with hvalue | hvalue
  · rwa [hvalue]
  · rw [hvalue, Bool.true_or]

/-- A change keeps what a frame keeps. -/
theorem Changes.keeps {sym sym' : Symbol} (h : sym.Changes sym') :
    sym'.template = sym.template ∧ sym'.reserved = sym.reserved ∧
      (sym.isSet = true → sym'.isSet = true) :=
  ⟨h.template, h.reserved, h.isSet⟩

end Symbol

namespace Frame

/-- A change of a symbol that keeps its macro and whether it is set keeps what is in the frame. -/
theorem keeps_modify (inner : Bool) {f : Frame} {name : Text} {g : Symbol → Symbol}
    (hg : ∀ sym, f.find? name = some sym → (g sym).template = sym.template ∧
      (g sym).reserved = sym.reserved ∧ (sym.isSet = true → (g sym).isSet = true)) :
    f.Keeps inner (f.modify name g) := by
  refine Keeps.of_find? fun other => ?_
  rw [find?_modify]
  by_cases hother : other = name
  · subst hother
    cases hfind : f.find? other with
    | none => simp
    | some sym =>
      obtain ⟨htemplate, hreserved, hisSet⟩ := hg sym hfind
      refine Or.inr ⟨g sym, by simp, ?_, ?_, ?_⟩
      · intro hplain
        rw [htemplate]
        simpa [Frame.macroAt, hfind] using hplain
      · intro hname
        rw [hreserved]
        simpa [Frame.isReservedAt, hfind] using hname
      · intro _ hset
        exact hisSet (by simpa [Frame.isSetAt, hfind] using hset)
  · rw [if_neg hother]
    exact Or.inl rfl

/-- A change of a symbol keeps a frame that of an open unit. -/
theorem IsInner.modify {f : Frame} (h : f.IsInner) {name : Text} {g : Symbol → Symbol}
    (hg : ∀ sym, f.find? name = some sym →
      (g sym).define = sym.define ∧ (g sym).reserved = sym.reserved) : (f.modify name g).IsInner := by
  have hfind : ∀ other sym, (f.modify name g).find? other = some sym →
      ∃ old, f.find? other = some old ∧ sym.define = old.define ∧ sym.reserved = old.reserved := by
    intro other sym hsym
    rw [find?_modify] at hsym
    by_cases hother : other = name
    · rw [if_pos hother] at hsym
      obtain ⟨old, hold, rfl⟩ := Option.map_eq_some_iff.1 hsym
      exact ⟨old, hold, hg old (hother ▸ hold)⟩
    · rw [if_neg hother] at hsym
      exact ⟨sym, hsym, rfl, rfl⟩
  refine ⟨nodup_modify h.nodup name g, fun other sym hsym => ?_, fun other sym hsym => ?_⟩
  · obtain ⟨old, hold, hdefine, -⟩ := hfind other sym hsym
    rw [hdefine]
    exact h.define other old hold
  · obtain ⟨old, hold, -, hreserved⟩ := hfind other sym hsym
    rw [hreserved]
    exact h.reserved other old hold

/-- A symbol that is neither a definition nor internal state can be entered in a frame of an open unit. -/
theorem IsInner.insert {f : Frame} (h : f.IsInner) (name : Text) {sym : Symbol}
    (hdefine : sym.define = false) (hreserved : sym.reserved = false) : (f.insert name sym).IsInner := by
  refine ⟨nodup_insert h.nodup name sym, fun other sym' hsym => ?_, fun other sym' hsym => ?_⟩
  · rw [find?_insert] at hsym
    split at hsym
    · cases hsym
      exact hdefine
    · exact h.define other sym' hsym
  · rw [find?_insert] at hsym
    split at hsym
    · cases hsym
      exact hreserved
    · exact h.reserved other sym' hsym

/-- A name can be removed from a frame of an open unit. -/
theorem IsInner.erase {f : Frame} (h : f.IsInner) (name : Text) : (f.erase name).IsInner := by
  have hfind : ∀ other sym, (f.erase name).find? other = some sym → f.find? other = some sym := by
    intro other sym hsym
    rw [find?_erase h.nodup] at hsym
    split at hsym
    · cases hsym
    · exact hsym
  exact ⟨nodup_erase h.nodup name, fun other sym hsym => h.define other sym (hfind other sym hsym),
    fun other sym hsym => h.reserved other sym (hfind other sym hsym)⟩

/-- A frame without names can belong to an open unit. -/
theorem isInner_empty : Frame.empty.IsInner := by
  have hnone : ∀ name, Frame.empty.find? name = none := fun _ => rfl
  refine ⟨List.nodup_nil, fun name sym h => ?_, fun name sym h => ?_⟩ <;>
    rw [hnone] at h <;> cases h

/-- Removing a name keeps what a frame keeps of another one. In the frame of an open unit the name must not
have held a value. -/
theorem Keeps.erase {inner : Bool} {o f : Frame} (h : o.Keeps inner f) (hnodup : f.names.Nodup)
    {name : Text} (hunset : inner = true → o.macroAt name = none → o.isSetAt name = false) :
    o.Keeps inner (f.erase name) := by
  have hgone : (f.erase name).find? name = none := by rw [find?_erase hnodup, if_pos rfl]
  have hother : ∀ other, other ≠ name → (f.erase name).find? other = f.find? other := by
    intro other hne
    rw [find?_erase hnodup, if_neg hne]
  refine ⟨fun other hname => ?_, fun other hname => ?_, fun hinner other hname hset => ?_⟩
  · by_cases heq : other = name
    · rw [heq, Frame.macroAt, hgone]
      rfl
    · rw [Frame.macroAt, hother other heq]
      exact h.macroAt other hname
  · by_cases heq : other = name
    · rw [heq, Frame.isReservedAt, hgone]
      rfl
    · rw [Frame.isReservedAt, hother other heq]
      exact h.isReservedAt other hname
  · by_cases heq : other = name
    · rw [heq] at hname hset
      rw [hunset hinner hname] at hset
      cases hset
    · rw [Frame.isSetAt, hother other heq]
      exact h.isSetAt hinner other hname hset

/-- Removing a name keeps everything else. In the frame of an open unit it must not hold a value. -/
theorem keeps_erase {inner : Bool} {f : Frame} (hnodup : f.names.Nodup) {name : Text}
    (hunset : inner = true → f.macroAt name = none → f.isSetAt name = false) :
    f.Keeps inner (f.erase name) :=
  (Keeps.refl inner f).erase hnodup hunset

/-- Entering a name keeps what a frame keeps of another one, if the symbol does. -/
theorem Keeps.insert {inner : Bool} {o f : Frame} (h : o.Keeps inner f) {name : Text} {sym : Symbol}
    (htemplate : o.macroAt name = none → sym.template = none)
    (hreserved : o.isReservedAt name = false → sym.reserved = false)
    (hset : inner = true → o.macroAt name = none → o.isSetAt name = true → sym.isSet = true) :
    o.Keeps inner (f.insert name sym) := by
  refine ⟨fun other hname => ?_, fun other hname => ?_, fun hinner other hname hother => ?_⟩
  · rw [Frame.macroAt, Frame.find?_insert]
    split
    · rename_i heq
      exact htemplate (heq ▸ hname)
    · exact h.macroAt other hname
  · rw [Frame.isReservedAt, Frame.find?_insert]
    split
    · rename_i heq
      exact hreserved (heq ▸ hname)
    · exact h.isReservedAt other hname
  · rw [Frame.isSetAt, Frame.find?_insert]
    split
    · rename_i heq
      exact hset hinner (heq ▸ hname) (heq ▸ hother)
    · exact h.isSetAt hinner other hname hother

/-- Entering a name that is not there, unset or in the root frame, keeps everything else. -/
theorem keeps_insert {inner : Bool} {f : Frame} {name : Text} {sym : Symbol}
    (hnone : f.find? name = none) (htemplate : sym.template = none)
    (hreserved : sym.reserved = false) : f.Keeps inner (f.insert name sym) := by
  refine (Keeps.refl inner f).insert (fun _ => htemplate) (fun _ => hreserved) fun _ _ hset => ?_
  rw [isSetAt, hnone] at hset
  cases hset

end Frame

namespace Scope

/-- A scope that statements are handled over: a unit is open, each frame binds each name once, and
definitions and internal state are in the root frame. -/
structure WellFormed (s : Scope) : Prop where
  /-- A unit is open. -/
  isOpen : s.inner ≠ []
  /-- The root frame binds each name once. -/
  root : s.root.names.Nodup
  /-- The frames of the open units. -/
  inner : ∀ f ∈ s.inner, f.IsInner

/-- What a run leaves of a scope: it is well formed, and the frames below the innermost one keep what is
bound in them. -/
structure Preserved (s s' : Scope) : Prop where
  /-- It is well formed. -/
  wellFormed : s'.WellFormed
  /-- The frames of the open units below the innermost one. -/
  lower : List.Forall₂ (Frame.Keeps true) s.inner.tail s'.inner.tail
  /-- The root frame. -/
  root : s.root.Keeps false s'.root

/-- What happens to a frame of an open unit, if it is one. -/
def InnerStep (f f' : Frame) : Prop := f.IsInner → f'.IsInner ∧ f.Keeps true f'

/-- What happens to the root frame. -/
def RootStep (f f' : Frame) : Prop := f.names.Nodup → f'.names.Nodup ∧ f.Keeps false f'

theorem InnerStep.refl (f : Frame) : InnerStep f f := fun hf => ⟨hf, .refl true f⟩

theorem RootStep.refl (f : Frame) : RootStep f f := fun hf => ⟨hf, .refl false f⟩

/-- Frames of open units that are related to such frames. -/
theorem forall₂_of_innerStep {fs gs : List Frame} (h : List.Forall₂ InnerStep fs gs)
    (hfs : ∀ f ∈ fs, f.IsInner) :
    List.Forall₂ (Frame.Keeps true) fs gs ∧ ∀ g ∈ gs, g.IsInner := by
  induction h with
  | nil => exact ⟨.nil, by simp⟩
  | cons hfg _ ih =>
    rw [List.forall_mem_cons] at hfs
    obtain ⟨hkeeps, hgs⟩ := ih hfs.2
    exact ⟨.cons (hfg hfs.1).2 hkeeps, List.forall_mem_cons.2 ⟨(hfg hfs.1).1, hgs⟩⟩

/-- A relation of lists and a property of the elements of the second one. -/
theorem forall₂_and_right {R : Frame → Frame → Prop} {P : Frame → Prop} {fs gs : List Frame}
    (h : List.Forall₂ R fs gs) (hgs : ∀ g ∈ gs, P g) :
    List.Forall₂ (fun f g => P g ∧ R f g) fs gs := by
  induction h with
  | nil => exact .nil
  | cons hfg _ ih =>
    rw [List.forall_mem_cons] at hgs
    exact .cons ⟨hgs.1, hfg⟩ (ih hgs.2)

/-- A scope is preserved if every frame is. -/
theorem Preserved.of_pointwise {s s' : Scope} (hs : s.WellFormed)
    (h : Pointwise InnerStep RootStep s s') : Preserved s s' := by
  obtain ⟨hkeeps, hall⟩ := forall₂_of_innerStep h.inner hs.inner
  refine ⟨⟨?_, (h.root hs.root).1, hall⟩, ?_, (h.root hs.root).2⟩
  · intro hnil
    rw [hnil] at hkeeps
    exact hs.isOpen (List.forall₂_nil_right_iff.1 hkeeps)
  · rw [← List.drop_one, ← List.drop_one]
    exact List.forall₂_drop 1 hkeeps

section Preserved

variable {s s' : Scope}

theorem Preserved.refl (hs : s.WellFormed) : Preserved s s :=
  ⟨hs, List.forall₂_same.2 fun f _ => .refl true f, .refl false s.root⟩

/-- What is preserved twice is preserved. -/
theorem Preserved.trans {t : Scope} (hst : Preserved s s') (htv : Preserved s' t) :
    Preserved s t where
  wellFormed := htv.wellFormed
  lower := forall₂_trans (R := Frame.Keeps true) (fun _ _ _ h h' => h.trans h') hst.lower htv.lower
  root := hst.root.trans htv.root

/-- A change of the innermost frame preserves the scope. -/
theorem preserved_modifyTop (hs : s.WellFormed) {g : Frame → Frame}
    (hg : s.top.IsInner → (g s.top).IsInner) : Preserved s (s.modifyTop g) := by
  cases hinner : s.inner with
  | nil => exact absurd hinner hs.isOpen
  | cons f rest =>
    have hall := hs.inner
    rw [hinner, List.forall_mem_cons] at hall
    have htop : s.top = f := by rw [top, hinner, List.headD_cons]
    rw [htop] at hg
    rw [modifyTop, hinner]
    refine ⟨⟨by simp, hs.root, ?_⟩, ?_, .refl false s.root⟩
    · exact List.forall_mem_cons.2 ⟨hg hall.1, hall.2⟩
    · rw [hinner]
      exact List.forall₂_same.2 fun f _ => .refl true f

theorem preserved_root (hs : s.WellFormed) {root : Frame} (hnodup : root.names.Nodup)
    (hroot : s.root.Keeps false root) : Preserved s { s with root } :=
  ⟨⟨hs.isOpen, hnodup, hs.inner⟩, List.forall₂_same.2 fun f _ => .refl true f, hroot⟩

/-- A change of the innermost symbol of a name preserves the scope. -/
theorem preserved_modify (hs : s.WellFormed) {name : Text} {g : Symbol → Symbol}
    (hg : ∀ sym, s.find? name = some sym → sym.Changes (g sym)) : Preserved s (s.modify name g) := by
  have hchanges : ∀ {f : Frame} {sym : Symbol}, f.find? name = some sym → s.find? name = some sym →
      ∀ sym', f.find? name = some sym' → sym'.Changes (g sym') := by
    intro f sym hsym hfind sym' hsym'
    rw [hsym] at hsym'
    cases hsym'
    exact hg sym hfind
  have hstep := modifyFrameOf_rel (g := fun f => f.modify name g) InnerStep.refl RootStep.refl
    (fun f _ sym hsym hfind hf => ⟨hf.modify fun sym' hsym' =>
        ⟨(hchanges hsym hfind sym' hsym').define, (hchanges hsym hfind sym' hsym').reserved⟩,
      Frame.keeps_modify true fun sym' hsym' => (hchanges hsym hfind sym' hsym').keeps⟩)
    (fun sym hsym hfind hf => ⟨Frame.nodup_modify hf name g,
      Frame.keeps_modify false fun sym' hsym' => (hchanges hsym hfind sym' hsym').keeps⟩)
  exact Preserved.of_pointwise hs ⟨hstep.1, hstep.2⟩

/-- Declaring a name in the innermost frame preserves the scope. -/
theorem preserved_declareLocal (hs : s.WellFormed) {name : Text} (h : s.declareLocal name = .ok s') :
    Preserved s s' := by
  cases (declareLocal_eq_ok h).2 with
  | kept => exact .refl hs
  | entered => exact preserved_modifyTop hs fun hf => hf.insert name rfl rfl

/-- Declaring a name in the root frame preserves the scope. -/
theorem preserved_declareGlobal (hs : s.WellFormed) {name : Text}
    (h : s.declareGlobal name = .ok s') : Preserved s s' := by
  cases declareGlobal_eq_ok h with
  | kept => exact .refl hs
  | promoted =>
    refine preserved_root hs (Frame.nodup_modify hs.root name promote) ?_
    exact Frame.keeps_modify false fun sym _ => ⟨rfl, rfl, id⟩
  | entered hroot =>
    exact preserved_root hs (Frame.nodup_insert hs.root name _) (Frame.keeps_insert hroot rfl rfl)
  | @moved sym hroot hin hunset =>
    have htemplate : sym.template = none := by simp_all [Symbol.isSet]
    obtain ⟨f, hf, hfind⟩ := exists_of_findIn hin
    have hreserved : sym.reserved = false := (hs.inner f hf).reserved name sym hfind
    refine Preserved.of_pointwise hs ⟨modifyOwner_forall₂ InnerStep.refl ?_, ?_⟩
    · -- the symbol leaves the frame of its unit, where it held no value
      intro f _ sym' hsym' hfound hf
      rw [hin] at hfound
      cases hfound
      refine ⟨hf.erase name, Frame.keeps_erase hf.nodup fun _ _ => ?_⟩
      rw [Frame.isSetAt, hsym']
      exact hunset
    · exact fun h => ⟨Frame.nodup_insert h name _, Frame.keeps_insert hroot htemplate hreserved⟩

/-- Binding a name that does not exist by DEFINE preserves the scope. -/
theorem preserved_define (hs : s.WellFormed) {name : Text} (hnone : s.find? name = none)
    (h : s.declareGlobal name = .ok s') (value : Expr) (loc : Location) :
    Preserved s (s'.modify name fun sym => { sym with value := some value, loc, define := true }) := by
  obtain ⟨hin, hroot⟩ := find?_eq_none_iff.1 hnone
  rw [declareGlobal, hroot] at h
  simp only [hin] at h
  cases h
  -- the name is in the root frame only
  have hnotfound : (modifyOwner name (fun f => f.modify name fun sym =>
      { sym with value := some value, loc, define := true }) s.inner).2 = false := by
    rw [modifyOwner_snd, hin]
    rfl
  have hcontains : (s.root.insert name (promote {})).contains name = true := by
    rw [Frame.contains, Frame.find?_insert, if_pos rfl]
    rfl
  rw [modify, modifyFrameOf]
  simp only [hnotfound, Bool.false_eq_true, if_false, hcontains, if_true]
  refine preserved_root hs (Frame.nodup_modify (Frame.nodup_insert hs.root name _) name _) ?_
  have hdeclared : s.root.Keeps false (s.root.insert name (promote {})) :=
    Frame.keeps_insert hroot rfl rfl
  refine hdeclared.trans (Frame.keeps_modify false fun sym _ => ⟨rfl, rfl, fun _ => ?_⟩)
  simp [Symbol.isSet]

/-- Removing a definition or a macro preserves the scope. -/
theorem preserved_remove (hs : s.WellFormed) {name : Text} {sym : Symbol}
    (hfind : s.find? name = some sym) (h : sym.define = true ∨ sym.isMacro = true) :
    Preserved s (s.remove name) := by
  have hstep := modifyFrameOf_rel (g := fun f => f.erase name) InnerStep.refl RootStep.refl
    (fun f _ sym' hsym' hfound hf => by
      rw [hfind] at hfound
      cases hfound
      refine ⟨hf.erase name, Frame.keeps_erase hf.nodup fun _ hplain => ?_⟩
      -- a definition is not in a frame of an open unit, and a macro is excluded
      rcases h with hdefine | hisMacro
      · rw [hf.define name sym hsym'] at hdefine
        cases hdefine
      · rw [Frame.macroAt, hsym'] at hplain
        rw [Symbol.isMacro, show sym.template = none from hplain] at hisMacro
        cases hisMacro)
    (fun _ _ _ hf => ⟨Frame.nodup_erase hf name, Frame.keeps_erase hf fun hinner => by cases hinner⟩)
  exact Preserved.of_pointwise hs ⟨hstep.1, hstep.2⟩

/-- Moving a name that waits to be bound to the frame below preserves the scope. -/
theorem preserved_hoist (hs : s.WellFormed) {name : Text} {sym : Symbol}
    (hfind : s.top.find? name = some sym) (hunset : sym.isSet = false) :
    Preserved s (s.hoist name).1 := by
  rw [hoist.eq_def]
  split
  · rename_i f below rest hinner
    have htop : s.top = f := by rw [top, hinner, List.headD_cons]
    have hall := hs.inner
    rw [hinner, List.forall_mem_cons, List.forall_mem_cons] at hall
    rw [htop] at hfind
    rw [hfind]
    have htemplate : sym.template = none := by
      rw [Symbol.isSet, Bool.or_eq_false_iff] at hunset
      simpa using hunset.2
    have hbelow : InnerStep below (if below.contains name = true then
        below.modify name fun old => absorb old sym else below.insert name sym) := by
      intro hf
      split
      · exact ⟨hf.modify fun old _ => ⟨rfl, rfl⟩, Frame.keeps_modify true fun old _ => ⟨rfl, rfl, id⟩⟩
      · rename_i hnot
        have hnone : below.find? name = none := Option.not_isSome_iff_eq_none.1 hnot
        exact ⟨hf.insert name (hall.1.define name sym hfind) (hall.1.reserved name sym hfind),
          Frame.keeps_insert hnone htemplate (hall.1.reserved name sym hfind)⟩
    obtain ⟨hinner', hkeeps⟩ := hbelow hall.2.1
    refine ⟨⟨by simp, hs.root, ?_⟩, ?_, .refl false s.root⟩
    · simp only [List.forall_mem_cons]
      exact ⟨hall.1.erase name, hinner', hall.2.2⟩
    · rw [hinner]
      exact .cons hkeeps (List.forall₂_same.2 fun f _ => .refl true f)
  · exact .refl hs

end Preserved

/-- Merging a name keeps what the frame and those of the two arms keep. -/
theorem MergeStep.keeps {test : Expr} {inner : Bool} {o onTrue onFalse here : Frame} {name : Text}
    {r : Frame × Option Cause} (htrue : o.Keeps inner onTrue) (hhere : o.Keeps inner here)
    (hnodup : here.names.Nodup) (h : MergeStep test onTrue onFalse here name r) :
    o.Keeps inner r.1 := by
  obtain heq | ⟨heq, hunset⟩ | ⟨base, sym, heq, hfrom⟩ := h.frame_cases
  · rwa [heq]
  · rw [heq]
    refine hhere.erase hnodup fun hinner hplain => ?_
    -- a value that was there would still be there in the taken arm
    by_contra hset
    rw [htrue.isSetAt hinner name hplain (by simpa using hset)] at hunset
    cases hunset
  · rw [heq]
    refine hhere.insert ?_ ?_ ?_
    · intro hplain
      have hbase : base.template = none := by
        rcases hfrom.origin with hfind | ⟨-, hfind | rfl⟩
        · simpa [Frame.macroAt, hfind] using hhere.macroAt name hplain
        · simpa [Frame.macroAt, hfind] using htrue.macroAt name hplain
        · rfl
      rcases hfrom.template with htemplate | ⟨ts, hts, htemplate⟩
      · rw [htemplate, hbase]
      · rw [htemplate]
        simpa [Frame.macroAt, hts] using htrue.macroAt name hplain
    · intro hreserved
      rw [hfrom.reserved]
      rcases hfrom.origin with hfind | ⟨-, hfind | rfl⟩
      · simpa [Frame.isReservedAt, hfind] using hhere.isReservedAt name hreserved
      · simpa [Frame.isReservedAt, hfind] using htrue.isReservedAt name hreserved
      · rfl
    · intro hinner hplain hset
      have hstays := hhere.isSetAt hinner name hplain hset
      refine hfrom.isSet (htrue.isSetAt hinner name hplain hset) ?_
      rcases hfrom.origin with hfind | ⟨hnone, -⟩
      · simpa [Frame.isSetAt, hfind] using hstays
      · simp [Frame.isSetAt, hnone] at hstays

/-- Merging a name leaves a frame that can belong to an open unit. -/
theorem MergeStep.isInner {test : Expr} {onTrue onFalse here : Frame} {name : Text}
    {r : Frame × Option Cause} (htrue : onTrue.IsInner) (hhere : here.IsInner)
    (h : MergeStep test onTrue onFalse here name r) : r.1.IsInner := by
  obtain heq | ⟨heq, -⟩ | ⟨base, sym, heq, hfrom⟩ := h.frame_cases
  · rwa [heq]
  · rw [heq]
    exact hhere.erase name
  · rw [heq]
    have hbase : base.define = false ∧ base.reserved = false := by
      rcases hfrom.origin with hfind | ⟨-, hfind | rfl⟩
      · exact ⟨hhere.define name base hfind, hhere.reserved name base hfind⟩
      · exact ⟨htrue.define name base hfind, htrue.reserved name base hfind⟩
      · exact ⟨rfl, rfl⟩
    exact hhere.insert name (hfrom.define.trans hbase.1) (hfrom.reserved.trans hbase.2)

/-- A block begins with a frame of its own, on top of those that are there. -/
theorem Opens.exists_top {s t : Scope} (h : s.Opens t) :
    ∃ f : Frame, f.IsInner ∧ t = { s with inner := f :: s.inner } := by
  induction h with
  | nest => exact ⟨Frame.empty, Frame.isInner_empty, rfl⟩
  | @bind t t' name value loc _ hbind ih =>
    obtain ⟨f, hf, rfl⟩ := ih
    rw [Expand.bindIn] at hbind
    cases hdeclare : declareLocal { s with inner := f :: s.inner } name with
    | error c =>
      rw [hdeclare] at hbind
      cases hbind
    | ok t1 =>
      rw [hdeclare] at hbind
      cases hbind
      obtain ⟨f1, hf1, rfl⟩ : ∃ f1 : Frame, f1.IsInner ∧ t1 = { s with inner := f1 :: s.inner } := by
        cases (declareLocal_eq_ok hdeclare).2 with
        | kept => exact ⟨f, hf, rfl⟩
        | entered => exact ⟨f.insert name {}, hf.insert name rfl rfl, rfl⟩
      refine ⟨_, ?_, rfl⟩
      exact hf1.modify fun sym _ => ⟨rfl, rfl⟩

theorem WellFormed.of_opens {s t : Scope} (hs : s.WellFormed) (hopens : s.Opens t) : t.WellFormed := by
  obtain ⟨f, hf, rfl⟩ := hopens.exists_top
  exact ⟨List.cons_ne_nil _ _, hs.root, List.forall_mem_cons.2 ⟨hf, hs.inner⟩⟩

/-- A scope each of whose frames keeps what is bound in that frame of another one, the innermost one
included. -/
def Kept (s s' : Scope) : Prop :=
  Pointwise (fun o f => f.IsInner ∧ o.Keeps true f) (fun o f => f.names.Nodup ∧ o.Keeps false f) s s'

theorem WellFormed.kept {s : Scope} (hs : s.WellFormed) : s.Kept s :=
  ⟨List.forall₂_same.2 fun f hf => ⟨hs.inner f hf, .refl true f⟩, hs.root, .refl false s.root⟩

/-- A block that is assembled over a frame of its own preserves the scope, with its innermost frame. -/
theorem kept_unnest {s t v : Scope} (hopens : s.Opens t) (hrun : Preserved t v) :
    s.Kept v.unnest := by
  obtain ⟨f, -, rfl⟩ := hopens.exists_top
  refine ⟨?_, hrun.wellFormed.root, hrun.root⟩
  have hlower : List.Forall₂ (Frame.Keeps true) s.inner v.unnest.inner := hrun.lower
  have hall : ∀ g ∈ v.unnest.inner, g.IsInner := fun g hg =>
    hrun.wellFormed.inner g (List.mem_of_mem_tail hg)
  exact forall₂_and_right hlower hall

/-- A scope whose frames are kept is preserved. -/
theorem Preserved.of_kept {s s' : Scope} (hs : s.WellFormed)
    (h : s.Kept s') : Preserved s s' :=
  Preserved.of_pointwise hs
    ⟨h.inner.imp fun _ _ hkept => (fun _ => hkept : InnerStep _ _), fun _ => h.root⟩

/-- Merging two arms that keep what is bound in a scope into one that does keeps it. -/
theorem Kept.merge {s here onTrue onFalse : Scope} {test : Expr} (hhere : s.Kept here)
    (htrue : s.Kept onTrue) (hfalse : s.Kept onFalse) : s.Kept (here.merge test onTrue onFalse).1 := by
  refine merge_rec ?_ ?_ hhere htrue hfalse
  · intro o t f here name r ht _ hh hstep
    exact ⟨hstep.isInner ht.1 hh.1, hstep.keeps ht.2 hh.2 hh.1.nodup⟩
  · intro o t f here name r ht _ hh hstep
    exact ⟨hstep.nodup hh.1, hstep.keeps ht.2 hh.2 hh.1⟩

/-- What merging two arms keeps is kept by merging forks. -/
theorem mergeForks_rec {P : Scope → Prop}
    (hmerge : ∀ (here : Scope) test onTrue onFalse, P here → P onTrue → P onFalse →
      P (here.merge test onTrue onFalse).1)
    {here fallback : Scope} (hhere : P here) (hfallback : P fallback)
    {forks : List (Expr × Conditional.Fork)} (hforks : ∀ arm ∈ forks, P arm.2.scope) :
    P (Conditional.mergeForks fallback forks here).1 := by
  induction forks with
  | nil => exact hhere
  | cons arm rest ih =>
    rw [List.forall_mem_cons] at hforks
    have hrest := ih hforks.2
    cases rest with
    | nil => exact hmerge _ _ _ _ hhere hforks.1 hfallback
    | cons next rest =>
      rw [Conditional.mergeForks]
      · split
        · rename_i scope c heq
          rwa [heq] at hrest
        · rename_i scope heq
          rw [heq] at hrest
          exact hmerge _ _ _ _ hrest hforks.1 hrest
      · simp

/-- Merging forks that keep what is bound in a scope keeps it. -/
theorem Kept.mergeForks {s here fallback : Scope} (hhere : s.Kept here)
    (hfallback : s.Kept fallback) {forks : List (Expr × Conditional.Fork)}
    (hforks : ∀ arm ∈ forks, s.Kept arm.2.scope) :
    s.Kept (Conditional.mergeForks fallback forks here).1 :=
  mergeForks_rec (fun _ _ _ _ hhere htrue hfalse => hhere.merge htrue hfalse) hhere hfallback hforks

/-- A scope that evolves stays well formed, and what is bound below its innermost frame is kept. -/
theorem Evolves.preserved {ok : Macro → Prop} {s s' : Scope} (h : Evolves ok s s')
    (hs : s.WellFormed) : Preserved s s' := by
  induction h with
  | refl s => exact .refl hs
  | trans _ _ ihst ihtv => exact (ihst hs).trans (ihtv (ihst hs).wellFormed)
  | modify s name g hg => exact preserved_modify hs hg
  | modifyTop s name g hg =>
    exact preserved_modifyTop hs fun hf => hf.modify fun sym hsym =>
      ⟨(hg sym hsym).define, (hg sym hsym).reserved⟩
  | modifyRoot s name g hg =>
    exact preserved_root hs (Frame.nodup_modify hs.root name g)
      (Frame.keeps_modify false fun sym hsym => (hg sym hsym).keeps)
  | declareLocal h => exact preserved_declareLocal hs h
  | declareGlobal h => exact preserved_declareGlobal hs h
  | define hnone h value loc => exact preserved_define hs hnone h value loc
  | remove hfind h => exact preserved_remove hs hfind h
  | defineMacro s name _ loc =>
    exact preserved_modifyTop hs fun hf => hf.modify fun sym _ => ⟨rfl, rfl⟩
  | hoist hfind _ hunset _ => exact preserved_hoist hs hfind hunset
  | block hopens _ ih =>
    exact .of_kept hs (kept_unnest hopens (ih (hs.of_opens hopens)))
  | fork s forks after _ hafter last _ ihforks ihlast =>
    refine .of_kept hs (hs.kept.mergeForks ?_ fun arm harm => ?_)
    · cases last with
      | none => exact hs.kept
      | some t => exact kept_unnest .nest (ihlast t rfl (hs.of_opens .nest))
    · rw [hafter arm harm]
      exact kept_unnest .nest (ihforks arm harm (hs.of_opens .nest))

end Scope

end MacroAsm
