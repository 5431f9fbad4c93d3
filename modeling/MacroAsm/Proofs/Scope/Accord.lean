import MacroAsm.Proofs.Scope.Choice

/-!
# What the arms of a condition agree on

Where both arms bind a name to the same value, a merge binds it to that value. What else a symbol says of its
name comes from the symbol that was there before the arms, or from one of theirs if there was none: a property
in which all of these agree is kept (`Symbol.Keeps`). Internal state is not merged.

The names of a frame are merged one after the other. Merging the name makes the frame accord with the arms
(`Scope.MergeStep.accords`), and it stays so whatever name is merged after it (`Scope.MergeStep.stays`).

Main statement: `Scope.merge_accords`.
-/

namespace MacroAsm

namespace Symbol

/-- Two symbols hold the same value, up to where it came from, and no macro. -/
structure SameValue (ts fs : Symbol) : Prop where
  /-- The first one holds no macro. -/
  left : ts.isMacro = false
  /-- The second one holds no macro. -/
  right : fs.isMacro = false
  /-- They hold a value, and it is the same. -/
  value : ∃ t f, ts.value = some t ∧ fs.value = some f ∧ t.similar f = true

/-- A property of a symbol is that of the symbols in the arms, if the arms agree in it, and if the symbol from
before them agrees, too, where there is one. -/
def KeptIn {α : Type} (property : Symbol → α) (before : Option Symbol) (ts fs sym : Symbol) : Prop :=
  property ts = property fs → (∀ hs, before = some hs → property hs = property ts) →
    property sym = property ts

/-- A symbol has what the symbols in the arms, and the one from before them, agree in. -/
structure Keeps (before : Option Symbol) (ts fs sym : Symbol) : Prop where
  /-- Whether it belongs to the whole program. -/
  global : KeptIn Symbol.global before ts fs sym
  /-- Whether another unit may override it. -/
  weak : KeptIn Symbol.weak before ts fs sym
  /-- Whether it was bound by DEFINE. -/
  define : KeptIn Symbol.define before ts fs sym
  /-- Whether it was declared by LOCAL. -/
  declared : KeptIn Symbol.declared before ts fs sym
  /-- Its attributes. -/
  attributes : KeptIn Symbol.attributes before ts fs sym

variable {before : Option Symbol} {hs ts fs m : Symbol} {test : Expr} {name : Text}

/-- The symbol that a merge starts from has every property in which all agree. -/
theorem keptIn_start {α : Type} (property : Symbol → α) (before : Option Symbol) (ts fs : Symbol) :
    KeptIn property before ts fs (before.getD ts) := by
  intro _ hbefore
  cases before with
  | none => rfl
  | some hs => exact hbefore hs rfl

/-- The symbol that a merge starts from has what all agree in. -/
theorem keeps_start (before : Option Symbol) (ts fs : Symbol) : Keeps before ts fs (before.getD ts) where
  global := keptIn_start _ before ts fs
  weak := keptIn_start _ before ts fs
  define := keptIn_start _ before ts fs
  declared := keptIn_start _ before ts fs
  attributes := keptIn_start _ before ts fs

/-- Merging two symbols changes what the one it starts from is bound to, and where, and whether it is used and
frozen. -/
theorem eq_of_mergeSet (h : Scope.mergeSet test name hs ts fs = .ok m) :
    m = { hs with
      value := m.value
      template := m.template
      loc := m.loc
      used := m.used
      frozen := m.frozen } := by
  rw [Scope.mergeSet] at h
  split at h
  · -- a macro is taken from the arms
    split at h <;> cases h
    rfl
  · split at h
    · -- a value is taken from the arms unless it is there
      cases h
      dsimp only
      split <;> rfl
    · -- different values become a choice
      split at h <;> cases h <;> rfl

/-- Merging two symbols leaves what all agree in. -/
theorem Keeps.mergeSet (hkeeps : Keeps before ts fs hs) (h : Scope.mergeSet test name hs ts fs = .ok m) :
    Keeps before ts fs m := by
  rw [eq_of_mergeSet h]
  exact ⟨hkeeps.global, hkeeps.weak, hkeeps.define, hkeeps.declared, hkeeps.attributes⟩

theorem SameValue.isSet (hsame : SameValue ts fs) : ts.isSet = true ∧ fs.isSet = true := by
  obtain ⟨t, f, ht, hf, -⟩ := hsame.value
  exact ⟨by simp [Symbol.isSet, ht], by simp [Symbol.isSet, hf]⟩

/-- Merging two symbols of the same value gives a symbol of that value. -/
theorem SameValue.mergeSet (hsame : SameValue ts fs) (h : Scope.mergeSet test name hs ts fs = .ok m) :
    Expr.similar? m.value ts.value = true := by
  obtain ⟨t, f, ht, hf, htf⟩ := hsame.value
  have hequal : Expr.similar? ts.value fs.value = true := by
    rw [ht, hf]
    exact htf
  rw [Scope.mergeSet, if_neg (by rw [hsame.left, hsame.right]; exact Bool.false_ne_true), if_pos hequal] at h
  cases h
  dsimp only
  split
  · assumption
  · rw [ht]
    exact Expr.similar_refl t

/-- A symbol has the value of the arms, up to where it came from, and what else all agree in. -/
structure Accords (before : Option Symbol) (ts fs sym : Symbol) : Prop where
  /-- The value of the arms. -/
  value : Expr.similar? sym.value ts.value = true
  /-- What all agree in. -/
  keeps : Keeps before ts fs sym

end Symbol

/-- If both arms bind a name to the same value, a merged frame has it under the name, with what else they agree
in. -/
def Frame.Accords (here onTrue onFalse merged : Frame) (name : Text) : Prop :=
  ∀ ts fs, onTrue.find? name = some ts → onFalse.find? name = some fs → ts.SameValue fs →
    here.isReservedAt name = false →
      ∃ sym, merged.find? name = some sym ∧ Symbol.Accords (here.find? name) ts fs sym

namespace Scope

variable {test : Expr} {onTrue onFalse here : Frame} {name other : Text} {ts fs : Symbol}

/-- What merging a name does that both arms bind to the same value. -/
theorem MergeStep.agreed {r : Frame × Option Cause} (h : MergeStep test onTrue onFalse here name r)
    (htrue : onTrue.find? name = some ts) (hfalse : onFalse.find? name = some fs) (hsame : ts.SameValue fs) :
    (here.isReservedAt name = true ∧ r = (here, none)) ∨
      (∃ m, mergeSet test name ((here.find? name).getD ts) ts fs = .ok m ∧ r = (here.insert name m, none)) ∨
      ∃ c, r = (here.insert name ((here.find? name).getD ts), some c) := by
  have hset : onTrue.isSetAt name = true := by
    rw [Frame.isSetAt, htrue]
    exact hsame.isSet.1
  have hset' : onFalse.isSetAt name = true := by
    rw [Frame.isSetAt, hfalse]
    exact hsame.isSet.2
  cases h with
  | reserved hreserved => exact .inl ⟨hreserved, rfl⟩
  | both _ ht hf _ _ hmerge =>
    cases ht.symm.trans htrue
    cases hf.symm.trans hfalse
    exact .inr (.inl ⟨_, hmerge, rfl⟩)
  | clash _ ht =>
    cases ht.symm.trans htrue
    exact .inr (.inr ⟨_, rfl⟩)
  | unbalanced _ hone => exact absurd (hset.trans hset'.symm) hone
  | removed _ ht => exact absurd (ht.symm.trans hset) Bool.false_ne_true
  | absent _ ht => cases ht.symm.trans htrue
  | declared _ ht => exact absurd (ht.symm.trans hset) Bool.false_ne_true

/-- Merging a name makes the frame accord with the arms at it. -/
theorem MergeStep.accords {r : Frame} (h : MergeStep test onTrue onFalse here name (r, none)) :
    here.Accords onTrue onFalse r name := by
  intro ts fs htrue hfalse hsame hhere
  obtain ⟨hreserved, -⟩ | ⟨m, hmerge, hr⟩ | ⟨c, hr⟩ := h.agreed htrue hfalse hsame
  · exact absurd (hhere.symm.trans hreserved) Bool.false_ne_true
  · cases hr
    exact ⟨m, by rw [Frame.find?_insert, if_pos rfl], hsame.mergeSet hmerge,
      (Symbol.keeps_start (here.find? name) ts fs).mergeSet hmerge⟩
  · cases hr

/-- What a frame has of the agreement of the arms at a name stays when any name is merged. -/
theorem MergeStep.stays {before : Option Symbol} {r : Frame × Option Cause}
    (h : MergeStep test onTrue onFalse here other r) (htrue : onTrue.find? name = some ts)
    (hfalse : onFalse.find? name = some fs) (hsame : ts.SameValue fs)
    (hhere : ∃ sym, here.find? name = some sym ∧ Symbol.Accords before ts fs sym) :
    ∃ sym, r.1.find? name = some sym ∧ Symbol.Accords before ts fs sym := by
  by_cases hname : name = other
  · subst hname
    obtain ⟨sym, hfind, haccords⟩ := hhere
    have hagreed := h.agreed htrue hfalse hsame
    rw [hfind, Option.getD_some] at hagreed
    obtain ⟨-, rfl⟩ | ⟨m, hmerge, rfl⟩ | ⟨c, rfl⟩ := hagreed
    · exact ⟨sym, hfind, haccords⟩
    · exact ⟨m, by rw [Frame.find?_insert, if_pos rfl], hsame.mergeSet hmerge, haccords.keeps.mergeSet hmerge⟩
    · exact ⟨sym, by rw [Frame.find?_insert, if_pos rfl], haccords⟩
  · rwa [h.find?_of_ne hname]

/-- Merging names makes a frame accord with the arms at each of them. -/
theorem mergeNames_accords {names : List Text} {r : Frame}
    (h : mergeNames test onTrue onFalse names here = (r, none)) (hname : name ∈ names) :
    here.Accords onTrue onFalse r name := by
  induction names generalizing here with
  | nil => cases hname
  | cons first rest ih =>
    have hstep := mergeName_step test onTrue onFalse here first
    rw [mergeNames] at h
    split at h
    · rename_i next hmerge
      rw [hmerge] at hstep
      by_cases hfirst : name = first
      · -- the name is merged now, and again if it stands in the list once more
        subst hfirst
        intro ts fs htrue hfalse hsame hhere
        have hstays : ∀ here' other r, (∃ sym, here'.find? name = some sym ∧
            Symbol.Accords (here.find? name) ts fs sym) → MergeStep test onTrue onFalse here' other r →
              ∃ sym, r.1.find? name = some sym ∧ Symbol.Accords (here.find? name) ts fs sym :=
          fun _ _ _ hF hr => hr.stays htrue hfalse hsame hF
        have hkept := mergeNames_rec hstays rest (hstep.accords ts fs htrue hfalse hsame hhere)
        rwa [h] at hkept
      · have hrest := ih h ((List.mem_cons.1 hname).resolve_left hfirst)
        rwa [Frame.Accords, Frame.isReservedAt, hstep.find?_of_ne hfirst] at hrest
    · cases h

/-- A merge that succeeds keeps what the arms agree on: in the root frame for every name, and in the frames of
open units for the names that they own. -/
theorem merge_accords {s onTrue onFalse : Scope} {test : Expr} (h : (s.merge test onTrue onFalse).2 = none)
    (name : Text) :
    s.root.Accords onTrue.root onFalse.root (s.merge test onTrue onFalse).1.root name ∧
      ∀ (i : Nat) (here t f : Frame), s.inner[i]? = some here → onTrue.inner[i]? = some t →
        onFalse.inner[i]? = some f → here.contains name = true →
          ∃ merged, (s.merge test onTrue onFalse).1.inner[i]? = some merged ∧
            here.Accords t f merged name := by
  rw [merge] at h ⊢
  split at h <;> rename_i hdepth
  · cases h
  rw [if_neg hdepth]
  split at h
  · cases h
  rename_i inner hinner
  dsimp only
  refine ⟨fun ts fs htrue hfalse hsame hhere => ?_, fun i here t f hhere ht hf howns => ?_⟩
  · have hname : name ∈ addNames (addNames s.root.names onTrue.root.names) onFalse.root.names :=
      mem_addNames.2 (.inl (mem_addNames.2 (.inr (Frame.mem_names_of_find? htrue))))
    exact mergeNames_accords (Prod.ext rfl h) hname ts fs htrue hfalse hsame hhere
  · have hname : name ∈ addNames (addNames here.names t.unsetNames) f.unsetNames :=
      mem_addNames.2 (.inl (mem_addNames.2 (.inl (Frame.contains_iff_mem_names.1 howns))))
    simp only [depth, Bool.or_eq_true, bne_iff_ne, ne_eq, not_or, Decidable.not_not,
      Nat.add_right_cancel_iff] at hdepth
    obtain ⟨merged, hmerged, hnames⟩ := mergeInner_eq_ok hdepth.1.symm hdepth.2.symm hinner hhere ht hf
    exact ⟨merged, hmerged, mergeNames_accords hnames hname⟩

/-- A scope with an open unit that has declared a name. -/
def openUnit : Scope := ⟨Scope.initial.root, [Frame.empty.insert "Y" {}]⟩

/-- The scope of an arm in that unit, which binds the name, and a weak one of the program. -/
def boundArm : Scope :=
  ⟨Scope.initial.root.insert "Z" { value := some (.literal default 6), weak := true },
    [Frame.empty.insert "Y" { value := some (.literal default 5) }]⟩

/-- Two arms that bind a name of the unit and one of the program to the same values. -/
theorem merge_accords_openUnit :
    (∃ sym, (openUnit.merge (.here default) boundArm boundArm).1.root.find? "Z" = some sym ∧
        sym.weak = true ∧ Expr.similar? sym.value (some (.literal default 6)) = true) ∧
      ∃ unit sym, (openUnit.merge (.here default) boundArm boundArm).1.inner[0]? = some unit ∧
        unit.find? "Y" = some sym ∧ Expr.similar? sym.value (some (.literal default 5)) = true := by
  have hmerge : (openUnit.merge (.here default) boundArm boundArm).2 = none := rfl
  obtain ⟨hroot, -⟩ := merge_accords hmerge "Z"
  obtain ⟨-, hinner⟩ := merge_accords hmerge "Y"
  let six : Symbol := { value := some (.literal default 6), weak := true }
  let five : Symbol := { value := some (.literal default 5) }
  obtain ⟨sym, hfind, hsym⟩ := hroot six six rfl rfl ⟨rfl, rfl, _, _, rfl, rfl, rfl⟩ rfl
  obtain ⟨unit, hunit, haccords⟩ := hinner 0 _ _ _ rfl rfl rfl rfl
  obtain ⟨sym', hfind', hsym'⟩ := haccords five five rfl rfl ⟨rfl, rfl, _, _, rfl, rfl, rfl⟩ rfl
  have hnew : openUnit.root.find? "Z" = none := rfl
  have hweak : sym.weak = true := hsym.keeps.weak rfl fun hs h => by cases hnew.symm.trans h
  exact ⟨⟨sym, hfind, hweak, hsym.value⟩, unit, sym', hunit, hfind', hsym'.value⟩

/-- The scope of an arm that sets the radix. -/
def radixArm : Scope :=
  Scope.initial.modify radixName fun sym => { sym with value := some (.literal default 16) }

/-- The radix is what it was, though both arms set it to the same. -/
theorem merge_not_accords :
    (Scope.initial.merge (.here default) radixArm radixArm).2 = none ∧ radixArm.radix = 16 ∧
      (Scope.initial.merge (.here default) radixArm radixArm).1.radix = 10 :=
  ⟨rfl, rfl, rfl⟩

end Scope

end MacroAsm
