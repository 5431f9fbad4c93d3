import MacroAsm.Proofs.Expr.Similar
import MacroAsm.Proofs.Scope.Lookup
import MacroAsm.Scope.Merge

/-!
# What a merge does to a name

`Scope.MergeStep` lists all that merging one name can do, and `Scope.mergeName_step` says that it does one
of these. What holds of a merged scope is derived from that list: a relation to the scope that the arms were
copied from, which merging any name keeps, is kept by a whole merge (`Scope.merge_rec`).
-/

namespace MacroAsm

namespace Scope

/-- What merging one name can do to a frame, and the failure it can end in. -/
inductive MergeStep (test : Expr) (onTrue onFalse here : Frame) (name : Text) :
    Frame × Option Cause → Prop where
  /-- Internal state is not merged. -/
  | reserved (hreserved : here.isReservedAt name = true) :
    MergeStep test onTrue onFalse here name (here, none)
  /-- Both arms bind the name. -/
  | both {ts fs merged : Symbol} (hhere : here.isReservedAt name = false)
    (htrue : onTrue.find? name = some ts) (hfalse : onFalse.find? name = some fs)
    (hts : ts.isSet = true) (hfs : fs.isSet = true)
    (hmerge : mergeSet test name ((here.find? name).getD ts) ts fs = .ok merged) :
    MergeStep test onTrue onFalse here name (here.insert name merged, none)
  /-- Both arms bind the name, and what they bind it to cannot be merged. -/
  | clash {ts fs : Symbol} {c : Cause} (hhere : here.isReservedAt name = false)
    (htrue : onTrue.find? name = some ts) (hfalse : onFalse.find? name = some fs)
    (hts : ts.isSet = true) (hfs : fs.isSet = true) :
    MergeStep test onTrue onFalse here name
      (here.insert name ((here.find? name).getD ts), some c)
  /-- Only one arm binds the name. -/
  | unbalanced {c : Cause} (hhere : here.isReservedAt name = false)
    (hone : onTrue.isSetAt name ≠ onFalse.isSetAt name) :
    MergeStep test onTrue onFalse here name (here, some c)
  /-- The name was bound, and both arms removed it. -/
  | removed (hhere : here.isReservedAt name = false) (htrue : onTrue.isSetAt name = false)
    (hfalse : onFalse.isSetAt name = false) (hset : here.isSetAt name = true) :
    MergeStep test onTrue onFalse here name (here.erase name, none)
  /-- The name is nowhere. -/
  | absent (hhere : here.find? name = none) (htrue : onTrue.find? name = none)
    (hfalse : onFalse.find? name = none) :
    MergeStep test onTrue onFalse here name (here, none)
  /-- The name is unset everywhere, and declared somewhere. -/
  | declared (hhere : here.isReservedAt name = false) (htrue : onTrue.isSetAt name = false)
    (hfalse : onFalse.isSetAt name = false) (hset : here.isSetAt name = false)
    (hsome : (here.find? name).isSome = true ∨ (onTrue.find? name).isSome = true ∨
      (onFalse.find? name).isSome = true) :
    MergeStep test onTrue onFalse here name
      (here.insert name (carry (carry ((here.find? name).getD {}) (onTrue.find? name))
        (onFalse.find? name)), none)

/-- What merging does to a name that neither arm binds. -/
private theorem mergeStep_of_unset (test : Expr) {onTrue onFalse here : Frame} {name : Text}
    (hhere : here.isReservedAt name = false) (htrue : onTrue.isSetAt name = false)
    (hfalse : onFalse.isSetAt name = false) :
    MergeStep test onTrue onFalse here name
      (if here.isSetAt name then (here.erase name, none)
      else if (here.find? name).isNone && (onTrue.find? name).isNone && (onFalse.find? name).isNone then
        (here, none)
      else
        (here.insert name (carry (carry ((here.find? name).getD {}) (onTrue.find? name))
          (onFalse.find? name)), none)) := by
  cases hset : here.isSetAt name with
  | true => exact .removed hhere htrue hfalse hset
  | false =>
    rw [if_neg Bool.false_ne_true]
    split
    · rename_i hnone
      simp only [Bool.and_eq_true, Option.isNone_iff_eq_none] at hnone
      exact .absent hnone.1.1 hnone.1.2 hnone.2
    · rename_i hsome
      refine .declared hhere htrue hfalse hset ?_
      simp only [Bool.and_eq_true, Option.isNone_iff_eq_none] at hsome
      simp only [Option.isSome_iff_ne_none]
      tauto

/-- Merging one name does one of these things. -/
theorem mergeName_step (test : Expr) (onTrue onFalse here : Frame) (name : Text) :
    MergeStep test onTrue onFalse here name (mergeName test onTrue onFalse here name) := by
  by_cases hreserved : here.isReservedAt name = true
  · have hskip : mergeName test onTrue onFalse here name = (here, none) := by
      rw [mergeName]
      exact if_pos hreserved
    rw [hskip]
    exact .reserved hreserved
  have hhere : here.isReservedAt name = false := by simpa using hreserved
  -- a name that is not there is not set
  have hnot : ∀ {f : Frame}, f.find? name = none → f.isSetAt name = false := by
    intro f hf
    rw [Frame.isSetAt, hf]
    rfl
  have hset : ∀ {f : Frame} {sym : Symbol}, f.find? name = some sym →
      f.isSetAt name = sym.isSet := by
    intro f sym hf
    rw [Frame.isSetAt, hf]
    rfl
  rw [mergeName, if_neg (show ¬((here.find? name).map Symbol.reserved).getD false = true from
    hreserved)]
  cases ht : onTrue.find? name with
  | none =>
    cases hf : onFalse.find? name with
    | none =>
      have hstep := mergeStep_of_unset test hhere (hnot ht) (hnot hf)
      rwa [ht, hf] at hstep
    | some f =>
      cases hfs : f.isSet with
      | true =>
        simp only [Option.map_none, Option.map_some, Option.getD_none, Option.getD_some, hfs]
        exact .unbalanced hhere (by rw [hnot ht, hset hf, hfs]; exact Bool.false_ne_true)
      | false =>
        have hstep := mergeStep_of_unset test hhere (hnot ht) ((hset hf).trans hfs)
        rw [ht, hf] at hstep
        simp only [Option.map_none, Option.map_some, Option.getD_none, Option.getD_some, hfs]
        exact hstep
  | some t =>
    cases hf : onFalse.find? name with
    | none =>
      cases hts : t.isSet with
      | true =>
        simp only [Option.map_none, Option.map_some, Option.getD_none, Option.getD_some, hts]
        exact .unbalanced hhere (by rw [hnot hf, hset ht, hts]; exact Bool.noConfusion)
      | false =>
        have hstep := mergeStep_of_unset test hhere ((hset ht).trans hts) (hnot hf)
        rw [ht, hf] at hstep
        simp only [Option.map_none, Option.map_some, Option.getD_none, Option.getD_some, hts]
        exact hstep
    | some f =>
      simp only [Option.map_some, Option.getD_some]
      cases hts : t.isSet with
      | true =>
        cases hfs : f.isSet with
        | true =>
          dsimp only
          split
          · exact .both hhere ht hf hts hfs ‹_›
          · exact .clash hhere ht hf hts hfs
        | false =>
          exact .unbalanced hhere (by rw [hset ht, hset hf, hts, hfs]; exact Bool.noConfusion)
      | false =>
        cases hfs : f.isSet with
        | true =>
          exact .unbalanced hhere (by rw [hset ht, hset hf, hts, hfs]; exact Bool.noConfusion)
        | false =>
          have hstep := mergeStep_of_unset test hhere ((hset ht).trans hts) ((hset hf).trans hfs)
          rw [ht, hf] at hstep
          exact hstep

/-- The symbol that two arms which both bind a name are merged into, given the symbol it starts from. -/
inductive MergedSymbol (test : Expr) (hs ts fs : Symbol) : Symbol → Prop where
  /-- Both arms bind the name to the same macro. -/
  | sameMacro {m : Symbol} (htemplate : m.template = ts.template)
    (hids : ts.template.map Macro.id = fs.template.map Macro.id) (hts : ts.value = none)
    (hfs : fs.value = none) (hvalue : m.value = hs.value) (hdefine : m.define = hs.define)
    (hreserved : m.reserved = hs.reserved) (hglobal : m.global = hs.global) :
    MergedSymbol test hs ts fs m
  /-- Both arms bind the name to the same value. -/
  | sameValue {m : Symbol} {v t f : Expr} (hts : ts.value = some t) (hfs : fs.value = some f)
    (hvalue : m.value = some v) (hleft : v.similar t = true) (hright : v.similar f = true)
    (htrue : ts.template = none) (hfalse : fs.template = none) (htemplate : m.template = hs.template)
    (hdefine : m.define = hs.define) (hreserved : m.reserved = hs.reserved)
    (hglobal : m.global = hs.global) : MergedSymbol test hs ts fs m
  /-- The arms bind the name to different values, between which the test chooses. -/
  | choice {m : Symbol} {t f : Expr} (hts : ts.value = some t) (hfs : fs.value = some f)
    (hvalue : m.value = some (.ternary test.loc test t f)) (htrue : ts.template = none)
    (hfalse : fs.template = none) (htemplate : m.template = hs.template)
    (hdefine : m.define = hs.define) (hreserved : m.reserved = hs.reserved)
    (hglobal : m.global = hs.global) : MergedSymbol test hs ts fs m

/-- A symbol that holds no macro is set exactly if it holds a value. -/
theorem exists_value {sym : Symbol} (hplain : sym.isMacro = false) (hset : sym.isSet = true) :
    ∃ v, sym.value = some v ∧ sym.template = none := by
  rw [Symbol.isMacro] at hplain
  rw [Symbol.isSet, hplain, Bool.or_false] at hset
  obtain ⟨v, hv⟩ := Option.isSome_iff_exists.1 hset
  exact ⟨v, hv, Option.isSome_eq_false_iff.1 hplain |> Option.isNone_iff_eq_none.1⟩

/-- Two arms that both bind a name are merged into one of these symbols. -/
theorem mergedSymbol_of_mergeSet {test : Expr} {name : Text} {hs ts fs m : Symbol}
    (hts : ts.isSet = true) (hfs : fs.isSet = true) (h : mergeSet test name hs ts fs = .ok m) :
    MergedSymbol test hs ts fs m := by
  rw [mergeSet] at h
  by_cases hplain : (ts.isMacro || fs.isMacro) = true
  · rw [if_pos hplain] at h
    split at h
    · cases h
    · rename_i hsame
      cases h
      simp only [Bool.or_eq_true, bne_iff_ne, ne_eq, not_or, Decidable.not_not,
        Bool.not_eq_true, Option.isSome_eq_false_iff, Option.isNone_iff_eq_none] at hsame
      exact .sameMacro rfl hsame.1.1 hsame.1.2 hsame.2 rfl rfl rfl rfl
  · rw [if_neg hplain] at h
    rw [Bool.or_eq_true, not_or, Bool.not_eq_true, Bool.not_eq_true] at hplain
    obtain ⟨t, ht, htrue⟩ := exists_value hplain.1 hts
    obtain ⟨f, hf, hfalse⟩ := exists_value hplain.2 hfs
    rw [ht, hf] at h
    by_cases hsimilar : Expr.similar? (some t) (some f) = true
    · rw [if_pos hsimilar] at h
      have htf : t.erase = f.erase := (Expr.similar_iff_erase_eq t f).1 hsimilar
      by_cases hhere : Expr.similar? hs.value (some t) = true
      · rw [if_pos hhere] at h
        cases h
        -- the value that was there is kept, with where it came from
        cases hv : hs.value with
        | none =>
          rw [hv] at hhere
          cases hhere
        | some v =>
          rw [hv] at hhere
          have hvt : v.erase = t.erase := (Expr.similar_iff_erase_eq v t).1 hhere
          exact .sameValue ht hf rfl hhere ((Expr.similar_iff_erase_eq v f).2 (hvt.trans htf)) htrue
            hfalse rfl rfl rfl rfl
      · rw [if_neg hhere] at h
        cases h
        exact .sameValue ht hf rfl (Expr.similar_refl t) hsimilar htrue hfalse rfl rfl rfl rfl
    · rw [if_neg hsimilar] at h
      cases h
      exact .choice ht hf rfl htrue hfalse rfl rfl rfl rfl

/-- What two arms that both bind a name are merged into is set. -/
theorem MergedSymbol.isSet {test : Expr} {hs ts fs m : Symbol} (hts : ts.isSet = true)
    (h : MergedSymbol test hs ts fs m) : m.isSet = true := by
  cases h with
  | sameMacro htemplate _ hvalue =>
    rw [Symbol.isSet, hvalue, Option.isSome_none, Bool.false_or] at hts
    rw [Symbol.isSet, htemplate, hts, Bool.or_true]
  | sameValue _ _ hvalue => rw [Symbol.isSet, hvalue, Option.isSome_some, Bool.true_or]
  | choice _ _ hvalue => rw [Symbol.isSet, hvalue, Option.isSome_some, Bool.true_or]

/-- Where the symbol comes from that a merge enters under a name, and what it keeps of it. -/
structure MergedFrom (onTrue here : Frame) (name : Text) (base sym : Symbol) : Prop where
  /-- It starts from the symbol that is there, or else from that of the taken arm or a new one. -/
  origin : here.find? name = some base ∨
    here.find? name = none ∧ (onTrue.find? name = some base ∨ base = {})
  /-- Its macro is that one's, or that of the taken arm. -/
  template : sym.template = base.template ∨
    ∃ ts, onTrue.find? name = some ts ∧ sym.template = ts.template
  /-- Whether it was bound by DEFINE is kept. -/
  define : sym.define = base.define
  /-- Whether it is internal state is kept. -/
  reserved : sym.reserved = base.reserved
  /-- It stays set if the taken arm binds it. -/
  isSet : onTrue.isSetAt name = true → base.isSet = true → sym.isSet = true

/-- Merging a name leaves the frame as it is, removes the name where neither arm binds it, or enters a
symbol. -/
theorem MergeStep.frame_cases {test : Expr} {onTrue onFalse here : Frame} {name : Text}
    {r : Frame × Option Cause} (h : MergeStep test onTrue onFalse here name r) :
    r.1 = here ∨
      (r.1 = here.erase name ∧ onTrue.isSetAt name = false) ∨
      ∃ base sym, r.1 = here.insert name sym ∧ MergedFrom onTrue here name base sym := by
  -- the symbol that a merge of two set symbols starts from
  have horigin : ∀ {ts : Symbol}, onTrue.find? name = some ts →
      here.find? name = some ((here.find? name).getD ts) ∨
        here.find? name = none ∧ (onTrue.find? name = some ((here.find? name).getD ts) ∨
          (here.find? name).getD ts = {}) := by
    intro ts htrue
    cases hhere : here.find? name with
    | none => exact Or.inr ⟨rfl, Or.inl htrue⟩
    | some hs => exact Or.inl rfl
  cases h with
  | reserved => exact Or.inl rfl
  | unbalanced => exact Or.inl rfl
  | absent => exact Or.inl rfl
  | removed _ htrue _ _ => exact Or.inr (Or.inl ⟨rfl, htrue⟩)
  | @both ts fs merged _ htrue _ hts hfs hmerge =>
    refine Or.inr (Or.inr ⟨(here.find? name).getD ts, merged, rfl, ?_⟩)
    have hmerged := mergedSymbol_of_mergeSet hts hfs hmerge
    have hset := hmerged.isSet hts
    cases hmerged with
    | sameMacro htemplate _ _ _ _ hdefine hreserved _ =>
      exact ⟨horigin htrue, Or.inr ⟨ts, htrue, htemplate⟩, hdefine, hreserved, fun _ _ => hset⟩
    | sameValue _ _ _ _ _ _ _ htemplate hdefine hreserved _ =>
      exact ⟨horigin htrue, Or.inl htemplate, hdefine, hreserved, fun _ _ => hset⟩
    | choice _ _ _ _ _ htemplate hdefine hreserved _ =>
      exact ⟨horigin htrue, Or.inl htemplate, hdefine, hreserved, fun _ _ => hset⟩
  | clash _ htrue =>
    exact Or.inr (Or.inr ⟨_, _, rfl, horigin htrue, Or.inl rfl, rfl, rfl, fun _ h => h⟩)
  | declared _ htrue =>
    -- what is carried into a symbol changes none of these
    have hcarry : ∀ dst src, (carry dst src).template = dst.template ∧
        (carry dst src).define = dst.define ∧ (carry dst src).reserved = dst.reserved := by
      intro dst src
      cases src <;> exact ⟨rfl, rfl, rfl⟩
    refine Or.inr (Or.inr ⟨(here.find? name).getD {}, _, rfl, ?_, Or.inl ?_, ?_, ?_, ?_⟩)
    · cases hhere : here.find? name with
      | none => exact Or.inr ⟨rfl, Or.inr rfl⟩
      | some hs => exact Or.inl rfl
    · rw [(hcarry _ _).1, (hcarry _ _).1]
    · rw [(hcarry _ _).2.1, (hcarry _ _).2.1]
    · rw [(hcarry _ _).2.2, (hcarry _ _).2.2]
    · intro hset
      rw [htrue] at hset
      cases hset

/-- Merging a name does not touch the others. -/
theorem MergeStep.find?_of_ne {test : Expr} {onTrue onFalse here : Frame} {name : Text}
    {r : Frame × Option Cause} (h : MergeStep test onTrue onFalse here name r) {other : Text}
    (hne : other ≠ name) : r.1.find? other = here.find? other := by
  obtain heq | ⟨heq, -⟩ | ⟨base, sym, heq, -⟩ := h.frame_cases
  · rw [heq]
  · rw [heq, Frame.find?_erase_of_ne hne]
  · rw [heq, Frame.find?_insert, if_neg hne]

/-- Merging a name leaves a frame that binds each name once. -/
theorem MergeStep.nodup {test : Expr} {onTrue onFalse here : Frame} {name : Text}
    {r : Frame × Option Cause} (hhere : here.names.Nodup)
    (h : MergeStep test onTrue onFalse here name r) : r.1.names.Nodup := by
  obtain heq | ⟨heq, -⟩ | ⟨base, sym, heq, -⟩ := h.frame_cases
  · rwa [heq]
  · rw [heq]
    exact Frame.nodup_erase hhere name
  · rw [heq]
    exact Frame.nodup_insert hhere name sym

/-- A property of frames that merging any name keeps is kept by merging names. -/
theorem mergeNames_rec {F : Frame → Prop} {test : Expr} {onTrue onFalse : Frame}
    (hstep : ∀ here name r, F here → MergeStep test onTrue onFalse here name r → F r.1)
    (names : List Text) {here : Frame} (hF : F here) :
    F (mergeNames test onTrue onFalse names here).1 := by
  induction names generalizing here with
  | nil => exact hF
  | cons name rest ih =>
    have hnext := hstep here name _ hF (mergeName_step test onTrue onFalse here name)
    rw [mergeNames]
    split
    · rename_i here' hmerge
      rw [hmerge] at hnext
      exact ih hnext
    · rename_i here' c hmerge
      rw [hmerge] at hnext
      exact hnext

section Lists

variable {F Q : Frame → Frame → Prop}

/-- A relation to the frames that the arms were copied from is kept by merging the frames of open units,
if merging any name keeps it. -/
theorem mergeInner_rec {test : Expr}
    (hstep : ∀ o t f here name r, F o t → F o f → F o here → MergeStep test t f here name r → F o r.1) :
    ∀ {os hs ts fs : List Frame}, List.Forall₂ F os hs → List.Forall₂ F os ts →
      List.Forall₂ F os fs → List.Forall₂ F os (mergeInner test hs ts fs).1
  | [], _, _, _, .nil, .nil, .nil => by
    rw [mergeInner]
    · exact .nil
    · simp
  | o :: os, h :: hs, t :: ts, f :: fs, .cons hh hhs, .cons ht hts, .cons hf hfs => by
    have hmerged := mergeNames_rec (fun here name r hF hr => hstep o t f here name r ht hf hF hr)
      (addNames (addNames h.names t.unsetNames) f.unsetNames) hh
    rw [mergeInner]
    split
    · rename_i here c hmerge
      rw [hmerge] at hmerged
      exact .cons hmerged hhs
    · rename_i here hmerge
      rw [hmerge] at hmerged
      exact .cons hmerged (mergeInner_rec hstep hhs hts hfs)

/-- Two scopes related frame by frame, the frames of open units by `F` and the root frames by `Q`. -/
structure Pointwise (F Q : Frame → Frame → Prop) (s t : Scope) : Prop where
  /-- The frames of open units. -/
  inner : List.Forall₂ F s.inner t.inner
  /-- The root frames. -/
  root : Q s.root t.root

/-- A relation to the scope that the arms were copied from is kept by a merge, if merging any name keeps
it. -/
theorem merge_rec {test : Expr}
    (hF : ∀ o t f here name r, F o t → F o f → F o here → MergeStep test t f here name r → F o r.1)
    (hQ : ∀ o t f here name r, Q o t → Q o f → Q o here → MergeStep test t f here name r → Q o r.1)
    {s here onTrue onFalse : Scope} (hhere : Pointwise F Q s here) (htrue : Pointwise F Q s onTrue)
    (hfalse : Pointwise F Q s onFalse) : Pointwise F Q s (here.merge test onTrue onFalse).1 := by
  have hinner := mergeInner_rec hF hhere.inner htrue.inner hfalse.inner
  rw [merge]
  split
  · exact hhere
  · split
    · rename_i inner c hmerge
      rw [hmerge] at hinner
      exact ⟨hinner, hhere.root⟩
    · rename_i inner hmerge
      rw [hmerge] at hinner
      exact ⟨hinner, mergeNames_rec
        (fun h name r hh hr => hQ _ _ _ h name r htrue.root hfalse.root hh hr) _ hhere.root⟩

end Lists

end Scope

end MacroAsm
