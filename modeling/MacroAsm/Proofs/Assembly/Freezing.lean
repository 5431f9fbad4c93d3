import MacroAsm.Assembly.Run
import MacroAsm.Proofs.Assembly.Unfolding

/-!
# Frozen values stay

Every statement that writes a symbol looks whether it is frozen first, and merging the arms of an IF leaves a
value alone on which they agree. So a frame keeps a frozen value under its name until the name is removed
(`Frame.Retains`), whatever is done to the scope (`Scope.Unfolds.retains`). This is stated for two moments of a
run, between which blocks may begin and end (`Scope.Later`), and for a frame that is there all the time.

RADIX is the exception. It writes to the name of the radix without looking, and LOCAL and EQU can make that
name a frozen one of a unit.
-/

namespace MacroAsm

namespace Frame

/-- A frame binds a name to a frozen value. -/
def Fixes (f : Frame) (name : Text) (v : Expr) : Prop :=
  ∃ sym, f.find? name = some sym ∧ sym.frozen = true ∧ sym.value = some v

/-- Every frozen value of the first frame is one of the second, apart from the radix and the names that are
removed. -/
def Retains (gone : Text → Prop) (f f' : Frame) : Prop :=
  ∀ name v, ¬ gone name → name ≠ Scope.radixName → f.Fixes name v → f'.Fixes name v

variable {gone : Text → Prop} {o f f' h : Frame} {name : Text} {v : Expr}

theorem Retains.refl (gone : Text → Prop) (f : Frame) : f.Retains gone f := fun _ _ _ _ h => h

theorem Retains.trans (hf : f.Retains gone f') (hf' : f'.Retains gone h) : f.Retains gone h :=
  fun name v hname hradix hfixes => hf' name v hname hradix (hf name v hname hradix hfixes)

theorem Fixes.isSetAt (hfixes : f.Fixes name v) : f.isSetAt name = true := by
  obtain ⟨sym, hfind, -, hvalue⟩ := hfixes
  simp [Frame.isSetAt, hfind, Symbol.isSet, hvalue]

theorem fixes_congr (heq : f'.find? name = f.find? name) : f'.Fixes name v ↔ f.Fixes name v := by
  rw [Fixes, Fixes, heq]

/-- A change of a symbol that keeps a frozen value. -/
theorem retains_modify {g : Symbol → Symbol}
    (hg : ∀ sym v, name ≠ Scope.radixName → f.find? name = some sym → sym.frozen = true →
      sym.value = some v → (g sym).frozen = true ∧ (g sym).value = some v) :
    f.Retains gone (f.modify name g) := by
  intro other v _ hradix hfixes
  by_cases heq : other = name
  · subst heq
    obtain ⟨sym, hfind, hfrozen, hvalue⟩ := hfixes
    obtain ⟨hfrozen', hvalue'⟩ := hg sym v hradix hfind hfrozen hvalue
    exact ⟨g sym, by rw [find?_modify_self, hfind]; rfl, hfrozen', hvalue'⟩
  · exact (fixes_congr (find?_modify_of_ne heq f g)).2 hfixes

/-- A symbol of which a name has no frozen value, or the same one, may be entered. -/
theorem Retains.insert (hf : o.Retains gone f) {sym : Symbol}
    (hname : ∀ v, ¬ gone name → name ≠ Scope.radixName → o.Fixes name v →
      sym.frozen = true ∧ sym.value = some v) : o.Retains gone (f.insert name sym) := by
  intro other v hother hradix hfixes
  by_cases heq : other = name
  · subst heq
    exact ⟨sym, by rw [find?_insert, if_pos rfl], hname v hother hradix hfixes⟩
  · exact (fixes_congr (by rw [find?_insert, if_neg heq])).2 (hf other v hother hradix hfixes)

/-- A name without a frozen value may be removed, and one that is counted as removed. -/
theorem Retains.erase (hf : o.Retains gone f)
    (hname : ¬ gone name → ∀ v, ¬ o.Fixes name v) : o.Retains gone (f.erase name) := by
  intro other v hother hradix hfixes
  by_cases heq : other = name
  · subst heq
    exact absurd hfixes (hname hother v)
  · exact (fixes_congr (find?_erase_of_ne heq f)).2 (hf other v hother hradix hfixes)

/-- An unset symbol holds no frozen value. -/
theorem not_fixes_of_unset {sym : Symbol} (hfind : f.find? name = some sym) (hunset : sym.isSet = false)
    (v : Expr) : ¬ f.Fixes name v := by
  intro hfixes
  have hset := hfixes.isSetAt
  rw [isSetAt, hfind, Option.map_some, Option.getD_some, hunset] at hset
  cases hset

/-- A name that is not there holds no frozen value. -/
theorem not_fixes_of_none (hnone : f.find? name = none) (v : Expr) : ¬ f.Fixes name v := by
  rintro ⟨sym, hfind, -⟩
  rw [hnone] at hfind
  cases hfind

end Frame

/-- A statement that revises a symbol keeps its frozen value. -/
theorem Symbol.Revises.fixed {name : Text} {sym sym' : Symbol} (h : sym.Revises name sym') {v : Expr}
    (hradix : name ≠ Scope.radixName) (hfrozen : sym.frozen = true) (hvalue : sym.value = some v) :
    sym'.frozen = true ∧ sym'.value = some v :=
  ⟨h.frozen hfrozen, (h.frozenValue hradix hfrozen (by rw [hvalue]; rfl)).trans hvalue⟩

namespace Scope

section Merge

variable {gone : Text → Prop} {test : Expr} {o onTrue onFalse here : Frame} {name : Text}
  {r : Frame × Option Cause}

/-- Arms that agree with the value that is there leave it alone. -/
theorem fixed_of_mergeSet {hs ts fs m : Symbol} {v : Expr} (hhere : hs.value = some v)
    (htrue : ts.value = some v) (hfalse : fs.value = some v)
    (h : mergeSet test name hs ts fs = .ok m) :
    m.value = some v ∧ (hs.frozen = true → m.frozen = true) := by
  have hsimilar : Expr.similar? (some v) (some v) = true := Expr.similar_refl v
  -- a macro is excluded by the values, and the values are similar as they are the same
  rw [mergeSet, htrue, hfalse, hhere] at h
  simp only [hsimilar, Option.isSome_some, Bool.or_true, if_true] at h
  split at h
  · cases h
  · cases h
    exact ⟨hhere, fun hfrozen => by simp [hfrozen]⟩

/-- Merging a name keeps a frozen value that was not removed. -/
theorem MergeStep.retains (htrue : o.Retains gone onTrue) (hfalse : o.Retains gone onFalse)
    (hhere : o.Retains gone here) (h : MergeStep test onTrue onFalse here name r) :
    o.Retains gone r.1 := by
  cases h with
  | reserved | unbalanced | absent => exact hhere
  | removed _ hunset _ _ =>
    intro other v hother hradix hfixes
    by_cases heq : other = name
    · -- the arms still hold the value
      subst heq
      rw [(htrue other v hother hradix hfixes).isSetAt] at hunset
      cases hunset
    · exact (Frame.fixes_congr (Frame.find?_erase_of_ne heq here)).2
        (hhere other v hother hradix hfixes)
  | @both ts fs merged _ hts hfs _ _ hmerge =>
    refine hhere.insert fun v hname hradix hfixes => ?_
    -- both arms and the scope hold the frozen value still
    obtain ⟨ts', hts', -, hvalueT⟩ := htrue name v hname hradix hfixes
    obtain ⟨fs', hfs', -, hvalueF⟩ := hfalse name v hname hradix hfixes
    obtain ⟨hs, hhs, hfrozen, hvalue⟩ := hhere name v hname hradix hfixes
    rw [hts] at hts'
    rw [hfs] at hfs'
    cases hts'
    cases hfs'
    rw [hhs] at hmerge
    obtain ⟨hmerged, hkept⟩ := fixed_of_mergeSet hvalue hvalueT hvalueF hmerge
    exact ⟨hkept hfrozen, hmerged⟩
  | clash =>
    refine hhere.insert fun v hname hradix hfixes => ?_
    obtain ⟨hs, hhs, hfrozen, hvalue⟩ := hhere name v hname hradix hfixes
    rw [hhs]
    exact ⟨hfrozen, hvalue⟩
  | declared _ _ _ hunset _ =>
    refine hhere.insert fun v hname hradix hfixes => ?_
    rw [(hhere name v hname hradix hfixes).isSetAt] at hunset
    cases hunset

end Merge

variable {gone : Text → Prop} {s s' t v v' : Scope}

/-- Frame by frame, a scope has the frozen values of another one. -/
abbrev Retains (gone : Text → Prop) : Scope → Scope → Prop :=
  Pointwise (Frame.Retains gone) (Frame.Retains gone)

theorem forall₂_retains_refl (gone : Text → Prop) (fs : List Frame) :
    List.Forall₂ (Frame.Retains gone) fs fs :=
  List.forall₂_same.2 fun f _ => .refl gone f

theorem Retains.refl (gone : Text → Prop) (s : Scope) : s.Retains gone s :=
  ⟨forall₂_retains_refl gone _, .refl gone s.root⟩

theorem Retains.trans (hst : s.Retains gone s') (htv : s'.Retains gone t) : s.Retains gone t :=
  ⟨forall₂_trans (R := Frame.Retains gone) (fun _ _ _ h h' => h.trans h') hst.inner htv.inner,
    hst.root.trans htv.root⟩

/-- A change of the innermost frame that retains what is in it. -/
theorem retains_modifyTop {g : Frame → Frame} (hg : s.top.Retains gone (g s.top)) :
    s.Retains gone (s.modifyTop g) := by
  unfold modifyTop
  unfold top at hg
  cases hinner : s.inner with
  | nil =>
    rw [hinner] at hg
    refine ⟨?_, hg⟩
    rw [hinner]
    exact .nil
  | cons f rest =>
    rw [hinner] at hg
    refine ⟨?_, .refl gone s.root⟩
    rw [hinner]
    exact .cons hg (forall₂_retains_refl gone rest)

/-- A change of the frame of a name that retains what is in it. -/
theorem retains_modifyFrameOf {name : Text} {g : Frame → Frame}
    (hg : ∀ (f : Frame) sym, f.find? name = some sym → s.find? name = some sym → f.Retains gone (g f)) :
    s.Retains gone (s.modifyFrameOf name g) := by
  obtain ⟨hinner, hroot⟩ := modifyFrameOf_rel (Frame.Retains.refl gone) (Frame.Retains.refl gone)
    (fun f _ sym hsym hfind => hg f sym hsym hfind) fun sym hsym hfind => hg s.root sym hsym hfind
  exact ⟨hinner, hroot⟩

/-- Declaring a name in the innermost frame replaces nothing. -/
theorem retains_declareLocal {name : Text} (h : s.declareLocal name = .ok s') : s.Retains gone s' := by
  cases (declareLocal_eq_ok h).2 with
  | kept => exact .refl gone s
  | entered htop =>
    exact retains_modifyTop ((Frame.Retains.refl gone s.top).insert fun v _ _ hfixes =>
      absurd hfixes (Frame.not_fixes_of_none htop v))

/-- Declaring a name in the root frame moves or enters one that is not set. -/
theorem retains_declareGlobal {name : Text} (h : s.declareGlobal name = .ok s') : s.Retains gone s' := by
  have hinsert : ∀ sym, s.root.find? name = none → s.root.Retains gone (s.root.insert name sym) :=
    fun sym hroot => (Frame.Retains.refl gone s.root).insert fun v _ _ hfixes =>
      absurd hfixes (Frame.not_fixes_of_none hroot v)
  cases declareGlobal_eq_ok h with
  | kept => exact .refl gone s
  | promoted =>
    exact ⟨forall₂_retains_refl gone _, Frame.retains_modify fun sym v _ _ _ hvalue => ⟨rfl, hvalue⟩⟩
  | entered hroot => exact ⟨forall₂_retains_refl gone _, hinsert _ hroot⟩
  | moved hroot hin hunset =>
    -- the name leaves the frame of a unit, where it held nothing
    refine ⟨modifyOwner_forall₂ (Frame.Retains.refl gone) fun f _ sym' hsym' hfound => ?_, hinsert _ hroot⟩
    rw [hin] at hfound
    cases hfound
    exact (Frame.Retains.refl gone f).erase fun _ => Frame.not_fixes_of_unset hsym' hunset

/-- Binding a name that does not exist by DEFINE replaces nothing. -/
theorem retains_define {name : Text} (hnone : s.find? name = none) (h : s.declareGlobal name = .ok s')
    (value : Expr) (loc : Location) :
    s.Retains gone (s'.modify name fun sym => { sym with value := some value, loc, define := true }) := by
  have hframes := find?_eq_none_iff.1 hnone
  rw [declareGlobal, hframes.2] at h
  simp only [hframes.1] at h
  cases h
  -- the name is in the root frame only
  have hroot : s.root.Retains gone (s.root.insert name (promote {})) :=
    (Frame.Retains.refl gone s.root).insert fun v _ _ hfixes =>
      absurd hfixes (Frame.not_fixes_of_none hframes.2 v)
  have hdeclared : s.Retains gone { s with root := s.root.insert name (promote {}) } :=
    ⟨forall₂_retains_refl gone _, hroot⟩
  refine hdeclared.trans (retains_modifyFrameOf fun f sym hsym hfind => ?_)
  refine Frame.retains_modify fun sym' v _ hsym' _ hvalue => ?_
  -- the symbol that is found is the new one
  rw [hsym] at hsym'
  cases hsym'
  rw [find?_eq, hframes.1, Option.orElse_none, Frame.find?_insert, if_pos rfl] at hfind
  cases hfind
  cases hvalue

/-- At the end of a block nothing that is set moves. -/
theorem Hoists.retains (h : v.Hoists v') : v.Retains gone v' := by
  induction h with
  | refl v => exact .refl gone v
  | @step v v' name sym hfind _ hunset _ _ ih =>
    refine .trans ?_ ih
    rw [hoist.eq_def]
    split
    · rename_i f below rest hinner
      rw [top, hinner, List.headD_cons] at hfind
      rw [hfind]
      refine ⟨?_, .refl gone v.root⟩
      rw [hinner]
      -- a name that waits holds no frozen value, and does not replace the one below
      refine .cons ?_ (.cons ?_ (forall₂_retains_refl gone rest))
      · exact (Frame.Retains.refl gone f).erase fun _ => Frame.not_fixes_of_unset hfind hunset
      · split
        · exact Frame.retains_modify fun _ _ _ _ hfrozen hvalue => ⟨hfrozen, hvalue⟩
        · rename_i hnot
          have hnone : below.find? name = none := Option.not_isSome_iff_eq_none.1 hnot
          exact (Frame.Retains.refl gone below).insert fun v _ _ hfixes =>
            absurd hfixes (Frame.not_fixes_of_none hnone v)
    · exact .refl gone v

/-- A block leaves the frames below its own with what they retain. -/
theorem Retains.unnest (hopens : s.Opens t) (h : t.Retains gone v) : s.Retains gone v.unnest := by
  obtain ⟨f, -, rfl⟩ := hopens.exists_top
  refine ⟨?_, h.root⟩
  rw [Scope.unnest, ← List.drop_one]
  exact List.forall₂_drop 1 h.inner

/-- A frozen value stays until its name is removed, whatever is done to the scope. -/
theorem Unfolds.retains {ok : Macro → Prop} (h : Unfolds gone ok s s') : s.Retains gone s' := by
  induction h with
  | refl s => exact .refl gone s
  | trans _ _ ihst ihtv => exact ihst.trans ihtv
  | modify s name g hg =>
    refine retains_modifyFrameOf fun f sym hsym hfind => Frame.retains_modify ?_
    intro sym' v hradix hsym' hfrozen hvalue
    rw [hsym] at hsym'
    cases hsym'
    exact (hg sym hfind).fixed hradix hfrozen hvalue
  | modifyRoot s name g hg =>
    refine ⟨forall₂_retains_refl gone _, Frame.retains_modify ?_⟩
    exact fun sym v hradix hsym hfrozen hvalue => (hg sym hsym).fixed hradix hfrozen hvalue
  | declareAhead _ h => exact retains_declareLocal h
  | declareLocal h loc =>
    exact (retains_declareLocal h).trans (retains_modifyTop
      (Frame.retains_modify fun _ _ _ _ hfrozen hvalue => ⟨hfrozen, hvalue⟩))
  | declareGlobal h => exact retains_declareGlobal h
  | define hnone h value loc => exact retains_define hnone h value loc
  | remove _ _ hgone =>
    exact retains_modifyFrameOf fun f _ _ _ =>
      (Frame.Retains.refl gone f).erase fun hname => absurd hgone hname
  | defineMacro h hopen _ loc =>
    refine (retains_declareLocal h).trans (retains_modifyTop (Frame.retains_modify ?_))
    -- MACRO does not replace a frozen value
    intro sym v _ hsym hfrozen hvalue
    rw [hopen sym hsym hfrozen] at hvalue
    cases hvalue
  | block hopens _ hends ih =>
    -- what the frame of the block held goes with it, and the others are those of the scope around
    exact (ih.trans hends.retains).unnest hopens
  | fork s forks ran ended _ hends hended last _ hlastEnds ihforks ihlast =>
    refine mergeForks_rec (P := s.Retains gone) (fun here test _ _ hh ht hf => ?_) (.refl gone s) ?_
      fun arm harm => ?_
    · exact merge_rec (fun _ _ _ _ _ _ ht hf hh hstep => hstep.retains ht hf hh)
        (fun _ _ _ _ _ _ ht hf hh hstep => hstep.retains ht hf hh) hh ht hf
    · cases last with
      | none => exact .refl gone s
      | some t => exact ((ihlast t rfl).trans (hlastEnds t rfl).retains).unnest .nest
    · rw [hended arm harm]
      exact ((ihforks arm harm).trans (hends arm harm).retains).unnest .nest

/-- The frame at a height: the root frame, and then those of the open units from the outermost on. -/
def frameAt (s : Scope) : Nat → Option Frame
  | 0 => some s.root
  | k + 1 => s.inner.reverse[k]?

/-- The symbol of a name in the frame at a height. -/
def symbolAt (s : Scope) (k : Nat) (name : Text) : Option Symbol := (s.frameAt k).bind fun f => f.find? name

/-- Two moments of a run, the names that are removed in between, and a height up to which the frames are those
of the same units. The arms of an undecided IF run over copies of the scope, so from an arm there is no way
back but to what was there before. -/
inductive Later (gone : Text → Prop) (height : Nat) : Scope → Scope → Prop where
  /-- Statements are handled. -/
  | handled {s s' : Scope} (h : Unfolds gone (fun _ => True) s s') : Later gone height s s'
  /-- A nested block begins, or an arm over a copy of the scope. -/
  | entered {s s' : Scope} (h : s.Opens s') : Later gone height s s'
  /-- The names of a block that ends are accounted for. -/
  | accounted {s s' : Scope} (h : s.Hoists s') : Later gone height s s'
  /-- The frame of a block that ends goes, if it is above the height. -/
  | left {s : Scope} (h : height < s.inner.length) : Later gone height s s.unnest
  /-- One moment after another. -/
  | trans {s s' t : Scope} (hst : Later gone height s s') (htv : Later gone height s' t) :
    Later gone height s t

variable {height k : Nat}

/-- Scopes that retain what is in them retain it at every height. -/
theorem Retains.frameAt {f : Frame} (h : s.Retains gone s') (hf : s.frameAt k = some f) :
    ∃ f', s'.frameAt k = some f' ∧ f.Retains gone f' := by
  cases k with
  | zero =>
    cases hf
    exact ⟨s'.root, rfl, h.root⟩
  | succ k =>
    obtain ⟨hlength, hrel⟩ := List.forall₂_iff_get.1 (List.rel_reverse h.inner)
    obtain ⟨hk, rfl⟩ := List.getElem?_eq_some_iff.1 hf
    exact ⟨_, List.getElem?_eq_getElem (hlength ▸ hk), hrel k hk (hlength ▸ hk)⟩

/-- A frozen value of a frame stays there as long as its name is not removed. -/
theorem Later.retains {f : Frame} (h : Later gone height s s') (hk : k ≤ height)
    (hf : s.frameAt k = some f) : ∃ f', s'.frameAt k = some f' ∧ f.Retains gone f' := by
  -- heights count from the root frame on, so a block that begins or ends shifts none of them
  induction h generalizing f with
  | handled h => exact h.retains.frameAt hf
  | entered h =>
    obtain ⟨g, -, rfl⟩ := h.exists_top
    refine ⟨f, ?_, .refl gone f⟩
    cases k with
    | zero => exact hf
    | succ k =>
      obtain ⟨hlength, -⟩ := List.getElem?_eq_some_iff.1 hf
      rw [frameAt, List.reverse_cons, List.getElem?_append_left hlength]
      exact hf
  | accounted h => exact h.retains.frameAt hf
  | @left s h =>
    refine ⟨f, ?_, .refl gone f⟩
    cases k with
    | zero => exact hf
    | succ k =>
      rw [frameAt] at hf ⊢
      cases hinner : s.inner with
      | nil => simp [hinner] at h
      | cons g rest =>
        rw [hinner, List.length_cons] at h
        rw [hinner, List.reverse_cons, List.getElem?_append_left (by rw [List.length_reverse]; omega)] at hf
        rw [Scope.unnest, hinner]
        exact hf
  | trans _ _ ihst ihtv =>
    obtain ⟨f', hf', hretains⟩ := ihst hf
    obtain ⟨f'', hf'', hretains'⟩ := ihtv hf'
    exact ⟨f'', hf'', hretains.trans hretains'⟩

/-- A symbol that is frozen and holds a value is still there at a later moment, frozen and with that value, unless
its name is removed or that of the radix. -/
theorem Later.symbolAt (h : Later gone height s s') (hk : k ≤ height) {name : Text} {sym : Symbol}
    {v : Expr} (hsym : s.symbolAt k name = some sym) (hfrozen : sym.frozen = true)
    (hvalue : sym.value = some v) (hname : ¬ gone name) (hradix : name ≠ radixName) :
    ∃ sym', s'.symbolAt k name = some sym' ∧ sym'.frozen = true ∧ sym'.value = some v := by
  obtain ⟨f, hf, hfind⟩ := Option.bind_eq_some_iff.1 hsym
  obtain ⟨f', hf', hretains⟩ := h.retains hk hf
  obtain ⟨sym', hfind', hfrozen', hvalue'⟩ :=
    hretains name v hname hradix ⟨sym, hfind, hfrozen, hvalue⟩
  exact ⟨sym', by rw [Scope.symbolAt, hf', Option.bind_some, hfind'], hfrozen', hvalue'⟩

end Scope

end MacroAsm
