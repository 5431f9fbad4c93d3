import MacroAsm.Proofs.Assembly.Evolution

/-!
# What a merged scope is read as

A valuation tells the truth of tests that are not known while assembling, as the linker will. `Expr.read`
resolves the choices of an expression whose tests are known or valued, and leaves the other ones. Expressions
that are the same are read as the same (`Expr.erase_read_congr`).

A merge binds a name on which two arms differ to a choice by the test. Read under a valuation that tells the
truth of the test, every variable of a merged scope is what it is in the arm that the test selects
(`Scope.merge_readsAs`). Merging forks from the last one to the first therefore gives a scope that is read as
the first fork whose test holds, or as the scope of what is taken otherwise (`Scope.mergeForks_readsAs`).
-/

namespace MacroAsm

namespace Expr

/-- The truth of tests that are not known while assembling, for those that it covers. Tests that are
the same have the same truth, so it is given for erased tests. -/
abbrev Valuation := Expr → Option Bool

/-- The truth of a test. A test that is known keeps its own. -/
def truth (σ : Valuation) (test : Expr) : Option Bool :=
  if test.isConcrete then test.asTruth.toOption else σ test.erase

theorem truth_congr (σ : Valuation) {a b : Expr} (h : a.erase = b.erase) : truth σ a = truth σ b := by
  rw [truth, truth, isConcrete_congr h, asTruth_congr h, h]

/-- One of two alternatives where the truth of a test is known, or else a third one. -/
def resolve {α : Type} : Option Bool → α → α → α → α
  | some true, onTrue, _, _ => onTrue
  | some false, _, onFalse, _ => onFalse
  | none, _, _, open_ => open_

mutual

/-- An expression with the choices resolved whose tests are known or valued. -/
def read (σ : Valuation) : Expr → Expr
  | .ternary loc test onTrue onFalse =>
    resolve (truth σ test) (onTrue.read σ) (onFalse.read σ)
      (.ternary loc (test.read σ) (onTrue.read σ) (onFalse.read σ))
  | .unary loc op value => .unary loc op (value.read σ)
  | .binary loc op left right => .binary loc op (left.read σ) (right.read σ)
  | .call loc name params => .call loc name (readAll σ params)
  | .absolute loc address => .absolute loc (address.read σ)
  | .displaced loc base displace => .displaced loc base (displace.read σ)
  | .offset loc base value => .offset loc base (value.read σ)
  | e => e

/-- The expressions of a list with their choices resolved. -/
def readAll (σ : Valuation) : List Expr → List Expr
  | [] => []
  | e :: rest => e.read σ :: readAll σ rest

end

mutual

/-- What an expression is read as depends on its erasure alone. -/
theorem erase_read_erase (σ : Valuation) : ∀ e : Expr, (e.erase.read σ).erase = (e.read σ).erase := by
  intro e
  cases e with
  | ternary loc test onTrue onFalse =>
    have htest : truth σ test.erase = truth σ test := truth_congr σ (erase_erase test)
    rw [erase, read, read, htest]
    -- the truth of the test decides on both sides alike
    rcases truth σ test with - | (- | -)
    · simp only [resolve, erase, erase_read_erase]
    · exact erase_read_erase σ onFalse
    · exact erase_read_erase σ onTrue
  | unary loc op value => simp only [erase, read, erase_read_erase]
  | binary loc op left right => simp only [erase, read, erase_read_erase]
  | call loc name params => simp only [erase, read, eraseAll_readAll_eraseAll]
  | absolute loc address => simp only [erase, read, erase_read_erase]
  | displaced loc base displace =>
    simp only [erase, read, erase_read_erase, Register.erase]
  | offset loc base value => simp only [erase, read, erase_read_erase, Register.erase]
  | _ => simp [erase, read, Register.erase, Condition.erase]

/-- What the expressions of a list are read as depends on their erasures alone. -/
theorem eraseAll_readAll_eraseAll (σ : Valuation) :
    ∀ es : List Expr, eraseAll (readAll σ (eraseAll es)) = eraseAll (readAll σ es) := by
  intro es
  cases es with
  | nil => rfl
  | cons e rest => simp only [eraseAll, readAll, erase_read_erase, eraseAll_readAll_eraseAll]

end

theorem erase_read_congr (σ : Valuation) {a b : Expr} (h : a.erase = b.erase) :
    (a.read σ).erase = (b.read σ).erase := by
  rw [← erase_read_erase σ a, h, erase_read_erase]

end Expr

namespace Frame

/-- A name of a frame that is neither internal state nor bound to a macro. -/
structure IsVariable (f : Frame) (name : Text) : Prop where
  /-- It is no internal state. -/
  notReserved : f.isReservedAt name = false
  /-- It is not bound to a macro. -/
  notMacro : f.macroAt name = none

/-- A name is read as the same in two frames: it is set in both or in neither, and the values it is bound to
are read as the same. -/
structure ReadsAs (σ : Expr.Valuation) (name : Text) (f f' : Frame) : Prop where
  /-- It is set in both frames or in neither. -/
  isSetAt : f.isSetAt name = f'.isSetAt name
  /-- Its values are read as the same. -/
  value : Expr.similar? ((f.valueAt name).map (Expr.read σ)) ((f'.valueAt name).map (Expr.read σ)) = true

variable {σ : Expr.Valuation} {name : Text} {f f' f'' : Frame}

/-- What is read as the same twice is read as the same. -/
theorem ReadsAs.trans (h : ReadsAs σ name f f') (h' : ReadsAs σ name f' f'') :
    ReadsAs σ name f f'' := by
  refine ⟨h.isSetAt.trans h'.isSetAt, ?_⟩
  have hvalue := (Expr.similar?_iff _ _).1 h.value
  have hvalue' := (Expr.similar?_iff _ _).1 h'.value
  exact (Expr.similar?_iff _ _).2 (hvalue.trans hvalue')

/-- A name that is set in neither frame is read as the same. -/
theorem ReadsAs.of_unset (h : f.isSetAt name = false) (h' : f'.isSetAt name = false) :
    ReadsAs σ name f f' := by
  have hnone : ∀ {f : Frame}, f.isSetAt name = false → f.valueAt name = none := by
    intro f hf
    rw [Frame.isSetAt] at hf
    rw [Frame.valueAt]
    cases hfind : f.find? name with
    | none => rfl
    | some sym =>
      rw [hfind] at hf
      have hset : (sym.value.isSome || sym.template.isSome) = false := hf
      rw [Bool.or_eq_false_iff] at hset
      simpa using hset.1
  refine ⟨h.trans h'.symm, ?_⟩
  rw [hnone h, hnone h']
  rfl

/-- A name that is bound to values which are read as the same. -/
theorem ReadsAs.of_find? {sym sym' : Symbol} {v v' : Expr} (hfind : f.find? name = some sym)
    (hfind' : f'.find? name = some sym') (hv : sym.value = some v) (hv' : sym'.value = some v')
    (hread : (v.read σ).erase = (v'.read σ).erase) : ReadsAs σ name f f' := by
  constructor
  · rw [Frame.isSetAt, Frame.isSetAt, hfind, hfind']
    simp [Symbol.isSet, hv, hv']
  · rw [Frame.valueAt, Frame.valueAt, hfind, hfind']
    simp only [Option.bind_some, hv, hv', Option.map_some, Expr.similar?]
    exact (Expr.similar_iff_erase_eq _ _).2 hread

end Frame

namespace Scope

variable {σ : Expr.Valuation} {test : Expr} {onTrue onFalse here : Frame} {name : Text}

/-- A name that was merged is read as it is in the arm that the test selects. -/
theorem MergeStep.readsAs {r : Frame} (h : MergeStep test onTrue onFalse here name (r, none))
    (hnodup : here.names.Nodup) (hhere : here.isReservedAt name = false)
    (htrue : onTrue.macroAt name = none) {b : Bool}
    (htruth : Expr.truth σ test = some b) : Frame.ReadsAs σ name r (if b then onTrue else onFalse) := by
  -- a name that neither arm binds is read as one that is not set
  have hunset : ∀ {r : Frame}, r.isSetAt name = false → onTrue.isSetAt name = false →
      onFalse.isSetAt name = false → Frame.ReadsAs σ name r (if b then onTrue else onFalse) := by
    intro r hr ht hf
    cases b
    · exact .of_unset hr hf
    · exact .of_unset hr ht
  have hnone : ∀ {f : Frame}, f.find? name = none → f.isSetAt name = false := by
    intro f hf
    rw [Frame.isSetAt, hf]
    rfl
  generalize hresult : (r, (none : Option Cause)) = result at h
  cases h with
  | reserved hreserved =>
    rw [hreserved] at hhere
    cases hhere
  | clash => cases hresult
  | unbalanced => cases hresult
  | removed _ ht hf _ =>
    cases hresult
    refine hunset (hnone ?_) ht hf
    rw [Frame.find?_erase hnodup, if_pos rfl]
  | absent hh ht hf =>
    cases hresult
    exact hunset (hnone hh) (hnone ht) (hnone hf)
  | declared _ ht hf hset _ =>
    cases hresult
    refine hunset ?_ ht hf
    rw [Frame.isSetAt, Frame.find?_insert, if_pos rfl]
    -- what is carried into an unset symbol leaves it so
    have hcarry : ∀ dst src, (carry dst src).isSet = dst.isSet := by
      intro dst src
      cases src <;> rfl
    show (carry (carry _ _) _).isSet = false
    rw [hcarry, hcarry]
    rw [Frame.isSetAt] at hset
    cases hfind : here.find? name with
    | none => rfl
    | some hs =>
      rw [hfind] at hset
      exact hset
  | @both ts fs merged _ ht hf hts hfs hmerge =>
    cases hresult
    have hfind : (here.insert name merged).find? name = some merged := by
      rw [Frame.find?_insert, if_pos rfl]
    cases mergedSymbol_of_mergeSet hts hfs hmerge with
    | sameMacro _ _ hvalue _ _ _ _ _ =>
      -- an arm that binds the name binds it to a value
      rw [Frame.macroAt, ht] at htrue
      have htemplate : ts.template = none := htrue
      simp [Symbol.isSet, hvalue, htemplate] at hts
    | @sameValue v t f hts' hfs' hvalue hleft hright _ _ _ _ _ _ =>
      cases b
      · exact .of_find? hfind hf hvalue hfs'
          (Expr.erase_read_congr σ ((Expr.similar_iff_erase_eq v f).1 hright))
      · exact .of_find? hfind ht hvalue hts'
          (Expr.erase_read_congr σ ((Expr.similar_iff_erase_eq v t).1 hleft))
    | @choice t f hts' hfs' hvalue _ _ _ _ _ _ =>
      cases b
      · refine .of_find? hfind hf hvalue hfs' ?_
        rw [Expr.read, htruth]
        rfl
      · refine .of_find? hfind ht hvalue hts' ?_
        rw [Expr.read, htruth]
        rfl

/-- A name stays in a frame when it is merged, unless both arms removed it. -/
theorem MergeStep.contains {r : Frame × Option Cause}
    (h : MergeStep test onTrue onFalse here name r) (hhere : here.contains name = true)
    (hstays : here.isSetAt name = true → onTrue.isSetAt name = false → onFalse.isSetAt name = true) :
    r.1.contains name = true := by
  have hinsert : ∀ sym, (here.insert name sym).contains name = true := by
    intro sym
    rw [Frame.contains, Frame.find?_insert, if_pos rfl]
    rfl
  cases h with
  | reserved => exact hhere
  | unbalanced => exact hhere
  | absent => exact hhere
  | both => exact hinsert _
  | clash => exact hinsert _
  | declared => exact hinsert _
  | removed _ ht hf hset =>
    rw [hstays hset ht] at hf
    cases hf

/-- What merging names one after the other did to one of them, or did not do to another name. -/
theorem mergeNames_eq_ok {names : List Text} {r : Frame}
    (h : mergeNames test onTrue onFalse names here = (r, none)) (hnames : names.Nodup)
    (hnodup : here.names.Nodup) (name : Text) :
    (name ∉ names ∧ r.find? name = here.find? name) ∨
      name ∈ names ∧ ∃ before after, before.names.Nodup ∧ before.find? name = here.find? name ∧
        MergeStep test onTrue onFalse before name (after, none) ∧ r.find? name = after.find? name := by
  induction names generalizing here with
  | nil =>
    cases h
    exact Or.inl ⟨List.not_mem_nil, rfl⟩
  | cons first rest ih =>
    rw [List.nodup_cons] at hnames
    have hstep := mergeName_step test onTrue onFalse here first
    rw [mergeNames] at h
    split at h
    · rename_i next hmerge
      rw [hmerge] at hstep
      by_cases hname : name = first
      · -- the name is merged now, and not again
        subst hname
        rcases ih h hnames.2 (hstep.nodup hnodup) with ⟨-, hfind⟩ | ⟨hmem, -⟩
        · exact Or.inr ⟨List.mem_cons_self, here, next, hnodup, rfl, hstep, hfind⟩
        · exact absurd hmem hnames.1
      · have hother : next.find? name = here.find? name := hstep.find?_of_ne hname
        rcases ih h hnames.2 (hstep.nodup hnodup) with ⟨hmem, hfind⟩ | ⟨hmem, before, after, hbefore, heq, hrest⟩
        · refine Or.inl ⟨?_, hfind.trans hother⟩
          exact fun hmem' => (List.mem_cons.1 hmem').elim hname hmem
        · exact Or.inr ⟨List.mem_cons_of_mem first hmem, before, after, hbefore, heq.trans hother, hrest⟩
    · cases h

/-- The names of two lists, without repetition. -/
theorem mem_addNames {names more : List Text} {name : Text} :
    name ∈ addNames names more ↔ name ∈ names ∨ name ∈ more := by
  rw [addNames]
  induction more generalizing names with
  | nil => simp
  | cons first rest ih =>
    rw [List.foldl_cons, ih, List.mem_cons]
    split
    · rename_i hcontains
      have hmem : first ∈ names := by simpa using hcontains
      constructor
      · rintro (h | h)
        · exact Or.inl h
        · exact Or.inr (Or.inr h)
      · rintro (h | rfl | h)
        · exact Or.inl h
        · exact Or.inl hmem
        · exact Or.inr h
    · rw [List.mem_append, List.mem_singleton, or_assoc]

/-- No name is added twice. -/
theorem nodup_addNames {names : List Text} (h : names.Nodup) (more : List Text) :
    (addNames names more).Nodup := by
  rw [addNames]
  induction more generalizing names with
  | nil => exact h
  | cons first rest ih =>
    rw [List.foldl_cons]
    refine ih ?_
    split
    · exact h
    · rename_i hcontains
      have hmem : first ∉ names := by simpa using hcontains
      rw [List.nodup_append_comm]
      exact List.nodup_cons.2 ⟨hmem, h⟩

/-- A variable of a frame that was merged is read as it is in the arm that the test selects, if it took part
or is in none of the frames. -/
theorem mergeNames_readsAs {names : List Text} {r : Frame}
    (h : mergeNames test onTrue onFalse names here = (r, none)) (hnames : names.Nodup)
    (hnodup : here.names.Nodup) (hhere : here.isReservedAt name = false)
    (htrue : onTrue.macroAt name = none)
    (hname : name ∉ names → here.find? name = none ∧ onTrue.find? name = none ∧ onFalse.find? name = none)
    {b : Bool} (htruth : Expr.truth σ test = some b) :
    Frame.ReadsAs σ name r (if b then onTrue else onFalse) := by
  have hcongr : ∀ {f f' f'' : Frame}, f.find? name = f'.find? name → Frame.ReadsAs σ name f' f'' →
      Frame.ReadsAs σ name f f'' := by
    intro f f' f'' heq hreads
    refine ⟨?_, ?_⟩
    · rw [Frame.isSetAt, heq]
      exact hreads.isSetAt
    · rw [Frame.valueAt, heq]
      exact hreads.value
  rcases mergeNames_eq_ok h hnames hnodup name with ⟨hmem, hfind⟩ | ⟨-, before, after, hbefore, heq, hstep, hfind⟩
  · obtain ⟨hh, ht, hf⟩ := hname hmem
    have hunset : ∀ {f : Frame}, f.find? name = none → f.isSetAt name = false := by
      intro f hf
      rw [Frame.isSetAt, hf]
      rfl
    cases b
    · exact .of_unset (hunset (hfind.trans hh)) (hunset hf)
    · exact .of_unset (hunset (hfind.trans hh)) (hunset ht)
  · refine hcongr hfind (hstep.readsAs hbefore ?_ htrue htruth)
    rw [Frame.isReservedAt, heq]
    exact hhere

/-- A name stays in a frame that is merged, unless both arms removed it. -/
theorem mergeNames_contains {names : List Text} {r : Frame}
    (h : mergeNames test onTrue onFalse names here = (r, none)) (hnames : names.Nodup)
    (hnodup : here.names.Nodup) (hhere : here.contains name = true)
    (hstays : here.isSetAt name = true → onTrue.isSetAt name = false → onFalse.isSetAt name = true) :
    r.contains name = true := by
  rcases mergeNames_eq_ok h hnames hnodup name with ⟨-, hfind⟩ | ⟨-, before, after, -, heq, hstep, hfind⟩
  · rwa [Frame.contains, hfind]
  · rw [Frame.contains, hfind]
    refine hstep.contains ?_ ?_
    · rwa [Frame.contains, heq]
    · rw [Frame.isSetAt, heq]
      exact hstays

/-- The frames of open units are merged one by one. -/
theorem mergeInner_eq_ok : ∀ {hs ts fs rs : List Frame}, hs.length = ts.length →
    hs.length = fs.length → mergeInner test hs ts fs = (rs, none) → ∀ {i : Nat} {h t f : Frame},
    hs[i]? = some h → ts[i]? = some t → fs[i]? = some f →
    ∃ r, rs[i]? = some r ∧
      mergeNames test t f (addNames (addNames h.names t.unsetNames) f.unsetNames) h = (r, none)
  | [], _, _, _, _, _, _, _, _, _, _, hh, _, _ => by simp at hh
  | h :: hs, t :: ts, f :: fs, rs, htlen, hflen, hmerge, i, h', t', f', hh, ht, hf => by
    rw [mergeInner] at hmerge
    split at hmerge
    · cases hmerge
    · rename_i here hnames
      rw [Prod.mk.injEq] at hmerge
      obtain ⟨rfl, hfailed⟩ := hmerge
      cases i with
      | zero =>
        cases hh
        cases ht
        cases hf
        exact ⟨here, rfl, hnames⟩
      | succ i =>
        have hrest : mergeInner test hs ts fs = ((mergeInner test hs ts fs).1, none) :=
          Prod.ext rfl hfailed
        exact mergeInner_eq_ok (Nat.succ.inj htlen) (Nat.succ.inj hflen) hrest hh ht hf
  | _ :: _, [], _, _, htlen, _, _, _, _, _, _, _, _, _ => by simp at htlen
  | _ :: _, _ :: _, [], _, _, hflen, _, _, _, _, _, _, _, _ => by simp at hflen

/-- The variables of a scope, and what they are read as in two others, frame by frame. In the frames of open
units these are the names that the frame owns, and in the root frame any name. -/
structure ReadsAs (σ : Expr.Valuation) (o s t : Scope) : Prop where
  /-- The frames of open units. -/
  inner : ∀ {i : Nat} {f : Frame}, o.inner[i]? = some f → ∃ fs ft, s.inner[i]? = some fs ∧
    t.inner[i]? = some ft ∧ ∀ name, f.contains name = true → f.IsVariable name → fs.ReadsAs σ name ft
  /-- The root frame. -/
  root : ∀ name, o.root.IsVariable name → s.root.ReadsAs σ name t.root

/-- What is read as the same twice is read as the same. -/
theorem ReadsAs.trans {o s t v : Scope} (hst : ReadsAs σ o s t) (htv : ReadsAs σ o t v) :
    ReadsAs σ o s v where
  inner hf := by
    obtain ⟨fs, ft, hfs, hft, hreads⟩ := hst.inner hf
    obtain ⟨ft', fv, hft', hfv, hreads'⟩ := htv.inner hf
    rw [hft] at hft'
    cases hft'
    exact ⟨fs, fv, hfs, hfv, fun name howns hname =>
      (hreads name howns hname).trans (hreads' name howns hname)⟩
  root name hname := (hst.root name hname).trans (htv.root name hname)

/-- Every variable that a frame of an open unit owns is still in that frame of another scope. -/
def Owns (o s : Scope) : Prop :=
  ∀ {i : Nat} {f fs : Frame}, o.inner[i]? = some f → s.inner[i]? = some fs →
    ∀ name, f.contains name = true → f.IsVariable name → fs.contains name = true

/-- The frames of a scope that is kept. -/
theorem Kept.getElem? {o s : Scope} (h : o.Kept s) {i : Nat} {f : Frame}
    (hf : o.inner[i]? = some f) :
    ∃ fs, s.inner[i]? = some fs ∧ fs.IsInner ∧ f.Keeps true fs := by
  obtain ⟨hlen, hget⟩ := List.forall₂_iff_get.1 h.inner
  obtain ⟨hi, rfl⟩ := List.getElem?_eq_some_iff.1 hf
  have hi' : i < s.inner.length := hlen ▸ hi
  exact ⟨s.inner[i], List.getElem?_eq_getElem hi', hget i hi hi'⟩

/-- The variables of a merged scope are read as they are in the arm that the test selects, and stay where they
are. The scope is the one that the arms were copied from, or the arm that is taken if the test does not
hold. -/
theorem merge_readsAs {o here onTrue onFalse r : Scope} (hhere : o.Kept here) (htrue : o.Kept onTrue)
    (hfalse : o.Kept onFalse) (howns : Owns o here) (hsame : here = o ∨ here = onFalse)
    (h : here.merge test onTrue onFalse = (r, none)) {b : Bool}
    (htruth : Expr.truth σ test = some b) :
    ReadsAs σ o r (if b then onTrue else onFalse) ∧ Owns o r := by
  have hlen : ∀ {s : Scope}, o.Kept s → s.inner.length = o.inner.length :=
    fun hs => hs.inner.length_eq.symm
  rw [merge] at h
  split at h
  · cases h
  · split at h
    · cases h
    · rename_i inner hinner
      generalize hnames : addNames (addNames here.root.names onTrue.root.names) onFalse.root.names = names
        at h
      rw [Prod.mk.injEq] at h
      obtain ⟨rfl, hfailed⟩ := h
      have hroot : mergeNames test onTrue.root onFalse.root names here.root =
          ((mergeNames test onTrue.root onFalse.root names here.root).1, none) := Prod.ext rfl hfailed
      -- the frames of open units, each with those of the arms
      have hframe : ∀ {i : Nat} {f : Frame}, o.inner[i]? = some f → ∃ fh ft ff fr,
          here.inner[i]? = some fh ∧ onTrue.inner[i]? = some ft ∧ onFalse.inner[i]? = some ff ∧
          inner[i]? = some fr ∧ fh.IsInner ∧ f.Keeps true fh ∧ f.Keeps true ft ∧
          mergeNames test ft ff (addNames (addNames fh.names ft.unsetNames) ff.unsetNames) fh =
            (fr, none) := by
        intro i f hf
        obtain ⟨fh, hfh, hfhinner, hfhkeeps⟩ := hhere.getElem? hf
        obtain ⟨ft, hft, -, hftkeeps⟩ := htrue.getElem? hf
        obtain ⟨ff, hff, -, -⟩ := hfalse.getElem? hf
        obtain ⟨fr, hfr, hmerge⟩ := mergeInner_eq_ok ((hlen hhere).trans (hlen htrue).symm)
          ((hlen hhere).trans (hlen hfalse).symm) hinner hfh hft hff
        exact ⟨fh, ft, ff, fr, hfh, hft, hff, hfr, hfhinner, hfhkeeps, hftkeeps, hmerge⟩
      refine ⟨⟨fun {i f} hf => ?_, fun name hname => ?_⟩, fun {i f fs} hf hfs name hname hvar => ?_⟩
      · obtain ⟨fh, ft, ff, fr, hfh, hft, hff, hfr, hinner', hkeeps, hkeeps', hmerge⟩ := hframe hf
        refine ⟨fr, if b then ft else ff, hfr, ?_, fun name hname hvar => ?_⟩
        · cases b
          · exact hff
          · exact hft
        · have hmem : name ∈ addNames (addNames fh.names ft.unsetNames) ff.unsetNames :=
            mem_addNames.2 (Or.inl (mem_addNames.2 (Or.inl
              (Frame.contains_iff_mem_names.1 (howns hf hfh name hname hvar)))))
          exact mergeNames_readsAs hmerge (nodup_addNames (nodup_addNames hinner'.nodup _) _) hinner'.nodup
            (hkeeps.isReservedAt name hvar.notReserved) (hkeeps'.macroAt name hvar.notMacro)
            (fun hnot => absurd hmem hnot) htruth
      · have hdistinct : names.Nodup := by
          rw [← hnames]
          exact nodup_addNames (nodup_addNames hhere.root.1 _) _
        have hreads := mergeNames_readsAs hroot hdistinct hhere.root.1
          (hhere.root.2.isReservedAt name hname.notReserved) (htrue.root.2.macroAt name hname.notMacro)
          (σ := σ) (b := b) (fun hnot => ?_) htruth
        · cases b
          · exact hreads
          · exact hreads
        · -- a name that does not take part is in none of the root frames
          rw [← hnames, mem_addNames, mem_addNames, not_or, not_or] at hnot
          have habsent : ∀ {f : Frame}, name ∉ f.names → f.find? name = none := by
            intro f hf
            rw [← Frame.contains_iff_mem_names, Frame.contains] at hf
            simpa using hf
          exact ⟨habsent hnot.1.1, habsent hnot.1.2, habsent hnot.2⟩
      · obtain ⟨fh, ft, ff, fr, hfh, hft, hff, hfr, hinner', hkeeps, hkeeps', hmerge⟩ := hframe hf
        rw [show inner[i]? = some fs from hfs] at hfr
        cases hfr
        refine mergeNames_contains hmerge (nodup_addNames (nodup_addNames hinner'.nodup _) _)
          hinner'.nodup (howns hf hfh name hname hvar) fun hset hunset => ?_
        rcases hsame with rfl | rfl
        · -- what was bound before the arms is bound after each of them
          rw [hf] at hfh
          cases hfh
          rw [hkeeps'.isSetAt rfl name hvar.notMacro hset] at hunset
          cases hunset
        · rw [hfh] at hff
          cases hff
          exact hset

/-- The scope of the first fork whose test holds, or else the one of what is taken otherwise. -/
def selected (σ : Expr.Valuation) (fallback : Scope) : List (Expr × Conditional.Fork) → Scope
  | [] => fallback
  | (test, fork) :: rest =>
    if Expr.truth σ test = some true then fork.scope else selected σ fallback rest

/-- The variables of a scope into which forks were merged are read as they are in the scope of the first fork
whose test holds, or else in that of what is taken otherwise. -/
theorem mergeForks_readsAs {o fallback r : Scope} (ho : o.WellFormed) (hfallback : o.Kept fallback)
    {forks : List (Expr × Conditional.Fork)} (hne : forks ≠ [])
    (hforks : ∀ arm ∈ forks, o.Kept arm.2.scope ∧ (Expr.truth σ arm.1).isSome = true)
    (h : Conditional.mergeForks fallback forks o = (r, none)) :
    ReadsAs σ o r (selected σ fallback forks) ∧ Owns o r := by
  have hown : Owns o o := by
    intro i f fs hf hfs name hname _
    rw [hf] at hfs
    cases hfs
    exact hname
  induction forks generalizing r with
  | nil => exact absurd rfl hne
  | cons arm rest ih =>
    obtain ⟨test, fork⟩ := arm
    rw [List.forall_mem_cons] at hforks
    obtain ⟨⟨hfork, htruth⟩, hrest⟩ := hforks
    obtain ⟨b, hb⟩ := Option.isSome_iff_exists.1 htruth
    cases rest with
    | nil =>
      obtain ⟨hreads, howns⟩ := merge_readsAs ho.kept hfork hfallback hown (Or.inl rfl) h hb
      refine ⟨?_, howns⟩
      rw [selected, hb]
      cases b
      · exact hreads
      · exact hreads
    | cons next rest =>
      rw [Conditional.mergeForks] at h
      · split at h
        · cases h
        · rename_i scope hscope
          -- what the forks after this one were merged into is taken if its test does not hold
          obtain ⟨hlater, howns⟩ := ih (List.cons_ne_nil _ _) hrest hscope
          have hkept : o.Kept scope := by
            have hmerged := ho.kept.mergeForks hfallback fun arm harm => (hrest arm harm).1
            rwa [hscope] at hmerged
          obtain ⟨hreads, howns'⟩ := merge_readsAs hkept hfork hkept howns (Or.inr rfl) h hb
          refine ⟨?_, howns'⟩
          rw [selected, hb]
          cases b
          · exact hreads.trans hlater
          · exact hreads
      · simp

end Scope

end MacroAsm
