import MacroAsm.Proofs.Scope.Merge

/-!
# Where the symbols of a scope come from

`Frame.Has B f name` says that a frame holds a symbol with the property `B` under a name. A change of a frame
brings in no such symbol if the change of the symbol does not, and neither does a merge, if `B` is `Traced`:
what has it was merged from something that does (`Scope.hasAt_merge`, `Scope.has_root_merge`).
-/

namespace MacroAsm

namespace Frame

/-- A frame holds a symbol with a property under a name. -/
def Has (B : Symbol → Prop) (f : Frame) (name : Text) : Prop := ∃ sym, f.find? name = some sym ∧ B sym

variable {B : Symbol → Prop} {f : Frame} {name other : Text}

/-- A frame holds some symbol under the names that it contains. -/
theorem has_true_iff : f.Has (fun _ => True) name ↔ f.contains name = true := by
  rw [contains, Option.isSome_iff_exists]
  constructor
  · rintro ⟨sym, hsym, -⟩
    exact ⟨sym, hsym⟩
  · rintro ⟨sym, hsym⟩
    exact ⟨sym, hsym, trivial⟩

/-- What a frame holds it contains. -/
theorem Has.contains (h : f.Has B name) : f.contains name = true := by
  obtain ⟨sym, hsym, -⟩ := h
  rw [Frame.contains, hsym]
  rfl

theorem not_has_empty : ¬ Frame.empty.Has B name := by
  rintro ⟨sym, hsym, -⟩
  cases hsym

/-- What a changed frame holds. -/
theorem has_modify {g : Symbol → Symbol} (hg : ∀ sym, f.find? name = some sym → B (g sym) → B sym)
    (h : (f.modify name g).Has B other) : f.Has B other := by
  obtain ⟨sym, hsym, hB⟩ := h
  rw [find?_modify] at hsym
  split at hsym
  · rename_i heq
    subst heq
    obtain ⟨old, hold, rfl⟩ := Option.map_eq_some_iff.1 hsym
    exact ⟨old, hold, hg old hold hB⟩
  · exact ⟨sym, hsym, hB⟩

/-- What a frame holds after a name was entered. -/
theorem has_insert {sym : Symbol} (h : (f.insert name sym).Has B other) :
    f.Has B other ∨ other = name ∧ B sym := by
  obtain ⟨found, hfound, hB⟩ := h
  rw [find?_insert] at hfound
  split at hfound
  · rename_i heq
    cases hfound
    exact Or.inr ⟨heq, hB⟩
  · exact Or.inl ⟨found, hfound, hB⟩

/-- What a frame holds after a name was removed. -/
theorem has_erase (hnodup : f.names.Nodup) (h : (f.erase name).Has B other) :
    other ≠ name ∧ f.Has B other := by
  obtain ⟨sym, hsym, hB⟩ := h
  rw [find?_erase hnodup] at hsym
  split at hsym
  · cases hsym
  · rename_i hne
    exact ⟨hne, sym, hsym, hB⟩

end Frame

namespace Scope

/-- A property that a merged symbol has only if one that it was merged from has it. -/
structure Traced (B : Symbol → Prop) : Prop where
  /-- A symbol merged from two that are set. -/
  merged : ∀ test hs ts fs m, ts.isSet = true → MergedSymbol test hs ts fs m → B m → B hs
  /-- A symbol into which a declaration is carried. -/
  carried : ∀ dst src, B (carry dst src) → B dst
  /-- A new symbol into which a declaration is carried. -/
  fresh : ∀ src : Symbol, src.isSet = false → B (carry {} (some src)) → B src

theorem traced_true : Traced fun _ => True :=
  ⟨fun _ _ _ _ _ _ _ _ => trivial, fun _ _ _ => trivial, fun _ _ _ => trivial⟩

variable {B : Symbol → Prop} {test : Expr}

/-- A symbol that merging one name enters was merged from one that is there. -/
theorem MergeStep.has (hB : Traced B) {onTrue onFalse here : Frame} {name other : Text}
    {r : Frame × Option Cause} (hstep : MergeStep test onTrue onFalse here name r)
    (hnodup : here.names.Nodup) (h : r.1.Has B other) :
    here.Has B other ∨ onTrue.Has B other ∨ onFalse.Has B other := by
  cases hstep with
  | reserved => exact Or.inl h
  | unbalanced => exact Or.inl h
  | absent => exact Or.inl h
  | removed => exact Or.inl (Frame.has_erase hnodup h).2
  | @both ts fs merged _ htrue hfalse hts hfs hmerge =>
    rcases Frame.has_insert h with h | ⟨rfl, hm⟩
    · exact Or.inl h
    · have hbase := hB.merged _ _ _ _ _ hts (mergedSymbol_of_mergeSet hts hfs hmerge) hm
      cases hhere : here.find? other with
      | none =>
        rw [hhere] at hbase
        exact Or.inr (Or.inl ⟨ts, htrue, hbase⟩)
      | some hs =>
        rw [hhere] at hbase
        exact Or.inl ⟨hs, hhere, hbase⟩
  | @clash ts fs c _ htrue =>
    rcases Frame.has_insert h with h | ⟨rfl, hm⟩
    · exact Or.inl h
    · cases hhere : here.find? other with
      | none =>
        rw [hhere] at hm
        exact Or.inr (Or.inl ⟨ts, htrue, hm⟩)
      | some hs =>
        rw [hhere] at hm
        exact Or.inl ⟨hs, hhere, hm⟩
  | declared _ htrue hfalse _ hsome =>
    rcases Frame.has_insert h with h | ⟨rfl, hm⟩
    · exact Or.inl h
    · have hunset : ∀ {f : Frame} {sym : Symbol}, f.find? other = some sym → f.isSetAt other = false →
          sym.isSet = false := by
        intro f sym hsym hset
        rwa [Frame.isSetAt, hsym] at hset
      cases hhere : here.find? other with
      | some hs =>
        rw [hhere] at hm
        exact Or.inl ⟨hs, hhere, hB.carried _ _ (hB.carried _ _ hm)⟩
      | none =>
        rw [hhere] at hm hsome
        -- a new symbol was carried into from one of the arms
        cases ht : onTrue.find? other with
        | some ts =>
          rw [ht] at hm
          exact Or.inr (Or.inl ⟨ts, ht, hB.fresh ts (hunset ht htrue) (hB.carried _ _ hm)⟩)
        | none =>
          rw [ht] at hm hsome
          cases hf : onFalse.find? other with
          | some fs =>
            rw [hf] at hm
            exact Or.inr (Or.inr ⟨fs, hf, hB.fresh fs (hunset hf hfalse) hm⟩)
          | none =>
            rw [hf] at hsome
            simp at hsome

/-- A symbol that merging names enters was merged from one that is there. -/
theorem mergeNames_has (hB : Traced B) {onTrue onFalse here : Frame} (hnodup : here.names.Nodup)
    (names : List Text) {name : Text} (h : (mergeNames test onTrue onFalse names here).1.Has B name) :
    here.Has B name ∨ onTrue.Has B name ∨ onFalse.Has B name := by
  have hall : (mergeNames test onTrue onFalse names here).1.names.Nodup ∧
      ∀ other, (mergeNames test onTrue onFalse names here).1.Has B other →
        here.Has B other ∨ onTrue.Has B other ∨ onFalse.Has B other := by
    refine mergeNames_rec (F := fun f => f.names.Nodup ∧ ∀ other, f.Has B other →
      here.Has B other ∨ onTrue.Has B other ∨ onFalse.Has B other) ?_ names ⟨hnodup, fun _ => Or.inl⟩
    rintro f entered r ⟨hf, htrace⟩ hstep
    refine ⟨hstep.nodup hf, fun other hother => ?_⟩
    rcases hstep.has hB hf hother with h | h
    · exact htrace other h
    · exact Or.inr h
  exact hall.2 name h

/-- The frame of an open unit holds a symbol with a property under a name. The innermost unit is counted
zero. -/
def HasAt (B : Symbol → Prop) (s : Scope) (i : Nat) (name : Text) : Prop :=
  ∃ f, s.inner[i]? = some f ∧ f.Has B name

/-- The frames of open units are merged one by one. -/
theorem mergeInner_getElem? {hs ts fs : List Frame} {i : Nat} {r : Frame}
    (h : (mergeInner test hs ts fs).1[i]? = some r) :
    ∃ here, hs[i]? = some here ∧ (r = here ∨ ∃ t f names, ts[i]? = some t ∧ fs[i]? = some f ∧
      r = (mergeNames test t f names here).1) := by
  induction hs generalizing ts fs i with
  | nil =>
    rw [mergeInner] at h
    · exact ⟨r, h, Or.inl rfl⟩
    · simp
  | cons here hs ih =>
    cases ts with
    | nil =>
      rw [mergeInner] at h
      · exact ⟨r, h, Or.inl rfl⟩
      · simp
    | cons t ts =>
      cases fs with
      | nil =>
        rw [mergeInner] at h
        · exact ⟨r, h, Or.inl rfl⟩
        · simp
      | cons f fs =>
        rw [mergeInner] at h
        split at h
        · rename_i merged c hmerge
          cases i with
          | zero =>
            cases h
            exact ⟨here, rfl, Or.inr ⟨t, f, _, rfl, rfl, (congrArg Prod.fst hmerge).symm⟩⟩
          | succ i => exact ⟨r, h, Or.inl rfl⟩
        · rename_i merged hmerge
          cases i with
          | zero =>
            cases h
            exact ⟨here, rfl, Or.inr ⟨t, f, _, rfl, rfl, (congrArg Prod.fst hmerge).symm⟩⟩
          | succ i => exact ih h

section Merge

variable {s onTrue onFalse : Scope} {name : Text}

/-- A symbol of an open unit that a merge enters was merged from one in the same place. -/
theorem hasAt_merge (hB : Traced B) (hnodup : ∀ f ∈ s.inner, f.names.Nodup) {i : Nat}
    (h : (s.merge test onTrue onFalse).1.HasAt B i name) :
    s.HasAt B i name ∨ onTrue.HasAt B i name ∨ onFalse.HasAt B i name := by
  obtain ⟨r, hr, hhas⟩ := h
  have hframe : s.inner[i]? = some r ∨
      (mergeInner test s.inner onTrue.inner onFalse.inner).1[i]? = some r := by
    rw [merge] at hr
    split at hr
    · exact Or.inl hr
    · split at hr
      · rename_i inner c hmerge
        exact Or.inr ((congrArg (·.1[i]?) hmerge).trans hr)
      · rename_i inner hmerge
        exact Or.inr ((congrArg (·.1[i]?) hmerge).trans hr)
  rcases hframe with hr | hr
  · exact Or.inl ⟨r, hr, hhas⟩
  · obtain ⟨here, hhere, rfl | ⟨t, f, names, ht, hf, rfl⟩⟩ := mergeInner_getElem? hr
    · exact Or.inl ⟨r, hhere, hhas⟩
    · rcases mergeNames_has hB (hnodup here (List.mem_of_getElem? hhere)) names hhas with h | h | h
      · exact Or.inl ⟨here, hhere, h⟩
      · exact Or.inr (Or.inl ⟨t, ht, h⟩)
      · exact Or.inr (Or.inr ⟨f, hf, h⟩)

/-- A symbol of the root frame that a merge enters was merged from one there. -/
theorem has_root_merge (hB : Traced B) (hnodup : s.root.names.Nodup)
    (h : (s.merge test onTrue onFalse).1.root.Has B name) :
    s.root.Has B name ∨ onTrue.root.Has B name ∨ onFalse.root.Has B name := by
  rw [merge] at h
  split at h
  · exact Or.inl h
  · split at h
    · exact Or.inl h
    · exact mergeNames_has hB hnodup _ h

end Merge

end Scope

end MacroAsm
