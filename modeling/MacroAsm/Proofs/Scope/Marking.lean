import MacroAsm.Proofs.Scope.Lookup

/-!
# Marking names and declaring them ahead

A scope changes least where names are only referred to: symbols are marked as used where they stand, and names
that no frame binds are entered, unset, at the end of the innermost frame (`Scope.Marks`). Changes of this
kind add up to one (`Scope.Marks.trans`).
-/

namespace MacroAsm

/-- A binding that is kept, or else is one of a touched name and was marked as used. -/
def MarksEntry (touched : Text → Prop) (before after : Text × Symbol) : Prop :=
  after = before ∨ touched before.1 ∧ after = (before.1, { before.2 with used := true })

/-- A frame whose bindings, in their order, are kept or marked as used. -/
def Frame.Marks (touched : Text → Prop) (f g : Frame) : Prop :=
  List.Forall₂ (MarksEntry touched) f.entries g.entries

/-- A frame with more bindings at the end. -/
def Frame.append (f : Frame) (added : List (Text × Symbol)) : Frame := ⟨f.entries ++ added⟩

/-- A scope whose bindings, frame by frame and in their order, are kept or marked as used. -/
structure Scope.MarksFrames (touched : Text → Prop) (s t : Scope) : Prop where
  /-- The inner frames. -/
  inner : List.Forall₂ (Frame.Marks touched) s.inner t.inner
  /-- The frame of the whole program. -/
  root : Frame.Marks touched s.root t.root

/-- What a scope binds ahead: a touched name that no frame has, to an unset symbol that is used and frozen. -/
structure Scope.Forward (touched : Text → Prop) (s : Scope) (entry : Text × Symbol) : Prop where
  /-- The name is one of those that are touched. -/
  touched : touched entry.1
  /-- No frame has the name. -/
  absent : s.find? entry.1 = none
  /-- The symbol has a location and is otherwise new. -/
  symbol : ∃ loc, entry.2 = { loc, frozen := true, used := true }

/-- What referring to names makes of a scope: its bindings are kept or marked as used, and behind those of the
innermost frame stand names that are bound ahead, each once. -/
def Scope.Marks (touched : Text → Prop) (s s' : Scope) : Prop :=
  ∃ marked added, s.MarksFrames touched marked ∧ s' = marked.modifyTop (·.append added) ∧
    (added.map Prod.fst).Nodup ∧ ∀ entry ∈ added, s.Forward touched entry

section Entries

variable {touched : Text → Prop} {x y z : Text × Symbol}

namespace MarksEntry

theorem refl (x : Text × Symbol) : MarksEntry touched x x := Or.inl rfl

/-- A binding that is kept or marked twice. -/
theorem trans (hxy : MarksEntry touched x y) (hyz : MarksEntry touched y z) : MarksEntry touched x z := by
  rcases hxy with rfl | ⟨hx, rfl⟩
  · exact hyz
  · rcases hyz with rfl | ⟨-, rfl⟩
    · exact Or.inr ⟨hx, rfl⟩
    · exact Or.inr ⟨hx, rfl⟩

theorem fst (h : MarksEntry touched x y) : y.1 = x.1 := by
  rcases h with rfl | ⟨-, rfl⟩ <;> rfl

/-- A binding that was marked before stays what it is. -/
theorem eq_of_used (h : MarksEntry touched x y) (hused : x.2.used = true) : y = x := by
  rcases h with rfl | ⟨-, rfl⟩
  · rfl
  · obtain ⟨name, sym⟩ := x
    cases sym
    cases hused
    rfl

end MarksEntry

/-- Marking the symbol of a name among bindings. -/
theorem marksEntry_modifyEntries {name : Text} (hname : touched name) (es : List (Text × Symbol)) :
    List.Forall₂ (MarksEntry touched) es (Frame.modifyEntries name (fun s => { s with used := true }) es) := by
  induction es with
  | nil => exact .nil
  | cons entry rest ih =>
    obtain ⟨n, sym⟩ := entry
    rw [Frame.modifyEntries]
    split
    · rename_i heq
      rw [beq_iff_eq] at heq
      exact .cons (Or.inr ⟨heq ▸ hname, rfl⟩) (List.forall₂_same.2 fun entry _ => .refl entry)
    · exact .cons (.refl _) ih

end Entries

section Frames

variable {touched : Text → Prop} {f g k : Frame} {added : List (Text × Symbol)}

theorem Frame.names_append (f : Frame) (added : List (Text × Symbol)) :
    (f.append added).names = f.names ++ added.map Prod.fst := by
  simp [Frame.append, Frame.names]

/-- Changing the symbol of a name that was just entered. -/
theorem Frame.modify_insert {name : Text} (hname : f.contains name = false) (sym : Symbol)
    (g : Symbol → Symbol) : (f.insert name sym).modify name g = f.append [(name, g sym)] := by
  have hentries : ∀ es : List (Text × Symbol), name ∉ es.map Prod.fst →
      modifyEntries name g (es ++ [(name, sym)]) = es ++ [(name, g sym)] := by
    intro es hes
    induction es with
    | nil => simp [modifyEntries]
    | cons entry rest ih =>
      rw [List.map_cons, List.mem_cons, not_or] at hes
      have hne : (entry.1 == name) = false := beq_eq_false_iff_ne.2 (Ne.symm hes.1)
      simp [modifyEntries, hne, ih hes.2]
  have hnot : name ∉ f.names := fun hmem => by
    rw [contains_iff_mem_names.2 hmem] at hname
    cases hname
  rw [insert, if_neg (by simp [hname]), modify, append, hentries _ hnot]

namespace Frame.Marks

theorem refl (f : Frame) : f.Marks touched f := List.forall₂_same.2 fun entry _ => .refl entry

theorem trans (hfg : f.Marks touched g) (hgk : g.Marks touched k) : f.Marks touched k :=
  Scope.forall₂_trans (R := MarksEntry touched) (fun _ _ _ h h' => h.trans h') hfg hgk

/-- The names stay. -/
theorem names_eq (h : f.Marks touched g) : g.names = f.names := by
  have heq : List.Forall₂ (· = ·) (f.entries.map Prod.fst) (g.entries.map Prod.fst) := by
    rw [List.forall₂_map_left_iff, List.forall₂_map_right_iff]
    exact h.imp fun _ _ hentry => hentry.fst.symm
  rw [List.forall₂_eq_eq_eq] at heq
  exact heq.symm

/-- Bindings at the end that are marked already stay what they are. -/
theorem exists_append (h : (f.append added).Marks touched g) (hused : ∀ entry ∈ added, entry.2.used = true) :
    ∃ k, f.Marks touched k ∧ g = k.append added := by
  have hflip : List.Forall₂ (fun x y => MarksEntry touched y x) g.entries (f.entries ++ added) := h.flip
  have hfirst := (List.forall₂_take_append _ _ _ hflip).flip
  have hrest := (List.forall₂_drop_append _ _ _ hflip).flip
  have hsame : g.entries.drop f.entries.length = added := by
    have heq : List.Forall₂ (· = ·) added (g.entries.drop f.entries.length) := by
      rw [List.forall₂_iff_get] at hrest ⊢
      refine ⟨hrest.1, fun i h₁ h₂ => ?_⟩
      exact (MarksEntry.eq_of_used (hrest.2 i h₁ h₂) (hused _ (List.get_mem _ _))).symm
    rw [List.forall₂_eq_eq_eq] at heq
    exact heq.symm
  refine ⟨⟨g.entries.take f.entries.length⟩, hfirst, ?_⟩
  show g = ⟨_ ++ added⟩
  conv_rhs => rw [← hsame, List.take_append_drop]

end Frame.Marks

namespace Scope

variable {s s' t : Scope}

/-- No frame has a name that is not found. -/
theorem find?_eq_none_iff_names {name : Text} :
    s.find? name = none ↔ (∀ f ∈ s.inner, name ∉ f.names) ∧ name ∉ s.root.names := by
  have hframe : ∀ f : Frame, f.find? name = none ↔ name ∉ f.names := by
    intro f
    rw [← Frame.contains_iff_mem_names, Frame.contains, Option.not_isSome_iff_eq_none]
  have hinner : findIn name s.inner = none ↔ ∀ f ∈ s.inner, f.find? name = none := by
    induction s.inner with
    | nil => simp [findIn]
    | cons f rest ih => simp [findIn, ih]
  rw [find?_eq_none_iff, hinner, hframe]
  simp [hframe]

namespace MarksFrames

theorem refl (s : Scope) : s.MarksFrames touched s :=
  ⟨List.forall₂_same.2 fun f _ => .refl f, .refl s.root⟩

theorem trans (hst : s.MarksFrames touched s') (htu : s'.MarksFrames touched t) : s.MarksFrames touched t :=
  ⟨forall₂_trans (R := Frame.Marks touched) (fun _ _ _ h h' => h.trans h') hst.inner htu.inner,
    hst.root.trans htu.root⟩

/-- A name that is not found is not found after its neighbours were marked. -/
theorem find?_eq_none_iff (h : s.MarksFrames touched t) (name : Text) :
    t.find? name = none ↔ s.find? name = none := by
  have hinner : ∀ fs gs : List Frame, List.Forall₂ (Frame.Marks touched) fs gs →
      ((∀ g ∈ gs, name ∉ g.names) ↔ ∀ f ∈ fs, name ∉ f.names) := by
    intro fs gs hfs
    induction hfs with
    | nil => simp
    | cons hfirst _ ih => simp [ih, hfirst.names_eq]
  rw [find?_eq_none_iff_names, find?_eq_none_iff_names, hinner _ _ h.inner, h.root.names_eq]

/-- What was bound ahead stays what it is when the scope is marked once more. -/
theorem exists_append (h : (s.modifyTop (·.append added)).MarksFrames touched t)
    (hused : ∀ entry ∈ added, entry.2.used = true) :
    ∃ marked : Scope, s.MarksFrames touched marked ∧ t = marked.modifyTop (·.append added) := by
  obtain ⟨root, inner⟩ := s
  obtain ⟨root', inner'⟩ := t
  obtain ⟨hinner, hroot⟩ := h
  cases inner with
  | nil =>
    cases hinner
    obtain ⟨k, hk, rfl⟩ := hroot.exists_append hused
    exact ⟨⟨k, []⟩, ⟨.nil, hk⟩, rfl⟩
  | cons f rest =>
    cases hinner with
    | cons hfirst hrest =>
      obtain ⟨k, hk, rfl⟩ := hfirst.exists_append hused
      exact ⟨⟨root', k :: _⟩, ⟨.cons hk hrest, hroot⟩, rfl⟩

end MarksFrames

/-- The names of a scope with more bindings at the end of its innermost frame. -/
theorem find?_append_eq_none_iff {name : Text} :
    (s.modifyTop (·.append added)).find? name = none ↔
      s.find? name = none ∧ name ∉ added.map Prod.fst := by
  rw [find?_eq_none_iff_names, find?_eq_none_iff_names, modifyTop]
  cases s.inner with
  | nil => simp [Frame.names_append, not_or]
  | cons f rest =>
    simp only [List.forall_mem_cons, Frame.names_append, List.mem_append, not_or]
    tauto

/-- A name that no frame has is entered at the end of the innermost one. -/
theorem modify_declared {name : Text} (hname : s.find? name = none) (sym : Symbol) (g : Symbol → Symbol) :
    (s.modifyTop fun f => f.insert name sym).modify name g = s.modifyTop (·.append [(name, g sym)]) := by
  obtain ⟨root, inner⟩ := s
  obtain ⟨hinner, hroot⟩ := find?_eq_none_iff.1 hname
  cases inner with
  | nil =>
    have habsent : root.contains name = false := by simpa [Frame.contains] using hroot
    have hfound : (root.insert name sym).contains name = true := by
      simp [Frame.contains, Frame.find?_insert]
    simp [modifyTop, modify, modifyFrameOf, modifyOwner, hfound, Frame.modify_insert habsent]
  | cons f rest =>
    have habsent : f.contains name = false := by
      rw [Frame.contains]
      cases hf : f.find? name with
      | none => rfl
      | some old => simp [findIn, hf] at hinner
    have hfound : (f.insert name sym).contains name = true := by
      simp [Frame.contains, Frame.find?_insert]
    simp [modifyTop, modify, modifyFrameOf, modifyOwner, hfound, Frame.modify_insert habsent]

namespace Marks

/-- A scope that is kept. -/
theorem refl (s : Scope) : s.Marks touched s := by
  refine ⟨s, [], .refl s, ?_, List.nodup_nil, fun _ h => absurd h List.not_mem_nil⟩
  obtain ⟨root, inner⟩ := s
  cases inner <;> simp [modifyTop, Frame.append]

/-- A scope that is changed twice. -/
theorem trans (hst : s.Marks touched s') (htu : s'.Marks touched t) : s.Marks touched t := by
  obtain ⟨marked, added, hmarked, rfl, hnodup, hadded⟩ := hst
  obtain ⟨again, more, hagain, rfl, hnodup', hmore⟩ := htu
  have hused : ∀ entry ∈ added, entry.2.used = true := by
    intro entry hentry
    obtain ⟨loc, hsym⟩ := (hadded entry hentry).symbol
    rw [hsym]
  -- what the first change bound ahead stands where it did
  obtain ⟨marked', hmarked', rfl⟩ := hagain.exists_append hused
  have hnew : ∀ entry ∈ more, s.find? entry.1 = none ∧ entry.1 ∉ added.map Prod.fst := by
    intro entry hentry
    obtain ⟨hfind, hnot⟩ := find?_append_eq_none_iff.1 (hmore entry hentry).absent
    exact ⟨(hmarked.find?_eq_none_iff entry.1).1 hfind, hnot⟩
  refine ⟨marked', added ++ more, hmarked.trans hmarked', ?_, ?_, ?_⟩
  · obtain ⟨root, inner⟩ := marked'
    cases inner <;> simp [modifyTop, Frame.append]
  · rw [List.map_append]
    refine List.Nodup.append hnodup hnodup' fun name hname hname' => ?_
    obtain ⟨entry, hentry, rfl⟩ := List.mem_map.1 hname'
    exact (hnew entry hentry).2 hname
  · intro entry hentry
    rcases List.mem_append.1 hentry with hentry | hentry
    · exact hadded entry hentry
    · exact ⟨(hmore entry hentry).touched, (hnew entry hentry).1, (hmore entry hentry).symbol⟩

/-- Marking a name where it is bound. -/
theorem of_modify {name : Text} (hname : touched name) (s : Scope) :
    s.Marks touched (s.modify name fun sym => { sym with used := true }) := by
  have hframe : ∀ f : Frame, f.Marks touched (f.modify name fun sym => { sym with used := true }) :=
    fun f => marksEntry_modifyEntries hname f.entries
  have hmarked : List.Forall₂ (Frame.Marks touched) s.inner
        (s.modify name fun sym => { sym with used := true }).inner ∧
      Frame.Marks touched s.root (s.modify name fun sym => { sym with used := true }).root :=
    modifyFrameOf_rel .refl .refl (fun f _ _ _ _ => hframe f) fun _ _ _ => hframe s.root
  refine ⟨s.modify name fun sym => { sym with used := true }, [], ⟨hmarked.1, hmarked.2⟩, ?_, List.nodup_nil,
    fun _ h => absurd h List.not_mem_nil⟩
  cases hs : s.modify name fun sym => { sym with used := true } with
  | mk root inner => cases inner <;> simp [modifyTop, Frame.append]

/-- Declaring a name ahead that no frame has. -/
theorem of_declare {name : Text} (hname : touched name) {s : Scope} (hfind : s.find? name = none)
    (loc : Location) :
    s.Marks touched ((s.modifyTop fun f => f.insert name {}).modify name
      fun sym => { sym with loc, frozen := true, used := true }) := by
  refine ⟨s, [(name, { loc, frozen := true, used := true })], .refl s, ?_, List.nodup_singleton _, ?_⟩
  · exact modify_declared hfind {} _
  · intro entry hentry
    rw [List.mem_singleton.1 hentry]
    exact ⟨hname, hfind, loc, rfl⟩

end Marks

end Scope

end Frames

end MacroAsm
