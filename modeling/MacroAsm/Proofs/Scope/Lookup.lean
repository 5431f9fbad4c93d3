import Mathlib.Data.List.Forall2
import Mathlib.Data.List.Nodup
import Mathlib.Tactic.ByContra
import MacroAsm.Scope.Basic

/-!
# Looking names up in a changed scope

What a scope holds under a name after each of its operations. Changing the symbol of a name changes what
is found under that name and nothing else (`find?_modify`), and declaring a name ahead only adds it where
it is not found yet (`find?_declareLocal`).
-/

namespace MacroAsm

namespace Frame

/-- The macro that a name is bound to. -/
def macroAt (f : Frame) (name : Text) : Option Macro := (f.find? name).bind Symbol.template

/-- The value that a name is bound to. -/
def valueAt (f : Frame) (name : Text) : Option Expr := (f.find? name).bind Symbol.value

/-- Whether a name is bound to a value or a macro. -/
def isSetAt (f : Frame) (name : Text) : Bool := ((f.find? name).map Symbol.isSet).getD false

/-- Whether a name is internal state of the assembler. -/
def isReservedAt (f : Frame) (name : Text) : Bool := ((f.find? name).map Symbol.reserved).getD false

/-- What a changed frame holds under a name. -/
theorem find?_modify (f : Frame) (name other : Text) (g : Symbol → Symbol) :
    (f.modify name g).find? other =
      if other = name then (f.find? other).map g else f.find? other := by
  by_cases h : other = name
  · rw [if_pos h, h, find?_modify_self]
  · rw [if_neg h, find?_modify_of_ne h]

/-- Changing a symbol keeps which names are bound. -/
@[simp]
theorem contains_modify (f : Frame) (name other : Text) (g : Symbol → Symbol) :
    (f.modify name g).contains other = f.contains other := by
  rw [contains, contains, find?_modify]
  split
  · rw [Option.isSome_map]
  · rfl

/-- What a frame holds under a name after one was entered. -/
theorem find?_insert (f : Frame) (name other : Text) (s : Symbol) :
    (f.insert name s).find? other = if other = name then some s else f.find? other := by
  rw [insert]
  by_cases hc : f.contains name
  · rw [if_pos hc, find?_modify]
    by_cases h : other = name
    · obtain ⟨old, hold⟩ := Option.isSome_iff_exists.1 hc
      rw [if_pos h, if_pos h, h, hold]
      rfl
    · rw [if_neg h, if_neg h]
  · have hnone : f.entries.lookup name = none := Option.not_isSome_iff_eq_none.1 hc
    rw [if_neg hc, find?, find?, List.lookup_append]
    by_cases h : other = name
    · simp [h, hnone]
    · simp [h, List.lookup_cons, beq_eq_false_iff_ne.2 h]

/-- A bound name is the name of an entry. -/
theorem mem_names_of_find? {f : Frame} {name : Text} {s : Symbol} (h : f.find? name = some s) :
    name ∈ f.names := by
  obtain ⟨pre, post, hentries, -⟩ := List.lookup_eq_some_iff.1 h
  rw [names, hentries]
  simp

/-- A name is bound exactly if it is the name of an entry. -/
theorem contains_iff_mem_names {f : Frame} {name : Text} :
    f.contains name = true ↔ name ∈ f.names := by
  constructor
  · intro h
    obtain ⟨s, hs⟩ := Option.isSome_iff_exists.1 h
    exact mem_names_of_find? hs
  · intro h
    obtain ⟨entry, hentry, rfl⟩ := List.mem_map.1 h
    by_contra hc
    have hnone : f.entries.lookup entry.1 = none := Option.not_isSome_iff_eq_none.1 hc
    simpa using List.lookup_eq_none_iff.1 hnone entry hentry

/-- A frame that binds each name once still does after a change. -/
theorem nodup_modify {f : Frame} (h : f.names.Nodup) (name : Text) (g : Symbol → Symbol) :
    (f.modify name g).names.Nodup := by
  rw [names_modify]
  exact h

/-- A frame that binds each name once still does after one was entered. -/
theorem nodup_insert {f : Frame} (h : f.names.Nodup) (name : Text) (s : Symbol) :
    (f.insert name s).names.Nodup := by
  by_cases hc : f.contains name
  · rw [names_insert_of_contains hc]
    exact h
  · rw [names_insert_of_not_contains (by simpa using hc)]
    have hmem : name ∉ f.names := fun hmem => hc (contains_iff_mem_names.2 hmem)
    rw [List.nodup_append_comm]
    exact List.nodup_cons.2 ⟨hmem, h⟩

theorem nodup_erase {f : Frame} (h : f.names.Nodup) (name : Text) :
    (f.erase name).names.Nodup :=
  h.sublist (List.eraseP_sublist.map Prod.fst)

/-- What the entries of a list hold under a name once another one was removed. -/
theorem lookup_eraseP_of_ne {name other : Text} (h : other ≠ name) (es : List (Text × Symbol)) :
    (es.eraseP fun entry => entry.1 == name).lookup other = es.lookup other := by
  induction es with
  | nil => rfl
  | cons e rest ih =>
    obtain ⟨n, sym⟩ := e
    by_cases hn : n = name
    · have hne : (other == n) = false := beq_eq_false_iff_ne.2 (hn ▸ h)
      simp [hn, List.lookup_cons, hn ▸ hne]
    · simp [hn, List.lookup_cons, ih]

/-- What the entries of a list that binds each name once hold under a name that was removed. -/
theorem lookup_eraseP_self {es : List (Text × Symbol)} (h : (es.map Prod.fst).Nodup) (name : Text) :
    (es.eraseP fun entry => entry.1 == name).lookup name = none := by
  induction es with
  | nil => rfl
  | cons e rest ih =>
    obtain ⟨n, sym⟩ := e
    rw [List.map_cons, List.nodup_cons] at h
    by_cases hn : n = name
    · -- a second entry of that name would repeat it
      have hrest : rest.lookup name = none := by
        rw [List.lookup_eq_none_iff]
        intro entry hentry
        have hmem : entry.1 ∈ rest.map Prod.fst := List.mem_map_of_mem hentry
        have hne : name ≠ entry.1 := by
          intro heq
          rw [← heq, ← hn] at hmem
          exact h.1 hmem
        simpa using hne
      simpa [hn] using hrest
    · have hne : (name == n) = false := beq_eq_false_iff_ne.2 (Ne.symm hn)
      simp [hn, List.lookup_cons, hne, ih h.2]

theorem find?_erase_of_ne {name other : Text} (h : other ≠ name) (f : Frame) :
    (f.erase name).find? other = f.find? other :=
  lookup_eraseP_of_ne h f.entries

/-- What a frame that binds each name once holds after one was removed. -/
theorem find?_erase {f : Frame} (h : f.names.Nodup) (name other : Text) :
    (f.erase name).find? other = if other = name then none else f.find? other := by
  by_cases heq : other = name
  · rw [if_pos heq, heq]
    exact lookup_eraseP_self h name
  · rw [if_neg heq, find?_erase_of_ne heq]

end Frame

namespace Scope

/-- What the frames of a list hold under a name after the innermost symbol of one was changed. -/
theorem findIn_modifyOwner (name other : Text) (g : Symbol → Symbol) (fs : List Frame) :
    findIn other (modifyOwner name (fun f => f.modify name g) fs).1 =
      if other = name then (findIn other fs).map g else findIn other fs := by
  induction fs with
  | nil => simp [modifyOwner, findIn]
  | cons f rest ih =>
    rw [modifyOwner]
    by_cases hc : f.contains name
    · rw [if_pos hc, findIn, findIn, Frame.find?_modify]
      by_cases h : other = name
      · obtain ⟨old, hold⟩ := Option.isSome_iff_exists.1 hc
        simp [h, hold]
      · simp [h]
    · rw [if_neg hc, findIn, findIn, ih]
      by_cases h : other = name
      · have hnone : f.find? name = none := by simpa [Frame.contains] using hc
        simp [h, hnone]
      · simp [h]

/-- Whether the frames of a list hold a name is what an attempt to change its symbol tells. -/
theorem modifyOwner_snd (name : Text) (g : Frame → Frame) (fs : List Frame) :
    (modifyOwner name g fs).2 = (findIn name fs).isSome := by
  induction fs with
  | nil => rfl
  | cons f rest ih =>
    rw [modifyOwner, findIn]
    by_cases hc : f.contains name
    · obtain ⟨old, hold⟩ := Option.isSome_iff_exists.1 hc
      simp [hc, hold]
    · have hnone : f.find? name = none := by simpa [Frame.contains] using hc
      rw [if_neg hc, hnone]
      exact ih

/-- A symbol that is found is in a frame. -/
theorem exists_of_findIn {name : Text} {fs : List Frame} {sym : Symbol}
    (h : findIn name fs = some sym) : ∃ f ∈ fs, f.find? name = some sym := by
  induction fs with
  | nil => cases h
  | cons f rest ih =>
    rw [findIn] at h
    cases hf : f.find? name with
    | some old =>
      rw [hf] at h
      exact ⟨f, List.mem_cons_self, hf.trans h⟩
    | none =>
      rw [hf] at h
      obtain ⟨g, hg, hfind⟩ := ih h
      exact ⟨g, List.mem_cons_of_mem f hg, hfind⟩

/-- Relations that can be chained relate chained lists. -/
theorem forall₂_trans {α : Type} {R : α → α → Prop} (hR : ∀ f g h, R f g → R g h → R f h)
    {fs gs hs : List α} (hfg : List.Forall₂ R fs gs) (hgh : List.Forall₂ R gs hs) :
    List.Forall₂ R fs hs := by
  induction hfg generalizing hs with
  | nil => exact hgh
  | cons hab _ ih =>
    cases hgh with
    | cons hbc hrest => exact .cons (hR _ _ _ hab hbc) (ih hrest)

/-- Each element of a list stands beside one of the other. -/
theorem exists_of_forall₂ {α β : Type} {R : α → β → Prop} {l : List α} {u : List β} (h : List.Forall₂ R l u)
    {x : α} (hx : x ∈ l) : ∃ y ∈ u, R x y := by
  induction h with
  | nil => cases hx
  | cons hab _ ih =>
    rcases List.mem_cons.1 hx with rfl | hx
    · exact ⟨_, List.mem_cons_self, hab⟩
    · obtain ⟨y, hy, hxy⟩ := ih hx
      exact ⟨y, List.mem_cons_of_mem _ hy, hxy⟩

/-- A change of the innermost frame that binds a name relates the frames of a list one by one. -/
theorem modifyOwner_forall₂ {R : Frame → Frame → Prop} (hrefl : ∀ f, R f f) {name : Text}
    {g : Frame → Frame} {fs : List Frame}
    (hg : ∀ f ∈ fs, ∀ sym, f.find? name = some sym → findIn name fs = some sym → R f (g f)) :
    List.Forall₂ R fs (modifyOwner name g fs).1 := by
  induction fs with
  | nil => exact List.Forall₂.nil
  | cons f rest ih =>
    rw [modifyOwner]
    by_cases hc : f.contains name
    · rw [if_pos hc]
      obtain ⟨sym, hsym⟩ := Option.isSome_iff_exists.1 hc
      refine List.Forall₂.cons (hg f List.mem_cons_self sym hsym ?_)
        (List.forall₂_same.2 fun f _ => hrefl f)
      rw [findIn, hsym]
      rfl
    · rw [if_neg hc]
      refine List.Forall₂.cons (hrefl f) (ih fun f' hf' sym hsym hfound => ?_)
      have hnone : f.find? name = none := Option.not_isSome_iff_eq_none.1 hc
      refine hg f' (List.mem_cons_of_mem f hf') sym hsym ?_
      rw [findIn, hnone]
      exact hfound

/-- A name is looked up in the inner frames first, and then in the root frame. -/
theorem find?_eq (s : Scope) (name : Text) :
    s.find? name = (findIn name s.inner).orElse fun _ => s.root.find? name := by
  rw [find?]
  induction s.inner with
  | nil => simp [findIn]
  | cons f rest ih =>
    rw [List.cons_append, findIn, findIn, ih]
    cases f.find? name <;> rfl

/-- A name is not found exactly if no frame holds it. -/
theorem find?_eq_none_iff {s : Scope} {name : Text} :
    s.find? name = none ↔ findIn name s.inner = none ∧ s.root.find? name = none := by
  rw [find?_eq]
  cases findIn name s.inner with
  | none => simp
  | some sym => simp

/-- A change of the frame of the innermost symbol of a name relates the frames one by one. -/
theorem modifyFrameOf_rel {R Q : Frame → Frame → Prop} (hR : ∀ f, R f f) (hQ : ∀ f, Q f f)
    {s : Scope} {name : Text} {g : Frame → Frame}
    (hinner : ∀ f ∈ s.inner, ∀ sym, f.find? name = some sym → s.find? name = some sym → R f (g f))
    (hroot : ∀ sym, s.root.find? name = some sym → s.find? name = some sym → Q s.root (g s.root)) :
    List.Forall₂ R s.inner (s.modifyFrameOf name g).inner ∧
      Q s.root (s.modifyFrameOf name g).root := by
  have hfound := modifyOwner_snd name g s.inner
  rw [modifyFrameOf]
  cases hin : findIn name s.inner with
  | some sym =>
    have hfind : s.find? name = some sym := by
      rw [find?_eq, hin]
      rfl
    simp only [hfound, hin, Option.isSome_some, if_true]
    refine ⟨modifyOwner_forall₂ hR fun f hf sym' hsym' hsym => ?_, hQ s.root⟩
    exact hinner f hf sym' hsym' (by rw [hfind, ← hin, hsym])
  | none =>
    have hsame : List.Forall₂ R s.inner s.inner := List.forall₂_same.2 fun f _ => hR f
    simp only [hfound, hin, Option.isSome_none, Bool.false_eq_true, if_false]
    by_cases hc : s.root.contains name
    · obtain ⟨sym, hsym⟩ := Option.isSome_iff_exists.1 hc
      have hfind : s.find? name = some sym := by
        rw [find?_eq, hin, hsym]
        rfl
      simp only [hc, if_true]
      exact ⟨hsame, hroot sym hsym hfind⟩
    · simp only [hc, Bool.false_eq_true, if_false]
      exact ⟨hsame, hQ s.root⟩

/-- Changing the symbol of a name changes what is found under that name, and nothing else. -/
theorem find?_modify (s : Scope) (name other : Text) (g : Symbol → Symbol) :
    (s.modify name g).find? other =
      if other = name then (s.find? other).map g else s.find? other := by
  have howner := findIn_modifyOwner name other g s.inner
  have hfound := modifyOwner_snd name (fun f => f.modify name g) s.inner
  rw [find?_eq, find?_eq, modify, modifyFrameOf]
  by_cases hin : (findIn name s.inner).isSome
  · simp only [hfound, hin, if_true, howner]
    by_cases h : other = name
    · obtain ⟨old, hold⟩ := Option.isSome_iff_exists.1 hin
      simp [h, hold]
    · simp [h]
  · have hnone : findIn name s.inner = none := by simpa using hin
    simp only [hfound, hin, Bool.false_eq_true, if_false]
    by_cases hroot : s.root.contains name
    · simp only [hroot, if_true, Frame.find?_modify]
      by_cases h : other = name
      · simp [h, hnone]
      · simp [h]
    · have hroot' : s.root.find? name = none := by simpa [Frame.contains] using hroot
      simp only [hroot, Bool.false_eq_true, if_false]
      by_cases h : other = name
      · simp [h, hnone, hroot']
      · simp [h]

/-- A symbol that is found is changed, and no other is. -/
theorem find?_modify_of_find? {s : Scope} {name : Text} {sym : Symbol} (h : s.find? name = some sym)
    (g : Symbol → Symbol) (other : Text) :
    (s.modify name g).find? other = if other = name then some (g sym) else s.find? other := by
  rw [find?_modify]
  split
  · rename_i heq
    rw [heq, h]
    rfl
  · rfl

/-- What is found in a scope whose innermost frame was changed. -/
theorem find?_modifyTop_insert (s : Scope) (name other : Text) (sym : Symbol) :
    (s.modifyTop fun f => f.insert name sym).find? other =
      if other = name then some sym else s.find? other := by
  rw [find?_eq, find?_eq, modifyTop]
  cases s.inner with
  | nil => simp [findIn, Frame.find?_insert]
  | cons f rest =>
    simp only [findIn, Frame.find?_insert]
    by_cases h : other = name
    · simp [h]
    · simp [h]

/-- A name that is not found can be declared ahead, unset, and nothing else changes. -/
theorem declareLocal_of_find?_eq_none {s : Scope} {name : Text} (h : s.find? name = none) :
    s.declareLocal name = .ok (s.modifyTop fun f => f.insert name {}) := by
  obtain ⟨hin, hroot⟩ := find?_eq_none_iff.1 h
  have htop : s.top.contains name = false := by
    rw [top]
    cases hs : s.inner with
    | nil => simp [Frame.contains, hroot]
    | cons f rest =>
      cases hf : f.find? name with
      | none => simp [Frame.contains, hf]
      | some sym => simp [hs, findIn, hf] at hin
  rw [declareLocal, hroot, htop]
  rfl

/-- What declaring a name in the innermost frame makes of a scope. -/
inductive DeclaresLocal (s : Scope) (name : Text) : Scope → Prop where
  /-- The name is there, and stays what it is. -/
  | kept (htop : s.top.contains name = true) : DeclaresLocal s name s
  /-- The name is entered, unset. -/
  | entered (htop : s.top.find? name = none) :
    DeclaresLocal s name (s.modifyTop fun f => f.insert name {})

/-- A name that can be declared in the innermost frame is not global, and is there or is entered. -/
theorem declareLocal_eq_ok {s s' : Scope} {name : Text} (h : s.declareLocal name = .ok s') :
    ((s.root.find? name).map Symbol.global).getD false = false ∧ s.DeclaresLocal name s' := by
  rw [declareLocal] at h
  split at h
  · cases h
  · rename_i hglobal
    refine ⟨Bool.eq_false_iff.2 hglobal, ?_⟩
    split at h
    · rename_i htop
      cases h
      exact .kept htop
    · rename_i htop
      cases h
      exact .entered (Option.not_isSome_iff_eq_none.1 htop)

/-- What declaring a name in the root frame makes of a scope. -/
inductive DeclaresGlobal (s : Scope) (name : Text) : Scope → Prop where
  /-- The name is global. -/
  | kept {sym : Symbol} (hroot : s.root.find? name = some sym) (hglobal : sym.global = true) :
    DeclaresGlobal s name s
  /-- The name is in the root frame, and becomes global. -/
  | promoted {sym : Symbol} (hroot : s.root.find? name = some sym) :
    DeclaresGlobal s name { s with root := s.root.modify name promote }
  /-- The name was only referred to, and moves from the unit that holds it. -/
  | moved {sym : Symbol} (hroot : s.root.find? name = none) (hin : findIn name s.inner = some sym)
    (hunset : sym.isSet = false) (hdeclared : sym.declared = false) :
    DeclaresGlobal s name
      ⟨s.root.insert name (promote sym), (modifyOwner name (fun f => f.erase name) s.inner).1⟩
  /-- The name is entered, unset. -/
  | entered (hroot : s.root.find? name = none) (hin : findIn name s.inner = none) :
    DeclaresGlobal s name { s with root := s.root.insert name (promote {}) }

/-- What can happen to a name that is declared in the root frame. -/
theorem declareGlobal_eq_ok {s s' : Scope} {name : Text} (h : s.declareGlobal name = .ok s') :
    s.DeclaresGlobal name s' := by
  rw [declareGlobal] at h
  cases hroot : s.root.find? name with
  | some sym =>
    rw [hroot] at h
    cases h
    split
    · rename_i hglobal
      exact .kept hroot hglobal
    · exact .promoted hroot
  | none =>
    rw [hroot] at h
    cases hin : findIn name s.inner with
    | none =>
      rw [hin] at h
      cases h
      exact .entered hroot hin
    | some sym =>
      simp only [hin] at h
      split at h
      · cases h
      · rename_i hfree
        cases h
        rw [Bool.or_eq_true, not_or, Bool.not_eq_true, Bool.not_eq_true] at hfree
        exact .moved hroot hin hfree.1 hfree.2

end Scope

end MacroAsm
