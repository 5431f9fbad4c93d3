import MacroAsm.Proofs.Assembly.Reachable
import MacroAsm.Proofs.Scope.Origin

/-!
# Names that are local or global

A name that belongs to the whole program is in the root frame, and no open unit should hold a symbol of that
name, which would be found in place of the global one. `Scope.Tidy` is what statements keep for that to be
so: besides the names of the root frame being global, a name that was only referred to, and that GLOBAL may
therefore still move to the root frame, is held by one open unit alone.

Merging the arms of an undecided condition does not keep it, as each frame is merged on its own: where one
arm moves a name to the root frame, and the other one leaves it where it was, the name ends up in both
(`Assembler.assemble_not_exclusive`). Where the merged scopes are `Scope.Apart`, it is kept by everything that
is done to a scope (`Scope.Proceeds.tidy`).
-/

namespace MacroAsm

namespace Symbol

/-- Any symbol. -/
def Any (_ : Symbol) : Prop := True

/-- A symbol that was only referred to: it is unset, and was not declared by LOCAL. -/
def Ahead (sym : Symbol) : Prop := sym.isSet = false ∧ sym.declared = false

/-- A symbol that does not belong to the whole program. -/
def Private (sym : Symbol) : Prop := sym.global = false

end Symbol

namespace Scope

open MacroAsm.Symbol (Any Ahead Private)

/-- Whether a name belongs to the whole program. -/
def isGlobal (s : Scope) (name : Text) : Bool := ((s.root.find? name).map Symbol.global).getD false

/-- Whether an open unit holds a symbol of a name. -/
def isLocal (s : Scope) (name : Text) : Bool := s.inner.any fun f => f.contains name

/-- No name but that of the radix is global and local at once. -/
def Exclusive (s : Scope) : Prop :=
  ∀ name, name ≠ radixName → s.isGlobal name = true → s.isLocal name = false

/-- Scopes of which none holds a name in an open unit that another one holds in the root frame, nor one that
was only referred to in a unit further in. -/
structure Apart (V : Scope → Prop) : Prop where
  /-- Names of the root frames are in no open unit. -/
  exclusive : ∀ v v', V v → V v' → ∀ i name, name ≠ radixName → v.root.Has Any name →
    ¬ v'.HasAt Any i name
  /-- Names that were only referred to are in no unit further out. -/
  ahead : ∀ v v', V v → V v' → ∀ i j name, i < j → v.HasAt Ahead i name → ¬ v'.HasAt Any j name

/-- The scopes that are merged after the arms of a condition are apart. -/
def MergesApart (here : Scope) (forks : List (Expr × Conditional.Fork)) (fallback : Scope) : Prop :=
  Apart fun v => v = here ∨ v = fallback ∨ ∃ arm ∈ forks, v = arm.2.scope

/-- A scope in which no name is global and local at once, nor will be by being declared. -/
structure Tidy (s : Scope) : Prop where
  /-- The names of the root frame are global. -/
  shared : ∀ name, name ≠ radixName → ¬ s.root.Has Private name
  /-- The scope is apart from itself. -/
  apart : Apart (· = s)

/-- The symbols of a scope stem from those of others, each from one in the same place. -/
structure Stems (V : Scope → Prop) (r : Scope) : Prop where
  /-- Symbols of the root frame. -/
  root : ∀ name, r.root.Has Any name → ∃ v, V v ∧ v.root.Has Any name
  /-- Symbols of the root frame that do not belong to the whole program. -/
  isPrivate : ∀ name, r.root.Has Private name → ∃ v, V v ∧ v.root.Has Private name
  /-- Symbols of the open units. -/
  inner : ∀ i name, r.HasAt Any i name → ∃ v, V v ∧ v.HasAt Any i name
  /-- Symbols of the open units that were only referred to. -/
  ahead : ∀ i name, r.HasAt Ahead i name → ∃ v, V v ∧ v.HasAt Ahead i name

section Stems

variable {V W : Scope → Prop} {r s s' : Scope}

theorem Apart.mono (h : Apart V) (hW : ∀ v, W v → V v) : Apart W where
  exclusive v v' hv hv' := h.exclusive v v' (hW v hv) (hW v' hv')
  ahead v v' hv hv' := h.ahead v v' (hW v hv) (hW v' hv')

theorem stems_self (hV : V r) : Stems V r :=
  ⟨fun _ h => ⟨r, hV, h⟩, fun _ h => ⟨r, hV, h⟩, fun _ _ h => ⟨r, hV, h⟩, fun _ _ h => ⟨r, hV, h⟩⟩

/-- What stems from scopes that stem from others stems from these. -/
theorem Stems.trans (hr : Stems W r) (hW : ∀ v, W v → Stems V v) : Stems V r where
  root name h := by
    obtain ⟨v, hv, h⟩ := hr.root name h
    exact (hW v hv).root name h
  isPrivate name h := by
    obtain ⟨v, hv, h⟩ := hr.isPrivate name h
    exact (hW v hv).isPrivate name h
  inner i name h := by
    obtain ⟨v, hv, h⟩ := hr.inner i name h
    exact (hW v hv).inner i name h
  ahead i name h := by
    obtain ⟨v, hv, h⟩ := hr.ahead i name h
    exact (hW v hv).ahead i name h

/-- A scope that stems from scopes that are apart is apart from itself. -/
theorem Stems.apart (hr : Stems V r) (hV : Apart V) : Apart (· = r) := by
  refine ⟨?_, ?_⟩
  · rintro _ _ rfl rfl i name hname hroot hinner
    obtain ⟨v, hv, hvroot⟩ := hr.root name hroot
    obtain ⟨v', hv', hvinner⟩ := hr.inner i name hinner
    exact hV.exclusive v v' hv hv' i name hname hvroot hvinner
  · rintro _ _ rfl rfl i j name hij hahead hinner
    obtain ⟨v, hv, hvahead⟩ := hr.ahead i name hahead
    obtain ⟨v', hv', hvinner⟩ := hr.inner j name hinner
    exact hV.ahead v v' hv hv' i j name hij hvahead hvinner

/-- A scope that stems from scopes that are apart is tidy, if the names of their root frames are global. -/
theorem Stems.tidy (hr : Stems V r) (hV : Apart V)
    (hshared : ∀ v, V v → ∀ name, name ≠ radixName → ¬ v.root.Has Private name) : r.Tidy := by
  refine ⟨fun name hname hprivate => ?_, hr.apart hV⟩
  obtain ⟨v, hv, hprivate⟩ := hr.isPrivate name hprivate
  exact hshared v hv name hname hprivate

theorem Tidy.stems (hs : s.Tidy) (h : Stems (· = s) s') : s'.Tidy :=
  h.tidy hs.apart fun _ hv => hv ▸ hs.shared

/-- In a tidy scope no name is global and local at once. -/
theorem Tidy.exclusive (hs : s.Tidy) : s.Exclusive := by
  intro name hname hglobal
  have hroot : s.root.Has Any name := by
    rw [isGlobal] at hglobal
    cases hfind : s.root.find? name with
    | none => simp [hfind] at hglobal
    | some sym => exact ⟨sym, hfind, trivial⟩
  rw [isLocal, List.any_eq_false]
  intro f hf hcontains
  obtain ⟨i, hi, rfl⟩ := List.getElem_of_mem hf
  exact hs.apart.exclusive s s rfl rfl i name hname hroot
    ⟨_, List.getElem?_eq_getElem hi, Frame.has_true_iff.2 hcontains⟩

end Stems

end Scope

/-- A frame whose symbols stem from those of another one. -/
structure Frame.Within (f f' : Frame) : Prop where
  /-- Any symbols. -/
  any : ∀ name, f'.Has Symbol.Any name → f.Has Symbol.Any name
  /-- Symbols that were only referred to. -/
  ahead : ∀ name, f'.Has Symbol.Ahead name → f.Has Symbol.Ahead name
  /-- Symbols that do not belong to the whole program. -/
  isPrivate : ∀ name, f'.Has Symbol.Private name → f.Has Symbol.Private name

namespace Frame

variable {f : Frame}

theorem Within.refl (f : Frame) : f.Within f := ⟨fun _ h => h, fun _ h => h, fun _ h => h⟩

/-- A change of a symbol after which it was not only referred to, nor private, if it was not before. -/
theorem within_modify {name : Text} {g : Symbol → Symbol}
    (hg : ∀ sym, f.find? name = some sym → ((g sym).Ahead → sym.Ahead) ∧ ((g sym).Private → sym.Private)) :
    f.Within (f.modify name g) where
  any _ h := has_modify (fun _ _ _ => trivial) h
  ahead _ h := has_modify (fun sym hsym => (hg sym hsym).1) h
  isPrivate _ h := has_modify (fun sym hsym => (hg sym hsym).2) h

/-- A name is removed. -/
theorem within_erase (hnodup : f.names.Nodup) (name : Text) : f.Within (f.erase name) where
  any _ h := (has_erase hnodup h).2
  ahead _ h := (has_erase hnodup h).2
  isPrivate _ h := (has_erase hnodup h).2

end Frame

/-- A symbol that a statement updates was only referred to if it is so afterwards. -/
theorem Symbol.Updates.within {sym sym' : Symbol} (h : sym.Updates sym') :
    (sym'.Ahead → sym.Ahead) ∧ (sym'.Private → sym.Private) := by
  refine ⟨fun ⟨hunset, hdeclared⟩ => ⟨?_, ?_⟩, fun hprivate => h.isGlobal.symm.trans hprivate⟩
  · cases hset : sym.isSet with
    | false => rfl
    | true => rw [h.toChanges.isSet hset] at hunset; cases hunset
  · cases hsym : sym.declared with
    | false => rfl
    | true => rw [h.declared hsym] at hdeclared; cases hdeclared

namespace Scope

open MacroAsm.Symbol (Any Ahead Private)

variable {s s' : Scope} {name : Text}

section Pointwise

/-- A frame of a list that is related to another one is related to the one in the same place. -/
theorem getElem?_of_forall₂ {R : Frame → Frame → Prop} {fs gs : List Frame} (h : List.Forall₂ R fs gs)
    {i : Nat} {g : Frame} (hg : gs[i]? = some g) : ∃ f, fs[i]? = some f ∧ R f g := by
  induction h generalizing i with
  | nil => cases hg
  | cons hfg _ ih =>
    cases i with
    | zero =>
      cases hg
      exact ⟨_, rfl, hfg⟩
    | succ i => exact ih hg

/-- A scope stems from another one if each of its frames does. -/
theorem stems_of_within (hinner : List.Forall₂ Frame.Within s.inner s'.inner)
    (hroot : s.root.Within s'.root) : Stems (· = s) s' where
  root name h := ⟨s, rfl, hroot.any name h⟩
  isPrivate name h := ⟨s, rfl, hroot.isPrivate name h⟩
  inner i name := by
    rintro ⟨g, hg, hhas⟩
    obtain ⟨f, hf, hwithin⟩ := getElem?_of_forall₂ hinner hg
    exact ⟨s, rfl, f, hf, hwithin.any name hhas⟩
  ahead i name := by
    rintro ⟨g, hg, hhas⟩
    obtain ⟨f, hf, hwithin⟩ := getElem?_of_forall₂ hinner hg
    exact ⟨s, rfl, f, hf, hwithin.ahead name hhas⟩

/-- A change of the innermost symbol of a name. -/
theorem Tidy.modify (hs : s.Tidy) {g : Symbol → Symbol}
    (hg : ∀ sym, s.find? name = some sym → ((g sym).Ahead → sym.Ahead) ∧ ((g sym).Private → sym.Private)) :
    (s.modify name g).Tidy := by
  have hframe : ∀ {f : Frame} {sym : Symbol}, f.find? name = some sym → s.find? name = some sym →
      f.Within (f.modify name g) := by
    intro f sym hsym hfind
    refine Frame.within_modify fun sym' hsym' => ?_
    rw [hsym] at hsym'
    cases hsym'
    exact hg sym hfind
  have hstep := modifyFrameOf_rel (g := fun f => f.modify name g) Frame.Within.refl Frame.Within.refl
    (fun f _ sym hsym hfind => hframe hsym hfind) (fun sym hsym hfind => hframe hsym hfind)
  exact hs.stems (stems_of_within hstep.1 hstep.2)

theorem Tidy.root (hs : s.Tidy) {root : Frame} (hroot : s.root.Within root) :
    Tidy { s with root } :=
  hs.stems (stems_of_within (List.forall₂_same.2 fun f _ => .refl f) hroot)

/-- A name is removed. -/
theorem Tidy.remove (hs : s.Tidy) (hwell : s.WellFormed) (name : Text) : (s.remove name).Tidy := by
  have hstep := modifyFrameOf_rel (g := fun f => f.erase name) Frame.Within.refl Frame.Within.refl
    (fun f hf _ (_ : f.find? name = some _) _ => Frame.within_erase (hwell.inner f hf).nodup name)
    (fun _ _ _ => Frame.within_erase hwell.root name)
  exact hs.stems (stems_of_within hstep.1 hstep.2)

end Pointwise

section Top

variable {root f f' : Frame} {rest : List Frame}

/-- A frame that can be put on top of the frames of a scope: its names are not in the root frame, and those
that were only referred to are not in any. -/
structure Fits (s : Scope) (f : Frame) : Prop where
  /-- Its names are not in the root frame. -/
  exclusive : ∀ name, name ≠ radixName → f.Has Any name → ¬ s.root.Has Any name
  /-- Its names that were only referred to are not in the frames of open units. -/
  ahead : ∀ name i, f.Has Ahead name → ¬ s.HasAt Any i name

theorem hasAt_zero {B : Symbol → Prop} : HasAt B ⟨root, f :: rest⟩ 0 name ↔ f.Has B name := by
  simp [HasAt]

theorem hasAt_succ {B : Symbol → Prop} {i : Nat} :
    HasAt B ⟨root, f :: rest⟩ (i + 1) name ↔ HasAt B ⟨root, rest⟩ i name := by
  simp [HasAt]

/-- A tidy scope is one with a frame that fits on top of a tidy scope. -/
theorem tidy_push_iff : Tidy ⟨root, f :: rest⟩ ↔ Tidy ⟨root, rest⟩ ∧ Fits ⟨root, rest⟩ f := by
  constructor
  · intro h
    refine ⟨⟨h.shared, ?_, ?_⟩, ?_, ?_⟩
    · rintro _ _ rfl rfl i name hname hroot hinner
      exact h.apart.exclusive _ _ rfl rfl (i + 1) name hname hroot (hasAt_succ.2 hinner)
    · rintro _ _ rfl rfl i j name hij hahead hinner
      exact h.apart.ahead _ _ rfl rfl (i + 1) (j + 1) name (by omega) (hasAt_succ.2 hahead)
        (hasAt_succ.2 hinner)
    · intro name hname hf hroot
      exact h.apart.exclusive _ _ rfl rfl 0 name hname hroot (hasAt_zero.2 hf)
    · intro name i hf hinner
      exact h.apart.ahead _ _ rfl rfl 0 (i + 1) name (by omega) (hasAt_zero.2 hf) (hasAt_succ.2 hinner)
  · rintro ⟨h, hfits⟩
    refine ⟨h.shared, ?_, ?_⟩
    · rintro _ _ rfl rfl i name hname hroot hinner
      cases i with
      | zero => exact hfits.exclusive name hname (hasAt_zero.1 hinner) hroot
      | succ i => exact h.apart.exclusive _ _ rfl rfl i name hname hroot (hasAt_succ.1 hinner)
    · rintro _ _ rfl rfl i j name hij hahead hinner
      obtain ⟨j, rfl⟩ : ∃ k, j = k + 1 := ⟨j - 1, by omega⟩
      cases i with
      | zero => exact hfits.ahead name j (hasAt_zero.1 hahead) (hasAt_succ.1 hinner)
      | succ i =>
        exact h.apart.ahead _ _ rfl rfl i j name (by omega) (hasAt_succ.1 hahead) (hasAt_succ.1 hinner)

/-- A frame fits if it differs in one name from a frame that does, and that name fits. -/
theorem Fits.enter (h : Fits s f)
    (hothers : ∀ other, other ≠ name → (f'.Has Any other → f.Has Any other) ∧
      (f'.Has Ahead other → f.Has Ahead other))
    (hroot : name ≠ radixName → ¬ s.root.Has Any name)
    (hahead : f'.Has Ahead name → ∀ i, ¬ s.HasAt Any i name) : Fits s f' := by
  refine ⟨fun other hother hf => ?_, fun other i hf => ?_⟩
  · by_cases heq : other = name
    · subst heq
      exact hroot hother
    · exact h.exclusive other hother ((hothers other heq).1 hf)
  · by_cases heq : other = name
    · subst heq
      exact hahead hf i
    · exact h.ahead other i ((hothers other heq).2 hf)

theorem fits_empty (s : Scope) : Fits s Frame.empty :=
  ⟨fun _ _ h => absurd h Frame.not_has_empty, fun _ _ h => absurd h Frame.not_has_empty⟩

theorem Tidy.nest (hs : s.Tidy) : s.nest.Tidy := tidy_push_iff.2 ⟨hs, fits_empty s⟩

/-- A scope without its innermost frame. -/
theorem Tidy.unnest (hs : s.Tidy) : s.unnest.Tidy := by
  obtain ⟨root, inner⟩ := s
  cases inner with
  | nil => exact hs
  | cons f rest => exact (tidy_push_iff.1 hs).1

/-- A name that is not global is not in the root frame. -/
theorem Tidy.not_has_root (hs : s.Tidy) (hname : name ≠ radixName) (h : s.isGlobal name = false) :
    ¬ s.root.Has Any name := by
  rintro ⟨sym, hsym, -⟩
  rw [isGlobal, hsym] at h
  exact hs.shared name hname ⟨sym, hsym, h⟩

/-- A name that is declared in the innermost frame is not global, and it is there afterwards. -/
theorem declareLocal_cases (h : declareLocal ⟨root, f :: rest⟩ name = .ok s') :
    isGlobal ⟨root, f :: rest⟩ name = false ∧
      ∃ f', s' = ⟨root, f' :: rest⟩ ∧ ∀ B other, other ≠ name → f'.Has B other → f.Has B other := by
  obtain ⟨hglobal, hdeclares⟩ := declareLocal_eq_ok h
  refine ⟨hglobal, ?_⟩
  cases hdeclares with
  | kept => exact ⟨f, rfl, fun _ _ _ hf => hf⟩
  | entered =>
    refine ⟨f.insert name {}, rfl, fun B other hne hf => ?_⟩
    exact (Frame.has_insert hf).resolve_right fun heq => hne heq.1

/-- A name is declared in the innermost frame, and by that or at once it is more than referred to. -/
theorem Tidy.declareLocal (hs : s.Tidy) (hopen : s.inner ≠ []) (h : s.declareLocal name = .ok s')
    {g : Symbol → Symbol} (hg : ∀ sym, ¬ (g sym).Ahead) :
    (s'.modifyTop fun f => f.modify name g).Tidy := by
  obtain ⟨root, inner⟩ := s
  cases inner with
  | nil => exact absurd rfl hopen
  | cons f rest =>
    obtain ⟨hglobal, f', rfl, hothers⟩ := declareLocal_cases h
    have hne : ∀ {B : Symbol → Prop} {other : Text}, other ≠ name →
        (f'.modify name g).Has B other → f.Has B other := by
      rintro B other hne ⟨sym, hsym, hB⟩
      rw [Frame.find?_modify_of_ne hne] at hsym
      exact hothers B other hne ⟨sym, hsym, hB⟩
    refine tidy_push_iff.2 ⟨(tidy_push_iff.1 hs).1, (tidy_push_iff.1 hs).2.enter
      (fun other hother => ⟨hne hother, hne hother⟩) (fun hname => hs.not_has_root hname hglobal) ?_⟩
    rintro ⟨sym, hsym, hahead⟩
    rw [Frame.find?_modify_self] at hsym
    obtain ⟨old, -, rfl⟩ := Option.map_eq_some_iff.1 hsym
    exact absurd hahead (hg old)

/-- A name that is not found is in no frame. -/
theorem find?_of_findIn_eq_none {fs : List Frame} (h : findIn name fs = none) :
    ∀ f ∈ fs, f.find? name = none := by
  induction fs with
  | nil => exact fun f hf => absurd hf List.not_mem_nil
  | cons f rest ih =>
    rw [findIn] at h
    cases hfind : f.find? name with
    | some sym =>
      rw [hfind] at h
      cases h
    | none =>
      rw [hfind] at h
      exact List.forall_mem_cons.2 ⟨hfind, ih h⟩

/-- A name that does not exist is in no frame. -/
theorem not_hasAt_of_find? (h : s.find? name = none) :
    ¬ s.root.Has Any name ∧ ∀ i, ¬ s.HasAt Any i name := by
  have hnone : ∀ f ∈ s.inner ++ [s.root], f.find? name = none := find?_of_findIn_eq_none h
  constructor
  · rintro ⟨sym, hsym, -⟩
    rw [hnone s.root (by simp)] at hsym
    cases hsym
  · rintro i ⟨f, hf, sym, hsym, -⟩
    rw [hnone f (List.mem_append_left _ (List.mem_of_getElem? hf))] at hsym
    cases hsym

/-- A name that does not exist is declared in the innermost frame. -/
theorem Tidy.declareAhead (hs : s.Tidy) (hopen : s.inner ≠ []) (hnone : s.find? name = none)
    (h : s.declareLocal name = .ok s') : s'.Tidy := by
  obtain ⟨root, inner⟩ := s
  cases inner with
  | nil => exact absurd rfl hopen
  | cons f rest =>
    obtain ⟨-, f', rfl, hothers⟩ := declareLocal_cases h
    obtain ⟨hroot, hinner⟩ := not_hasAt_of_find? hnone
    refine tidy_push_iff.2 ⟨(tidy_push_iff.1 hs).1, (tidy_push_iff.1 hs).2.enter
      (fun other hother => ⟨hothers Any other hother, hothers Ahead other hother⟩) (fun _ => hroot) ?_⟩
    exact fun _ i hi => hinner (i + 1) (hasAt_succ.2 hi)

/-- A block begins with a frame of its own in which names are bound. -/
theorem Tidy.opens (hs : s.Tidy) {t : Scope} (h : s.Opens t) : t.Tidy := by
  induction h with
  | nest => exact hs.nest
  | @bind t t' name value loc hopens hbind ih =>
    obtain ⟨f, -, rfl⟩ := hopens.exists_top
    rw [Expand.bindIn] at hbind
    obtain ⟨t1, hdeclare, hbound⟩ := Except.bind_eq_ok_iff.1 hbind
    cases hbound
    refine ih.declareLocal (List.cons_ne_nil _ _) hdeclare fun sym => ?_
    rintro ⟨hunset, -⟩
    cases hunset

/-- A name that waits moves to the frame below. -/
theorem Tidy.hoist (hs : s.Tidy) (hwell : s.WellFormed) {sym : Symbol}
    (hfind : s.top.find? name = some sym) : (s.hoist name).1.Tidy := by
  obtain ⟨root, inner⟩ := s
  cases inner with
  | nil => exact hs
  | cons f inner =>
    cases inner with
    | nil => exact hs
    | cons below rest =>
      obtain ⟨hlower, hfits⟩ := tidy_push_iff.1 hs
      obtain ⟨hrest, hbelow⟩ := tidy_push_iff.1 hlower
      have hfind : f.find? name = some sym := hfind
      have hnodup : f.names.Nodup := (hwell.inner f List.mem_cons_self).nodup
      have hhoist : (Scope.hoist ⟨root, f :: below :: rest⟩ name).1 = ⟨root, f.erase name ::
          (if below.contains name then below.modify name (absorb · sym) else below.insert name sym) ::
            rest⟩ := by
        simp [Scope.hoist, hfind]
      -- the frame below gains the name, unless it held it
      obtain ⟨below', hbelow', hothers, hahead⟩ : ∃ below', (if below.contains name then
          below.modify name (absorb · sym) else below.insert name sym) = below' ∧
          (∀ B other, other ≠ name → below'.Has B other → below.Has B other) ∧
          (below'.Has Ahead name → below.Has Ahead name ∨ f.Has Ahead name) := by
        refine ⟨_, rfl, fun B other hne hhas => ?_, fun hhas => ?_⟩
        · split at hhas
          · obtain ⟨sym', hsym', hB⟩ := hhas
            rw [Frame.find?_modify_of_ne hne] at hsym'
            exact ⟨sym', hsym', hB⟩
          · exact (Frame.has_insert hhas).resolve_right fun heq => hne heq.1
        · split at hhas
          · exact Or.inl (Frame.has_modify (g := (absorb · sym)) (fun _ _ h => h) hhas)
          · rcases Frame.has_insert hhas with h | ⟨-, h⟩
            · exact Or.inl h
            · exact Or.inr ⟨sym, hfind, h⟩
      rw [hhoist, hbelow']
      refine tidy_push_iff.2 ⟨tidy_push_iff.2 ⟨hrest, ?_⟩, ?_⟩
      · refine hbelow.enter (fun other hne => ⟨hothers Any other hne, hothers Ahead other hne⟩)
          (fun hname => hfits.exclusive name hname ⟨sym, hfind, trivial⟩) fun h i hi => ?_
        rcases hahead h with h | h
        · exact hbelow.ahead name i h hi
        · exact hfits.ahead name (i + 1) h (hasAt_succ.2 hi)
      · refine ⟨fun other hother h => hfits.exclusive other hother (Frame.has_erase hnodup h).2,
          fun other i h hi => ?_⟩
        obtain ⟨hne, h⟩ := Frame.has_erase hnodup h
        cases i with
        | zero =>
          exact hfits.ahead other 0 h (hasAt_zero.2 (hothers Any other hne (hasAt_zero.1 hi)))
        | succ i => exact hfits.ahead other (i + 1) h (hasAt_succ.2 (hasAt_succ.1 hi))

end Top

section Global

/-- A name that is in no open unit is made global. -/
theorem Tidy.insertRoot (hs : s.Tidy) (hinner : ∀ i, ¬ s.HasAt Any i name) {sym : Symbol}
    (hglobal : sym.global = true) : Tidy { s with root := s.root.insert name sym } := by
  refine ⟨fun other hother hprivate => ?_, ?_, ?_⟩
  · rcases Frame.has_insert hprivate with h | ⟨-, h⟩
    · exact hs.shared other hother h
    · rw [Private, hglobal] at h
      cases h
  · rintro _ _ rfl rfl i other hother hroot hhas
    rcases Frame.has_insert hroot with h | ⟨rfl, -⟩
    · exact hs.apart.exclusive s s rfl rfl i other hother h hhas
    · exact hinner i hhas
  · rintro _ _ rfl rfl i j other hij hahead hhas
    exact hs.apart.ahead s s rfl rfl i j other hij hahead hhas

/-- The innermost frame that holds a name is the only one, if the name was only referred to. -/
theorem Fits.erase_owner {root : Frame} {fs : List Frame} (h : Tidy ⟨root, fs⟩) {sym : Symbol}
    (hfind : findIn name fs = some sym) (hsym : sym.Ahead) (hnodup : ∀ f ∈ fs, f.names.Nodup) (i : Nat) :
    ¬ HasAt Any ⟨root, (modifyOwner name (fun f => f.erase name) fs).1⟩ i name := by
  induction fs generalizing i with
  | nil => cases hfind
  | cons f rest ih =>
    obtain ⟨hrest, hfits⟩ := tidy_push_iff.1 h
    rw [List.forall_mem_cons] at hnodup
    rw [findIn] at hfind
    rw [modifyOwner]
    cases hf : f.find? name with
    | some found =>
      rw [hf] at hfind
      cases hfind
      rw [if_pos (by rw [Frame.contains, hf]; rfl)]
      cases i with
      | zero => exact fun hhas => (Frame.has_erase hnodup.1 (hasAt_zero.1 hhas)).1 rfl
      | succ i => exact fun hhas => hfits.ahead name i ⟨sym, hf, hsym⟩ (hasAt_succ.1 hhas)
    | none =>
      rw [hf] at hfind
      rw [if_neg (by rw [Frame.contains, hf]; exact Bool.false_ne_true)]
      cases i with
      | zero =>
        intro hhas
        have hcontains := (hasAt_zero.1 hhas).contains
        rw [Frame.contains, hf] at hcontains
        cases hcontains
      | succ i => exact fun hhas => ih hrest hfind hnodup.2 i (hasAt_succ.1 hhas)

/-- A name is made global. One that was only referred to moves from the unit that holds it. -/
theorem Tidy.declareGlobal (hs : s.Tidy) (hwell : s.WellFormed) (h : s.declareGlobal name = .ok s') :
    s'.Tidy := by
  cases declareGlobal_eq_ok h with
  | kept => exact hs
  | promoted =>
    refine hs.root (Frame.within_modify fun sym _ => ⟨fun hahead => hahead, fun hprivate => ?_⟩)
    cases hprivate
  | entered _ hin =>
    refine hs.insertRoot (fun i => ?_) rfl
    rintro ⟨f, hf, sym, hsym, -⟩
    rw [find?_of_findIn_eq_none hin f (List.mem_of_getElem? hf)] at hsym
    cases hsym
  | moved _ hin hunset hdeclared =>
    have hnodup : ∀ f ∈ s.inner, f.names.Nodup := fun f hf => (hwell.inner f hf).nodup
    have hmoved : Tidy ⟨s.root, (modifyOwner name (fun f => f.erase name) s.inner).1⟩ := by
      refine hs.stems (stems_of_within ?_ (.refl s.root))
      exact modifyOwner_forall₂ Frame.Within.refl fun f hf _ _ _ =>
        Frame.within_erase (hnodup f hf) name
    exact hmoved.insertRoot (Fits.erase_owner hs hin ⟨hunset, hdeclared⟩ hnodup) rfl

end Global

section Merge

/-- A merged symbol was only referred to if one that it was merged from was. -/
theorem traced_ahead : Traced Ahead where
  merged _ hs ts fs m hts hmerged := by
    -- what was merged from two symbols that are set is set
    rintro ⟨hunset, -⟩
    rw [Symbol.isSet, Bool.or_eq_false_iff] at hunset
    cases hmerged with
    | sameMacro htemplate _ hvalue =>
      rw [Symbol.isSet, hvalue, ← htemplate, hunset.2] at hts
      cases hts
    | sameValue _ _ hvalue =>
      rw [hvalue] at hunset
      cases hunset.1
    | choice _ _ hvalue =>
      rw [hvalue] at hunset
      cases hunset.1
  carried dst src := by
    cases src with
    | none => exact id
    | some src =>
      rintro ⟨hunset, hdeclared⟩
      exact ⟨hunset, (Bool.or_eq_false_iff.1 hdeclared).1⟩
  fresh src hunset h := ⟨hunset, h.2⟩

/-- A merged symbol is private if one that it was merged from is. -/
theorem traced_private : Traced Private where
  merged _ hs ts fs m _ hmerged := by
    cases hmerged with
    | sameMacro _ _ _ _ _ _ _ hglobal => exact hglobal.symm.trans
    | sameValue _ _ _ _ _ _ _ _ _ _ hglobal => exact hglobal.symm.trans
    | choice _ _ _ _ _ _ _ _ hglobal => exact hglobal.symm.trans
  carried dst src := by
    cases src with
    | none => exact id
    | some src => exact fun h => (Bool.or_eq_false_iff.1 h).1
  fresh src _ h := h

/-- A merged scope stems from those that were merged. -/
theorem stems_merge {V : Scope → Prop} {test : Expr} {onTrue onFalse : Scope} (hhere : V s)
    (htrue : V onTrue) (hfalse : V onFalse) (hroot : s.root.names.Nodup)
    (hinner : ∀ f ∈ s.inner, f.names.Nodup) : Stems V (s.merge test onTrue onFalse).1 := by
  have hone : ∀ {P : Scope → Prop}, P s ∨ P onTrue ∨ P onFalse → ∃ v, V v ∧ P v := by
    rintro P (h | h | h)
    · exact ⟨s, hhere, h⟩
    · exact ⟨onTrue, htrue, h⟩
    · exact ⟨onFalse, hfalse, h⟩
  exact ⟨fun name h => hone (P := fun v => v.root.Has Any name) (has_root_merge traced_true hroot h),
    fun name h => hone (P := fun v => v.root.Has Private name) (has_root_merge traced_private hroot h),
    fun i name h => hone (P := fun v => v.HasAt Any i name) (hasAt_merge traced_true hinner h),
    fun i name h => hone (P := fun v => v.HasAt Ahead i name) (hasAt_merge traced_ahead hinner h)⟩

/-- Forks are merged into a scope that stems from the scopes that are merged. -/
theorem stems_mergeForks {V : Scope → Prop} (hkept : ∀ v, V v → s.Kept v) {here fallback : Scope}
    (hhere : V here) (hfallback : V fallback) {forks : List (Expr × Conditional.Fork)}
    (hforks : ∀ arm ∈ forks, V arm.2.scope) : Stems V (Conditional.mergeForks fallback forks here).1 := by
  have hnodup : ∀ {v : Scope}, s.Kept v → v.root.names.Nodup ∧ ∀ f ∈ v.inner, f.names.Nodup := by
    intro v hv
    refine ⟨hv.root.1, fun f hf => ?_⟩
    obtain ⟨i, hi, rfl⟩ := List.getElem_of_mem hf
    obtain ⟨-, -, hf, -⟩ := getElem?_of_forall₂ hv.inner (List.getElem?_eq_getElem hi)
    exact hf.nodup
  induction forks with
  | nil => exact stems_self hhere
  | cons arm rest ih =>
    rw [List.forall_mem_cons] at hforks
    have hrest := ih hforks.2
    cases rest with
    | nil =>
      obtain ⟨hroot, hinner⟩ := hnodup (hkept here hhere)
      exact stems_merge hhere hforks.1 hfallback hroot hinner
    | cons next rest =>
      -- the scope that the later forks are merged into is merged with the first
      have hkeeps := (hkept here hhere).mergeForks (hkept fallback hfallback)
        fun arm harm => hkept arm.2.scope (hforks.2 arm harm)
      rw [Conditional.mergeForks]
      · split
        · rename_i scope c heq
          rwa [heq] at hrest
        · rename_i scope heq
          rw [heq] at hrest hkeeps
          obtain ⟨hroot, hinner⟩ := hnodup hkeeps
          refine (stems_merge (V := fun v => V v ∨ v = scope) (Or.inr rfl) (Or.inl hforks.1) (Or.inr rfl)
            hroot hinner).trans ?_
          rintro v (hv | rfl)
          · exact stems_self hv
          · exact hrest
      · simp

end Merge

/-- A scope stays tidy whatever is done to it, as long as scopes that are merged are apart. -/
theorem Proceeds.tidy {ok : Macro → Prop} (h : Proceeds MergesApart ok s s') (hwell : s.WellFormed)
    (hs : s.Tidy) : s'.Tidy := by
  induction h with
  | refl => exact hs
  | trans hst _ ihst ihtv => exact ihtv (hst.evolves.preserved hwell).wellFormed (ihst hwell hs)
  | modify s name g hg => exact hs.modify fun sym hsym => (hg sym hsym).within
  | modifyRoot s name g hg => exact hs.root (Frame.within_modify fun sym hsym => (hg sym hsym).within)
  | declareAhead hnone h => exact hs.declareAhead hwell.isOpen hnone h
  | declareLocal h loc => exact hs.declareLocal hwell.isOpen h fun _ hahead => by cases hahead.2
  | declareGlobal h => exact hs.declareGlobal hwell h
  | define _ h value loc =>
    refine (hs.declareGlobal hwell h).modify fun sym _ => ⟨fun hahead => ?_, fun hprivate => hprivate⟩
    cases hahead.1
  | remove => exact hs.remove hwell _
  | defineMacro h _ loc => exact hs.declareLocal hwell.isOpen h fun _ hahead => by cases hahead.1
  | hoist hfind => exact hs.hoist hwell hfind
  | block hopens _ ih => exact (ih (hwell.of_opens hopens) (hs.opens hopens)).unnest
  | fork s forks after hforks hafter last hlast hmay ihforks ihlast =>
    have hnest := hwell.of_opens .nest
    -- every scope that is merged is kept and tidy
    have hlast' : s.Kept ((last.map Scope.unnest).getD s) ∧ Tidy ((last.map Scope.unnest).getD s) := by
      cases last with
      | none => exact ⟨hwell.kept, hs⟩
      | some t =>
        exact ⟨kept_unnest .nest ((hlast t rfl).evolves.preserved hnest),
          (ihlast t rfl hnest hs.nest).unnest⟩
    have hmerged : ∀ v, (v = s ∨ v = (last.map Scope.unnest).getD s ∨
        ∃ arm ∈ forks, v = arm.2.scope) → s.Kept v ∧ v.Tidy := by
      rintro v (rfl | rfl | ⟨arm, harm, rfl⟩)
      · exact ⟨hwell.kept, hs⟩
      · exact hlast'
      · rw [hafter arm harm]
        exact ⟨kept_unnest .nest ((hforks arm harm).evolves.preserved hnest),
          (ihforks arm harm hnest hs.nest).unnest⟩
    exact (stems_mergeForks (fun v hv => (hmerged v hv).1) (Or.inl rfl) (Or.inr (Or.inl rfl))
      fun arm harm => Or.inr (Or.inr ⟨arm, harm, rfl⟩)).tidy hmay fun v hv => (hmerged v hv).2.shared

end Scope

/-- A state in which the statements of a block may be handled while a program is assembled over a root scope
whose names are global, if what is merged before is allowed by `may`. -/
inductive ReachableBy (may : Scope → List (Expr × Conditional.Fork) → Scope → Prop) (a : Assembler) :
    Workbench → State → Prop where
  /-- The block of the program begins, over a root scope that binds each name once, and only global ones
  beside the radix. -/
  | start (scope : Scope) (hroot : scope.root.names.Nodup) (hinner : scope.inner = [])
    (hshared : ∀ name sym, name ≠ Scope.radixName → scope.root.find? name = some sym → sym.global = true) :
    ReachableBy may a ⟨a, a.outermost, a.runner a.maxDepth⟩ (Assembler.start scope)
  /-- Statements are handled. -/
  | proceed {w : Workbench} {s s' : State} (h : ReachableBy may a w s)
    (hs : Scope.Proceeds may (fun _ => True) s.scope s'.scope) : ReachableBy may a w s'
  /-- A nested block begins, over a frame of its own or over the same scope. -/
  | nest {b b' : Block} {depth : Nat} {s s' : State}
    (h : ReachableBy may a ⟨a, b, a.runner (depth + 1)⟩ s)
    (hs : s'.scope = s.scope ∨ s.scope.Opens s'.scope) : ReachableBy may a ⟨a, b', a.runner depth⟩ s'

namespace ReachableBy

variable {may : Scope → List (Expr × Conditional.Fork) → Scope → Prop} {a : Assembler} {w : Workbench}
  {s : State}

/-- What is reached with restrictions on merging is reachable. -/
theorem reachable (h : ReachableBy may a w s) : Reachable a w s := by
  induction h with
  | start scope hroot hinner =>
    refine .start scope hroot fun f hf => ?_
    rw [hinner] at hf
    cases hf
  | proceed _ hs ih => exact ih.evolve hs.evolves
  | nest _ hs ih => exact ih.nest hs

/-- Handling an item leads on, whatever is merged by that. -/
theorem handle (h : ReachableBy (fun _ _ _ => True) a w s) {pass : Pass} (hpass : pass ∈ w.passes)
    (item : Item) : ReachableBy (fun _ _ _ => True) a w ((pass.handle w.block.inMacro item).run s).2 := by
  have hleads := (Grammar.maps_any h.reachable.equips hpass item s
    ⟨Grammar.sound_any h.reachable.wellFormed, trivial⟩).1
  exact h.proceed (Grammar.proceeds_any hleads)

/-- Assembling a block leads on, whatever is merged by that. -/
theorem run (h : ReachableBy (fun _ _ _ => True) a w s) (source : List Token) :
    ReachableBy (fun _ _ _ => True) a w ((w.run source).run s).2 := by
  rw [Workbench.run_eq]
  exact h.proceed (Grammar.proceeds_any (Grammar.leads_runWith
    (Grammar.assembles_any h.reachable.equips) (fun _ _ => trivial)
    (Grammar.sound_any h.reachable.wellFormed)).1)

/-- The scope of a state that is reached by merging scopes that are apart is tidy. -/
theorem tidy (h : ReachableBy Scope.MergesApart a w s) : s.scope.Tidy := by
  induction h with
  | start scope hroot hinner hshared =>
    refine Scope.Tidy.nest ⟨fun name hname => ?_, ?_, ?_⟩
    · rintro ⟨sym, hsym, hprivate⟩
      rw [Symbol.Private, hshared name sym hname hsym] at hprivate
      cases hprivate
    · rintro _ _ rfl rfl i name - - ⟨f, hf, -⟩
      rw [hinner] at hf
      cases hf
    · rintro _ _ rfl rfl i j name - ⟨f, hf, -⟩
      rw [hinner] at hf
      cases hf
  | proceed h hs ih => exact hs.tidy h.reachable.wellFormed ih
  | nest _ hs ih =>
    rcases hs with hs | hs
    · rwa [hs]
    · exact ih.opens hs

/-- No name but that of the radix is global and local at once, at any moment of a run, as long as the scopes
that were merged after the arms of conditions were apart. -/
theorem exclusive_of_mergesApart (h : ReachableBy Scope.MergesApart a w s) : s.scope.Exclusive :=
  h.tidy.exclusive

/-- The scope of a program that has referred to X. -/
def referred : Scope := Scope.initial.nest.modifyTop fun f => f.insert "X" {}

/-- That scope after an undecided IF without statements. -/
def merged : Scope :=
  (Conditional.mergeForks referred [(.here Location.none, ⟨referred, [], []⟩)] referred).1

/-- A name that was referred to, and that is then declared by GLOBAL after an undecided IF, is global and not
local any more. -/
theorem exclusive_of_mergesApart_referred :
    ∃ w s, ReachableBy Scope.MergesApart (.bare 1) w s ∧ s.scope.isGlobal "X" = true ∧
      s.scope.Exclusive := by
  have hnone : Scope.initial.nest.find? "X" = none := by decide +kernel
  obtain ⟨w, hreferred⟩ : ∃ w, ReachableBy Scope.MergesApart (.bare 1) w
      { Assembler.start Scope.initial with scope := referred } := by
    refine ⟨_, .proceed (.start Scope.initial (by decide +kernel) rfl fun name sym hname hsym => ?_)
      (.declareAhead hnone (Scope.declareLocal_of_find?_eq_none hnone))⟩
    -- the radix is the only name of the root frame
    rw [Scope.initial, Frame.find?_insert, if_neg hname] at hsym
    cases hsym
  have hmerged : ReachableBy Scope.MergesApart (.bare 1) w
      { Assembler.start Scope.initial with scope := merged } := by
    refine .proceed hreferred (.fork referred [(.here Location.none, ⟨referred, [], []⟩)]
      (fun _ => referred.nest) (fun _ _ => .refl _) (fun arm harm => ?_) none (fun t ht => by cases ht) ?_)
    · rw [List.mem_singleton.1 harm]
      rfl
    · refine hreferred.tidy.apart.mono ?_
      rintro v (rfl | rfl | ⟨arm, harm, rfl⟩)
      · rfl
      · rfl
      · rw [List.mem_singleton.1 harm]
  obtain ⟨scope, hdeclare, hglobal⟩ : ∃ scope, merged.declareGlobal "X" = .ok scope ∧
      scope.isGlobal "X" = true := by
    have hok : ((merged.declareGlobal "X").toOption.map fun scope => scope.isGlobal "X") = some true := by
      decide +kernel
    cases hdeclare : merged.declareGlobal "X" with
    | error c => simp [hdeclare, Except.toOption] at hok
    | ok scope => exact ⟨scope, rfl, by simpa [hdeclare, Except.toOption] using hok⟩
  have hreached : ReachableBy Scope.MergesApart (.bare 1) w
    { Assembler.start Scope.initial with scope } := .proceed hmerged (.declareGlobal hdeclare)
  exact ⟨w, _, hreached, hglobal, exclusive_of_mergesApart hreached⟩

end ReachableBy

namespace Assembler

/-- `DB X`, an undecided IF whose arm is `GLOBAL X`, and `X EQU 5`. -/
def conditionalGlobal : List Token :=
  [.data Location.none .bytes [.identifier Location.none "X"],
    .cond Location.none [.mk (.here Location.none)
      [.declare Location.none (.globally false) [.identifier Location.none "X"]]] none false,
    .assign Location.none .equate (.identifier Location.none "X") (.literal Location.none 5)]

/-- Assembling this program leaves X both global and local: the EQU binds the local symbol, and the global one
stays without a value. -/
theorem assemble_not_exclusive :
    ¬ (assemble (.bare 1) Scope.initial conditionalGlobal).scope.Exclusive ∧
      (assemble (.bare 1) Scope.initial conditionalGlobal).scope.root.isSetAt "X" = false := by
  have hname : ("X" : Text) ≠ Scope.radixName := by decide +kernel
  have hglobal : (assemble (.bare 1) Scope.initial conditionalGlobal).scope.isGlobal "X" = true := by
    decide +kernel
  have hlocal : (assemble (.bare 1) Scope.initial conditionalGlobal).scope.isLocal "X" = true := by
    decide +kernel
  refine ⟨fun h => ?_, by decide +kernel⟩
  rw [h "X" hname hglobal] at hlocal
  cases hlocal

end Assembler

end MacroAsm
