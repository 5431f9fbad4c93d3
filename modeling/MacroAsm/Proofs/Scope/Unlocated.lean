import MacroAsm.Proofs.Eval.Outcome
import MacroAsm.Proofs.Scope.Lookup

/-!
# Scopes without the places of their symbols

`Scope.unlocated` forgets where symbols were declared or assigned, and nothing else. Looking up a name, changing a
symbol and declaring a name commute with forgetting, so scopes that differ in places alone go on differing in places
alone. Such scopes bind the same names in the same order, and the same of them are used
(`Scope.names_eq_of_unlocated_eq`, `Scope.used_eq_of_unlocated_eq`).
-/

namespace MacroAsm

/-- A symbol without the place where it was declared or assigned. -/
def Symbol.unlocated (sym : Symbol) : Symbol := { sym with loc := Location.none }

/-- A frame without the places of its symbols. -/
def Frame.unlocated (f : Frame) : Frame := ⟨f.entries.map fun entry => (entry.1, entry.2.unlocated)⟩

/-- A scope without the places of its symbols. -/
def Scope.unlocated (s : Scope) : Scope := ⟨s.root.unlocated, s.inner.map Frame.unlocated⟩

/-- A state without the places of the symbols of its scope. -/
def State.unlocated (s : State) : State := { s with scope := s.scope.unlocated }

/-- The names of a frame, each with whether an expression has referred to it. -/
def Frame.usedFlags (f : Frame) : List (Text × Bool) := f.entries.map fun entry => (entry.1, entry.2.used)

namespace Frame

variable {name : Text} (f : Frame)

/-- What a name is bound to is found in its place. -/
@[simp]
theorem find?_unlocated : f.unlocated.find? name = (f.find? name).map Symbol.unlocated := by
  rw [find?, find?, unlocated]
  induction f.entries with
  | nil => rfl
  | cons entry rest ih =>
    rw [List.map_cons, List.lookup_cons, List.lookup_cons, ih]
    cases name == entry.1 <;> rfl

@[simp]
theorem contains_unlocated : f.unlocated.contains name = f.contains name := by
  simp [contains]

@[simp]
theorem names_unlocated : f.unlocated.names = f.names := by
  simp [names, unlocated, Function.comp_def]

@[simp]
theorem usedFlags_unlocated : f.unlocated.usedFlags = f.usedFlags := by
  simp [usedFlags, unlocated, Function.comp_def, Symbol.unlocated]

/-- A symbol is changed in its place. -/
theorem unlocated_modify {g g' : Symbol → Symbol} (hg : ∀ sym, (g sym).unlocated = g' sym.unlocated) :
    (f.modify name g).unlocated = f.unlocated.modify name g' := by
  rw [modify, modify, unlocated, unlocated, mk.injEq]
  induction f.entries with
  | nil => rfl
  | cons entry rest ih =>
    rw [List.map_cons, modifyEntries, modifyEntries]
    split
    · rw [List.map_cons, hg]
    · rw [List.map_cons, ih]

/-- A name is bound in its place. -/
theorem unlocated_insert (sym : Symbol) : (f.insert name sym).unlocated = f.unlocated.insert name sym.unlocated := by
  rw [insert, insert, contains_unlocated]
  split
  · exact f.unlocated_modify fun _ => rfl
  · simp [unlocated]

end Frame

namespace Scope

variable {name : Text} {s t : Scope}

/-- The innermost symbol is found in its place. -/
@[simp]
theorem find?_unlocated (s : Scope) : s.unlocated.find? name = (s.find? name).map Symbol.unlocated := by
  have hframes : ∀ fs : List Frame, findIn name (fs.map Frame.unlocated) = (findIn name fs).map Symbol.unlocated := by
    intro fs
    induction fs with
    | nil => rfl
    | cons f rest ih =>
      rw [List.map_cons, findIn, findIn, Frame.find?_unlocated, ih]
      cases f.find? name <;> rfl
  simpa [find?, unlocated] using hframes (s.inner ++ [s.root])

/-- The innermost symbol is changed in its place. -/
theorem unlocated_modify (s : Scope) {g g' : Symbol → Symbol} (hg : ∀ sym, (g sym).unlocated = g' sym.unlocated) :
    (s.modify name g).unlocated = s.unlocated.modify name g' := by
  have howner : ∀ fs : List Frame, modifyOwner name (fun f => f.modify name g') (fs.map Frame.unlocated) =
      ((modifyOwner name (fun f => f.modify name g) fs).1.map Frame.unlocated,
        (modifyOwner name (fun f => f.modify name g) fs).2) := by
    intro fs
    induction fs with
    | nil => rfl
    | cons f rest ih =>
      rw [List.map_cons, modifyOwner, modifyOwner, Frame.contains_unlocated, ih]
      split
      · rw [List.map_cons, Frame.unlocated_modify f hg]
      · rfl
  rw [modify, modify, modifyFrameOf, modifyFrameOf]
  simp only [unlocated, howner, Frame.contains_unlocated]
  split
  · rfl
  · split
    · rw [Frame.unlocated_modify s.root hg]
    · rfl

/-- Scopes that differ in places alone go on doing so when a symbol is changed alike in both. -/
theorem modify_congr (h : s.unlocated = t.unlocated) {g g' : Symbol → Symbol}
    (hg : ∀ sym sym', sym.unlocated = sym'.unlocated → (g sym).unlocated = (g' sym').unlocated) :
    (s.modify name g).unlocated = (t.modify name g').unlocated := by
  have hfirst : ∀ sym, (g sym).unlocated = (g' sym.unlocated).unlocated := fun sym => hg sym sym.unlocated rfl
  have hsecond : ∀ sym, (g' sym).unlocated = (g' sym.unlocated).unlocated :=
    fun sym => (hg sym sym rfl).symm.trans (hfirst sym)
  have hs : (s.modify name g).unlocated = s.unlocated.modify name fun sym => (g' sym).unlocated :=
    unlocated_modify s hfirst
  have ht : (t.modify name g').unlocated = t.unlocated.modify name fun sym => (g' sym).unlocated :=
    unlocated_modify t hsecond
  rw [hs, ht, h]

/-- A name is bound in the innermost frame in its place. -/
theorem unlocated_modifyTop_insert (s : Scope) (sym : Symbol) :
    (s.modifyTop fun f => f.insert name sym).unlocated =
      s.unlocated.modifyTop fun f => f.insert name sym.unlocated := by
  obtain ⟨root, inner⟩ := s
  cases inner with
  | nil => simp [modifyTop, unlocated, Frame.unlocated_insert]
  | cons f rest => simp [modifyTop, unlocated, Frame.unlocated_insert]

@[simp]
theorem radix_unlocated (s : Scope) : s.unlocated.radix = s.radix := by
  rw [radix_eq, radix_eq, binding, binding, find?_unlocated]
  cases s.find? radixName <;> rfl

@[simp]
theorem resolveFuel_unlocated (s : Scope) : Eval.resolveFuel s.unlocated = Eval.resolveFuel s := by
  simp [Eval.resolveFuel, unlocated, Frame.unlocated, List.length_flatMap, Function.comp_def]

/-- Scopes that differ in places alone bind the same names, frame by frame and in the same order. -/
theorem names_eq_of_unlocated_eq (h : s.unlocated = t.unlocated) :
    s.inner.map Frame.names = t.inner.map Frame.names ∧ s.root.names = t.root.names := by
  obtain ⟨hroot, hinner⟩ := mk.inj h
  have hnames := congrArg (List.map Frame.names) hinner
  have hnamesRoot := congrArg Frame.names hroot
  simp only [List.map_map, Function.comp_def, Frame.names_unlocated] at hnames hnamesRoot
  exact ⟨hnames, hnamesRoot⟩

/-- Scopes that differ in places alone have the same names used, frame by frame and in the same order. -/
theorem used_eq_of_unlocated_eq (h : s.unlocated = t.unlocated) :
    s.inner.map Frame.usedFlags = t.inner.map Frame.usedFlags ∧ s.root.usedFlags = t.root.usedFlags := by
  obtain ⟨hroot, hinner⟩ := mk.inj h
  have hused := congrArg (List.map Frame.usedFlags) hinner
  have husedRoot := congrArg Frame.usedFlags hroot
  simp only [List.map_map, Function.comp_def, Frame.usedFlags_unlocated] at hused husedRoot
  exact ⟨hused, husedRoot⟩

end Scope

/-- States that differ in places alone, with scopes put in that differ in places alone. -/
theorem State.unlocated_congr {s t : State} (h : s.unlocated = t.unlocated) {x y : Scope}
    (hxy : x.unlocated = y.unlocated) :
    State.unlocated { s with scope := x } = State.unlocated { t with scope := y } := by
  obtain ⟨-, hdeferred, hsupply, hbank⟩ := mk.inj h
  exact mk.injEq .. ▸ ⟨hxy, hdeferred, hsupply, hbank⟩

end MacroAsm
