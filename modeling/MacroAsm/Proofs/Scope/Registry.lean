import Mathlib.Data.List.Dedup
import Mathlib.Logic.Function.Basic
import MacroAsm.Proofs.Scope.Sharing

/-!
# Frames with their symbols in cells

A frame can be kept in two parts: a list of names in the order in which they were declared, and a table that leads
from a name to the cell of its symbol (`Roster`). A store has the cells and the frames of any number of scopes
(`Store`). The two parts of a frame say the same (`Roster.InStep`) and no cell belongs to two names
(`Store.Sound`) as long as frames are changed in four ways only: a name that is not bound is bound to a cell that no
name has, a name is unbound, a symbol is changed in its cell, and a new cell is made. Each of these does to one frame
what the operation of `Frame` does, and leaves every other frame alone (`Store.Becomes`).
-/

namespace MacroAsm

/-- A frame that keeps the order of its names apart from what the names are bound to. -/
structure Roster where
  /-- The bound names, in the order of their declaration. -/
  names : List Text
  /-- The cells of the symbols, by name. -/
  table : Text → Option Nat
  /-- Every declaration of a name in the frame, also of names that were removed since, oldest first. -/
  history : List Text

namespace Roster

/-- The frame without names. -/
def empty : Roster := ⟨[], fun _ => none, []⟩

/-- Binds a name to a cell. A name that is not bound is declared: it comes after every other. -/
def put (r : Roster) (name : Text) (cell : Nat) : Roster :=
  let table := Function.update r.table name (some cell)
  if (r.table name).isSome then { r with table }
  else ⟨r.names ++ [name], table, r.history ++ [name]⟩

/-- Unbinds a name. -/
def delete (r : Roster) (name : Text) : Roster :=
  if (r.table name).isSome then
    { r with names := r.names.erase name, table := Function.update r.table name none }
  else r

/-- The bindings of a frame, given what is in the cells. -/
def frame (r : Roster) (cells : Nat → Symbol) : Frame :=
  ⟨r.names.map fun name => (name, cells ((r.table name).getD 0))⟩

/-- The list of names and the table say the same: the names that are bound stand in the list, each once, in the
order of their last declaration. -/
structure InStep (r : Roster) : Prop where
  /-- No name stands twice. -/
  nodup : r.names.Nodup
  /-- The names of the list are those that have a symbol. -/
  mem_iff : ∀ name, name ∈ r.names ↔ (r.table name).isSome = true
  /-- Names stand in the order in which they were last declared. -/
  order : r.names = r.history.dedup.filter fun name => (r.table name).isSome

/-- What a list is after one more element, each element counting from its last place. -/
theorem dedup_concat {α : Type} [DecidableEq α] (xs : List α) (x : α) :
    (xs ++ [x]).dedup = xs.dedup.filter (· != x) ++ [x] := by
  induction xs with
  | nil => rfl
  | cons y ys ih =>
    rw [List.cons_append]
    by_cases hy : y ∈ ys
    · rw [List.dedup_cons_of_mem (List.mem_append_left _ hy), List.dedup_cons_of_mem hy, ih]
    · by_cases hxy : y = x
      · subst hxy
        rw [List.dedup_cons_of_mem (by simp), List.dedup_cons_of_notMem hy, ih]
        simp
      · rw [List.dedup_cons_of_notMem (by simp [hy, hxy]), List.dedup_cons_of_notMem hy, ih]
        simp [hxy]

section Lists

variable {name : Text} {names : List Text}

/-- What is listed under a name. -/
theorem lookup_map (F : Text → Symbol) :
    (names.map fun n => (n, F n)).lookup name = if name ∈ names then some (F name) else none := by
  induction names with
  | nil => rfl
  | cons n rest ih =>
    by_cases hn : name = n
    · subst hn
      simp
    · have hne : (name == n) = false := beq_eq_false_iff_ne.2 hn
      simp [List.lookup_cons, hne, ih, hn]

/-- Changing what is listed under a name. -/
theorem modifyEntries_map (h : names.Nodup) (F : Text → Symbol) (g : Symbol → Symbol) :
    Frame.modifyEntries name g (names.map fun n => (n, F n)) =
      names.map fun n => (n, Function.update F name (g (F name)) n) := by
  induction names with
  | nil => rfl
  | cons n rest ih =>
    obtain ⟨hnot, hrest⟩ := List.nodup_cons.1 h
    rw [List.map_cons, Frame.modifyEntries, List.map_cons]
    by_cases hn : n = name
    · subst hn
      have hsame : ∀ m ∈ rest, (m, F m) = (m, Function.update F n (g (F n)) m) := by
        intro m hm
        rw [Function.update_of_ne (ne_of_mem_of_not_mem hm hnot)]
      rw [if_pos (beq_self_eq_true n), Function.update_self, List.map_congr_left hsame]
    · rw [if_neg (by simpa using hn), ih hrest, Function.update_of_ne hn]

end Lists

section Frames

variable {r : Roster} {cells : Nat → Symbol} {name : Text} {cell : Nat}

theorem inStep_empty : empty.InStep := ⟨List.nodup_nil, by simp [empty], by simp [empty]⟩

@[simp]
theorem names_frame (r : Roster) (cells : Nat → Symbol) : (r.frame cells).names = r.names := by
  simp [frame, Frame.names, Function.comp_def]

/-- The symbol of a name is in the cell of the name. -/
theorem InStep.find?_frame (h : r.InStep) (name : Text) :
    (r.frame cells).find? name = (r.table name).map cells := by
  rw [Frame.find?, frame, lookup_map]
  cases hcell : r.table name with
  | some a => simp [h.mem_iff, hcell]
  | none => simp [h.mem_iff, hcell]

/-- The bindings depend on the cells of the names alone. -/
theorem InStep.frame_congr (h : r.InStep) {cells' : Nat → Symbol}
    (hcells : ∀ name a, r.table name = some a → cells a = cells' a) : r.frame cells = r.frame cells' := by
  rw [frame, frame, Frame.mk.injEq]
  refine List.map_congr_left fun name hname => ?_
  obtain ⟨a, ha⟩ := Option.isSome_iff_exists.1 ((h.mem_iff name).1 hname)
  rw [ha, Option.getD_some, hcells name a ha]

/-- A name that is not bound is declared. -/
theorem InStep.put (h : r.InStep) (hname : r.table name = none) (cell : Nat) : (r.put name cell).InStep := by
  have hnot : name ∉ r.names := by simp [h.mem_iff, hname]
  have hput : r.put name cell =
      ⟨r.names ++ [name], Function.update r.table name (some cell), r.history ++ [name]⟩ := by
    simp [Roster.put, hname]
  rw [hput]
  refine ⟨?_, fun other => ?_, ?_⟩
  · exact List.nodup_append_comm.1 (List.nodup_cons.2 ⟨hnot, h.nodup⟩)
  · by_cases hother : other = name
    · simp [hother]
    · simp [hother, h.mem_iff]
  · -- the other names stand where they stood, whether or not the name was declared before
    have hothers : (r.history.dedup.filter (· != name)).filter
        (fun n => (Function.update r.table name (some cell) n).isSome) = r.names := by
      rw [List.filter_filter, h.order]
      refine List.filter_congr fun n _ => ?_
      by_cases hn : n = name
      · simp [hn, hname]
      · simp [hn]
    dsimp only
    rw [dedup_concat, List.filter_append, hothers]
    simp

/-- A name is unbound. -/
theorem InStep.delete (h : r.InStep) (name : Text) : (r.delete name).InStep := by
  rw [Roster.delete]
  split
  · have herase : r.names.erase name = r.names.filter (· != name) := h.nodup.erase_eq_filter name
    refine ⟨h.nodup.erase name, fun other => ?_, ?_⟩
    · rw [h.nodup.mem_erase_iff, h.mem_iff]
      by_cases hother : other = name
      · simp [hother]
      · simp [hother]
    · dsimp only
      rw [herase]
      conv_lhs => rw [h.order, List.filter_filter]
      refine List.filter_congr fun n _ => ?_
      by_cases hn : n = name
      · simp [hn]
      · simp [hn]
  · exact h

/-- Binding a name that is not bound enters its symbol. -/
theorem InStep.frame_put (h : r.InStep) (hname : r.table name = none) (cell : Nat) :
    (r.put name cell).frame cells = (r.frame cells).insert name (cells cell) := by
  have hnot : name ∉ r.names := by simp [h.mem_iff, hname]
  have habsent : (r.frame cells).contains name = false := by
    rw [Frame.contains, h.find?_frame, hname]
    rfl
  have hkept : ∀ n ∈ r.names, (n, cells ((Function.update r.table name (some cell) n).getD 0)) =
      (n, cells ((r.table n).getD 0)) := by
    intro n hn
    rw [Function.update_of_ne (ne_of_mem_of_not_mem hn hnot)]
  rw [Frame.insert, if_neg (by simp [habsent])]
  simp [Roster.put, hname, frame, List.map_congr_left hkept]

/-- Unbinding a name erases it. -/
theorem InStep.frame_delete (h : r.InStep) (name : Text) :
    (r.delete name).frame cells = (r.frame cells).erase name := by
  have hlist : (r.frame cells).erase name =
      ⟨(r.names.erase name).map fun n => (n, cells ((r.table n).getD 0))⟩ := by
    rw [Frame.erase, frame, List.eraseP_map, List.erase_eq_eraseP']
    rfl
  rw [hlist, Roster.delete]
  split
  · rw [frame, Frame.mk.injEq]
    refine List.map_congr_left fun n hn => ?_
    dsimp only
    rw [Function.update_of_ne (h.nodup.mem_erase_iff.1 hn).1]
  · rename_i hnone
    rw [List.erase_of_not_mem (fun hmem => hnone ((h.mem_iff name).1 hmem)), frame]

/-- Changing the symbol in the cell of a name, where no other name has the cell. -/
theorem InStep.frame_update (h : r.InStep) (hname : r.table name = some cell)
    (howner : ∀ other, r.table other = some cell → other = name) (g : Symbol → Symbol) :
    r.frame (Function.update cells cell (g (cells cell))) = (r.frame cells).modify name g := by
  rw [Frame.modify, frame, frame, modifyEntries_map h.nodup, Frame.mk.injEq]
  refine List.map_congr_left fun n hn => ?_
  obtain ⟨a, ha⟩ := Option.isSome_iff_exists.1 ((h.mem_iff n).1 hn)
  by_cases hsame : n = name
  · subst hsame
    rw [Function.update_self, hname, Option.getD_some, Function.update_self]
  · have hother : a ≠ cell := fun heq => hsame (howner n (heq ▸ ha))
    rw [Function.update_of_ne hsame, ha, Option.getD_some, Function.update_of_ne hother]

end Frames

end Roster

/-- The frames of any number of scopes, and the cells that hold their symbols. -/
structure Store where
  /-- The symbols, by cell. -/
  cells : Nat → Symbol
  /-- The number of cells that were made. -/
  size : Nat
  /-- The frames, by position. -/
  rosters : Nat → Roster
  /-- The number of frames that were made. -/
  count : Nat

namespace Store

/-- The store without frames. -/
def empty : Store := ⟨fun _ => {}, 0, fun _ => Roster.empty, 0⟩

/-- The cell of a name of a frame. -/
def get (st : Store) (i : Nat) (name : Text) : Option Nat := (st.rosters i).table name

/-- The bindings of a frame. -/
def frame (st : Store) (i : Nat) : Frame := (st.rosters i).frame st.cells

/-- Makes a cell, which is the one at the former size. -/
def alloc (st : Store) (sym : Symbol) : Store :=
  { st with cells := Function.update st.cells st.size sym, size := st.size + 1 }

/-- Binds a name of a frame to a cell. -/
def put (st : Store) (i : Nat) (name : Text) (cell : Nat) : Store :=
  { st with rosters := Function.update st.rosters i ((st.rosters i).put name cell) }

/-- Binds a name of a frame to a new cell. -/
def enter (st : Store) (i : Nat) (name : Text) (sym : Symbol) : Store := (st.alloc sym).put i name st.size

/-- Unbinds a name of a frame. -/
def delete (st : Store) (i : Nat) (name : Text) : Store :=
  { st with rosters := Function.update st.rosters i ((st.rosters i).delete name) }

/-- Changes the symbol in a cell. -/
def write (st : Store) (cell : Nat) (sym : Symbol) : Store :=
  { st with cells := Function.update st.cells cell sym }

/-- A store whose frames are in step, and in which every cell belongs to one name of one frame at most. -/
structure Sound (st : Store) : Prop where
  /-- In every frame the list of names and the table say the same. -/
  inStep : ∀ i, (st.rosters i).InStep
  /-- No cell belongs to two frames, or to two names of one. -/
  owner : ∀ {i j name other cell}, st.get i name = some cell → st.get j other = some cell → j = i ∧ other = name
  /-- The cells of names were made. -/
  bound : ∀ {i name cell}, st.get i name = some cell → cell < st.size
  /-- Frames that were not made are empty. -/
  fresh : ∀ {i}, st.count ≤ i → st.rosters i = Roster.empty

/-- A store in which the frame at one position has become what is given, and the others are what they were. -/
structure Becomes (st st' : Store) (i : Nat) (f : Frame) : Prop where
  /-- The store is sound. -/
  sound : st'.Sound
  /-- There are as many frames. -/
  count : st'.count = st.count
  /-- The frame at the position. -/
  frame : st'.frame i = f
  /-- The other frames. -/
  other : ∀ {j}, j ≠ i → st'.frame j = st.frame j
  /-- The names of the other frames, and their cells. -/
  rosters : ∀ {j}, j ≠ i → st'.rosters j = st.rosters j

section Primitives

variable {st st' st'' : Store} {i j : Nat} {name other : Text} {cell : Nat} {sym : Symbol} {f f' : Frame}

/-- A frame that becomes one thing and then another. -/
theorem Becomes.trans (h : st.Becomes st' i f) (h' : st'.Becomes st'' i f') : st.Becomes st'' i f' where
  sound := h'.sound
  count := h'.count.trans h.count
  frame := h'.frame
  other hj := (h'.other hj).trans (h.other hj)
  rosters hj := (h'.rosters hj).trans (h.rosters hj)

/-- The store without frames is sound. -/
theorem sound_empty : empty.Sound where
  inStep _ := Roster.inStep_empty
  owner h := by cases h
  bound h := by cases h
  fresh _ := rfl

/-- What is bound in a frame after a name of a frame was bound. -/
theorem get_put (st : Store) (i : Nat) (name : Text) (cell j : Nat) (other : Text) :
    (st.put i name cell).get j other = if j = i ∧ other = name then some cell else st.get j other := by
  have htable : ((st.rosters i).put name cell).table = Function.update (st.rosters i).table name (some cell) := by
    rw [Roster.put]
    split <;> rfl
  by_cases hj : j = i
  · subst hj
    by_cases hother : other = name <;> simp [get, put, htable, hother]
  · simp [get, put, hj]

/-- What is bound in a frame after a name of a frame was unbound. -/
theorem get_delete (st : Store) (i : Nat) (name : Text) (j : Nat) (other : Text) :
    (st.delete i name).get j other = if j = i ∧ other = name then none else st.get j other := by
  have htable : ((st.rosters i).delete name).table = Function.update (st.rosters i).table name none := by
    rw [Roster.delete]
    split
    · rfl
    · rename_i hnone
      rw [Option.not_isSome_iff_eq_none] at hnone
      rw [← hnone, Function.update_eq_self]
  by_cases hj : j = i
  · subst hj
    by_cases hother : other = name <;> simp [get, delete, htable, hother]
  · simp [get, delete, hj]

namespace Sound

theorem find?_frame (h : st.Sound) (i : Nat) (name : Text) :
    (st.frame i).find? name = (st.get i name).map st.cells :=
  (h.inStep i).find?_frame name

theorem contains_frame (h : st.Sound) (i : Nat) (name : Text) :
    (st.frame i).contains name = (st.get i name).isSome := by
  rw [Frame.contains, h.find?_frame, Option.isSome_map]

theorem frame_of_le (h : st.Sound) (hi : st.count ≤ i) : st.frame i = Frame.empty := by
  rw [frame, h.fresh hi]
  rfl

/-- A new cell belongs to no name. -/
theorem alloc (h : st.Sound) (sym : Symbol) : (st.alloc sym).Sound where
  inStep := h.inStep
  owner := h.owner
  bound hcell := (h.bound hcell).trans (Nat.lt_succ_self _)
  fresh := h.fresh

theorem frame_alloc (h : st.Sound) (sym : Symbol) (i : Nat) : (st.alloc sym).frame i = st.frame i := by
  refine (h.inStep i).frame_congr fun name a ha => ?_
  exact Function.update_of_ne (h.bound ha).ne sym st.cells

/-- A name that is not bound is bound to a cell that belongs to no name. -/
theorem put (h : st.Sound) (hi : i < st.count) (hname : st.get i name = none) (hcell : cell < st.size)
    (hfree : ∀ j other, st.get j other ≠ some cell) :
    st.Becomes (st.put i name cell) i ((st.frame i).insert name (st.cells cell)) where
  sound :=
    { inStep j := by
        by_cases hj : j = i
        · subst hj
          simpa [Store.put] using (h.inStep j).put hname cell
        · simpa [Store.put, hj] using h.inStep j
      owner hfirst hsecond := by
        rw [get_put] at hfirst hsecond
        split at hfirst
        · rename_i hi'
          split at hsecond
          · rename_i hj
            exact ⟨hj.1.trans hi'.1.symm, hj.2.trans hi'.2.symm⟩
          · cases hfirst
            exact absurd hsecond (hfree _ _)
        · split at hsecond
          · cases hsecond
            exact absurd hfirst (hfree _ _)
          · exact h.owner hfirst hsecond
      bound hget := by
        rw [get_put] at hget
        split at hget
        · cases hget
          exact hcell
        · exact h.bound hget
      fresh hj := (Function.update_of_ne (hi.trans_le hj).ne' ..).trans (h.fresh hj) }
  count := rfl
  frame := by simpa [Store.put, Store.frame] using (h.inStep i).frame_put hname cell
  other hj := by simp [Store.put, Store.frame, hj]
  rosters hj := by simp [Store.put, hj]

/-- A name that is not bound is bound to a new cell. -/
theorem enter (h : st.Sound) (hi : i < st.count) (hname : st.get i name = none) (sym : Symbol) :
    st.Becomes (st.enter i name sym) i ((st.frame i).insert name sym) := by
  have hfree : ∀ j other, (st.alloc sym).get j other ≠ some st.size :=
    fun j other hget => absurd (h.bound hget) (lt_irrefl _)
  have habsent : (st.alloc sym).get i name = none := hname
  have hput := (h.alloc sym).put hi habsent (Nat.lt_succ_self st.size) hfree
  have hsym : (st.alloc sym).cells st.size = sym := Function.update_self ..
  rw [hsym, h.frame_alloc] at hput
  exact ⟨hput.sound, hput.count, hput.frame, fun hj => (hput.other hj).trans (h.frame_alloc sym _), hput.rosters⟩

/-- A name is unbound. -/
theorem delete (h : st.Sound) (i : Nat) (name : Text) :
    st.Becomes (st.delete i name) i ((st.frame i).erase name) where
  sound :=
    { inStep j := by
        by_cases hj : j = i
        · subst hj
          simpa [Store.delete] using (h.inStep j).delete name
        · simpa [Store.delete, hj] using h.inStep j
      owner hfirst hsecond := by
        rw [get_delete] at hfirst hsecond
        split at hfirst
        · cases hfirst
        · split at hsecond
          · cases hsecond
          · exact h.owner hfirst hsecond
      bound hget := by
        rw [get_delete] at hget
        split at hget
        · cases hget
        · exact h.bound hget
      fresh {j} hj := by
        by_cases hi : j = i
        · subst hi
          simp [Store.delete, h.fresh hj, Roster.delete, Roster.empty]
        · simpa [Store.delete, hi] using h.fresh hj }
  count := rfl
  frame := by simpa [Store.delete, Store.frame] using (h.inStep i).frame_delete name
  other hj := by simp [Store.delete, Store.frame, hj]
  rosters hj := by simp [Store.delete, hj]

/-- A symbol is changed in the cell of its name. -/
theorem write (h : st.Sound) (hname : st.get i name = some cell) (g : Symbol → Symbol) :
    st.Becomes (st.write cell (g (st.cells cell))) i ((st.frame i).modify name g) where
  sound := ⟨h.inStep, h.owner, h.bound, h.fresh⟩
  count := rfl
  frame := (h.inStep i).frame_update hname (fun _ hother => (h.owner hname hother).2) g
  other hj := by
    refine ((h.inStep _).frame_congr fun other a ha => ?_).symm
    refine (Function.update_of_ne (fun heq => hj ?_) ..).symm
    exact (h.owner hname (heq ▸ ha)).1
  rosters _ := rfl

end Sound

end Primitives

end Store

end MacroAsm
