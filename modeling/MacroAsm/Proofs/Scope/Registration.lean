import MacroAsm.Proofs.Scope.Registry

/-!
# Scopes over frames with their symbols in cells

The operations on scopes, as they are done to the frames of a store: symbols are changed where they stand, a name that
is promoted or hoisted takes its cell along, and a copy has a cell of its own for every symbol. Each of them keeps the
store sound and does to the frames of a scope what the operation does to a scope that holds its symbols itself
(`Store.Sound.apply`). So, whatever is done with any number of scopes that share frames, the two parts of every frame
stay in step, no symbol is owned twice, and the bindings of a scope come in the order of declaration.

Main statement: `Store.Runs.frames_in_step`.
-/

namespace MacroAsm

/-- The position of the innermost frame of a chain. -/
def Chain.top (c : Chain) : Nat := c.inner.headD c.root

/-- The positions of the frames of a chain, innermost first. -/
def Chain.outwards (c : Chain) : List Nat := c.inner ++ [c.root]

/-- Changing the symbol of a name to what it is changes nothing. -/
theorem Frame.modify_of_eq {f : Frame} {name : Text} {g : Symbol → Symbol}
    (h : ∀ sym, f.find? name = some sym → g sym = sym) : f.modify name g = f := by
  have hentries : ∀ es : List (Text × Symbol), (∀ sym, es.lookup name = some sym → g sym = sym) →
      modifyEntries name g es = es := by
    intro es hes
    induction es with
    | nil => rfl
    | cons e rest ih =>
      rw [modifyEntries]
      by_cases hn : e.1 = name
      · subst hn
        rw [if_pos (beq_self_eq_true e.1), hes e.2 (by rw [List.lookup_cons, beq_self_eq_true])]
      · have hne : (name == e.1) = false := beq_eq_false_iff_ne.2 (Ne.symm hn)
        rw [if_neg (by simpa using hn), ih fun sym hsym => hes sym (by rwa [List.lookup_cons, hne])]
  rw [modify, hentries f.entries h]

namespace Store

/-- The scope of a chain. -/
def view (st : Store) (c : Chain) : Scope := ⟨st.frame c.root, c.inner.map st.frame⟩

/-- The first of some frames that binds a name. -/
def owner? (st : Store) (name : Text) (is : List Nat) : Option Nat := is.find? fun i => (st.get i name).isSome

/-- Changes the symbol of a name of a frame, if it is bound. -/
def update (st : Store) (i : Nat) (name : Text) (g : Symbol → Symbol) : Store :=
  match st.get i name with
  | some cell => st.write cell (g (st.cells cell))
  | none => st

/-- Gives a name of a frame a symbol, in the cell of the name if it is bound. -/
def assign (st : Store) (i : Nat) (name : Text) (sym : Symbol) : Store :=
  match st.get i name with
  | some cell => st.write cell sym
  | none => st.enter i name sym

/-- Adds an empty frame. -/
def push (st : Store) : Store := { st with count := st.count + 1 }

/-- Adds a frame that binds what is given, each name to a new cell. -/
def build (st : Store) (f : Frame) : Store :=
  f.entries.foldl (fun st' entry => st'.enter st.count entry.1 entry.2) st.push

/-- Declares a name in the innermost frame, where it stays what it is if it is bound there already. -/
def declareLocal (st : Store) (c : Chain) (name : Text) : Store :=
  if (((st.get c.root name).map st.cells).map Symbol.global).getD false then st
  else if (st.get c.top name).isSome then st
  else st.enter c.top name {}

/-- Makes a name of the root frame global. A name that is bound in an inner frame takes its cell along to the root
frame, if it is unset and was not declared there. -/
def declareGlobal (st : Store) (c : Chain) (name : Text) : Store :=
  match st.get c.root name with
  | some cell => if (st.cells cell).global then st else st.write cell (Scope.promote (st.cells cell))
  | none =>
    match st.owner? name c.inner with
    | some i =>
      match st.get i name with
      | some cell =>
        if (st.cells cell).isSet || (st.cells cell).declared then st
        else ((st.delete i name).write cell (Scope.promote (st.cells cell))).put c.root name cell
      | none => st
    | none => st.enter c.root name (Scope.promote {})

/-- Changes the innermost symbol of a name. -/
def modify (st : Store) (c : Chain) (name : Text) (g : Symbol → Symbol) : Store :=
  match st.owner? name c.outwards with
  | some i => st.update i name g
  | none => st

/-- Removes the innermost symbol of a name. -/
def remove (st : Store) (c : Chain) (name : Text) : Store :=
  match st.owner? name c.outwards with
  | some i => st.delete i name
  | none => st

/-- Moves a name with its cell from the innermost frame into the one below, never into the root frame. A name that is
bound there keeps its own cell. -/
def hoist (st : Store) (c : Chain) (name : Text) : Store :=
  match c.inner with
  | i :: below :: _ =>
    match st.get i name with
    | none => st
    | some cell =>
      match st.get below name with
      | some prev => (st.delete i name).write prev (Scope.absorb (st.cells prev) (st.cells cell))
      | none => (st.delete i name).put below name cell
  | _ => st

/-- Changes the radix in which numerals are read. -/
def setRadix (st : Store) (c : Chain) (radix : Int64) (loc : Location) : Store :=
  if radix < 2 || 36 < radix then st
  else st.modify c Scope.radixName fun sym => { sym with value := some (.literal loc radix), loc }

/-- Merges one name of a frame from the frames of the two arms. A name that is new here gets a new cell. -/
def mergeName (st : Store) (test : Expr) (onTrue onFalse : Frame) (i : Nat) (name : Text) : Store × Option Cause :=
  let hs := (st.get i name).map st.cells
  if (hs.map Symbol.reserved).getD false then (st, none)
  else
    let ts := onTrue.find? name
    let fs := onFalse.find? name
    match ts, fs, (ts.map Symbol.isSet).getD false, (fs.map Symbol.isSet).getD false with
    | some t, some f, true, true =>
      match Scope.mergeSet test name (hs.getD t) t f with
      | .ok merged => (st.assign i name merged, none)
      | .error c => (st.assign i name (hs.getD t), some c)
    | _, _, true, _ => (st, some (.unbalanced name true))
    | _, _, _, true => (st, some (.unbalanced name false))
    | _, _, _, _ =>
      if (hs.map Symbol.isSet).getD false then (st.delete i name, none)
      else if hs.isNone && ts.isNone && fs.isNone then (st, none)
      else (st.assign i name (Scope.carry (Scope.carry (hs.getD {}) ts) fs), none)

/-- Merges names of a frame one after the other. -/
def mergeNames (test : Expr) (onTrue onFalse : Frame) (i : Nat) : List Text → Store → Store × Option Cause
  | [], st => (st, none)
  | name :: rest, st =>
    match st.mergeName test onTrue onFalse i name with
    | (st, none) => mergeNames test onTrue onFalse i rest st
    | (st, some c) => (st, some c)

/-- Merges the inner frames, innermost first. -/
def mergeInner (test : Expr) : List Nat → List Frame → List Frame → Store → Store × Option Cause
  | i :: is, t :: ts, f :: fs, st =>
    let names := Scope.addNames (Scope.addNames (st.rosters i).names t.unsetNames) f.unsetNames
    match mergeNames test t f i names st with
    | (st, some c) => (st, some c)
    | (st, none) => mergeInner test is ts fs st
  | _, _, _, st => (st, none)

/-- Merges what two arms of a condition did back into the scope they were copied from. The arms are read as they are
before the merge: one of them may be the scope itself, but what merging changes of a frame is not read again. -/
def merge (st : Store) (c : Chain) (test : Expr) (onTrue onFalse : Scope) : Store × Option Cause :=
  let depth := c.inner.length + 1
  if onTrue.depth != depth || onFalse.depth != depth then
    (st, some (.depthMismatch onTrue.depth onFalse.depth depth))
  else
    match mergeInner test c.inner onTrue.inner onFalse.inner st with
    | (st, some cause) => (st, some cause)
    | (st, none) =>
      let names := Scope.addNames (Scope.addNames (st.rosters c.root).names onTrue.root.names) onFalse.root.names
      mergeNames test onTrue.root onFalse.root c.root names st

/-- What an operation makes of the frames of a chain. -/
def apply (st : Store) (c : Chain) : Operation → Store
  | .declareLocal name => st.declareLocal c name
  | .declareGlobal name => st.declareGlobal c name
  | .update name g => st.modify c name g
  | .updateTop name g => st.update c.top name g
  | .updateRoot name g => st.update c.root name g
  | .remove name => st.remove c name
  | .hoist name => st.hoist c name
  | .setRadix radix loc => st.setRadix c radix loc
  | .merge test onTrue onFalse => (st.merge c test (st.view onTrue) (st.view onFalse)).1

/-- Copies the frames of a chain. -/
def preserve (st : Store) (c : Chain) : Store := (c.positions.map st.frame).foldl build st

/-- The chain of a scope that is nested in one of a store, once its frame was added. -/
def nested (st : Store) (c : Chain) : Chain := ⟨c.root, st.count :: c.inner⟩

/-- The chain of a copy, once its frames were added. -/
def copied (st : Store) (c : Chain) : Chain := ⟨st.count, (List.range c.inner.length).map (st.count + 1 + ·)⟩

/-- The names of a frame whose symbols have a property, with the cells of these, as they are listed. -/
def listed (st : Store) (i : Nat) (p : Symbol → Bool) : List (Text × Nat) :=
  ((st.rosters i).names.map fun name => (name, (st.get i name).getD 0)).filter fun entry => p (st.cells entry.2)

/-- The names of the innermost frame of a scope and their cells, without internal state. -/
def bindings (st : Store) (c : Chain) : List (Text × Nat) := st.listed c.top fun sym => !sym.reserved

/-- The global names of a scope and their cells. -/
def globals (st : Store) (c : Chain) : List (Text × Nat) := st.listed c.root Symbol.global

/-- A store in which the scope of a chain has become what is given, and all other frames are what they were. -/
structure Rewrites (st st' : Store) (c : Chain) (s : Scope) : Prop where
  /-- The store is sound. -/
  sound : st'.Sound
  /-- There are as many frames. -/
  count : st'.count = st.count
  /-- The scope of the chain. -/
  view : st'.view c = s
  /-- The other frames. -/
  other : ∀ {i}, i ∉ c.positions → st'.frame i = st.frame i
  /-- The names of the other frames, and their cells. -/
  rosters : ∀ {i}, i ∉ c.positions → st'.rosters i = st.rosters i

/-- A scope that is rewritten twice. -/
theorem Rewrites.trans {st st' st'' : Store} {c : Chain} {s s' : Scope} (h : st.Rewrites st' c s)
    (h' : st'.Rewrites st'' c s') : st.Rewrites st'' c s' where
  sound := h'.sound
  count := h'.count.trans h.count
  view := h'.view
  other hi := (h'.other hi).trans (h.other hi)
  rosters hi := (h'.rosters hi).trans (h.rosters hi)

/-- A chain of different frames of a store. -/
structure Holds (st : Store) (c : Chain) : Prop where
  /-- No frame is there twice. -/
  nodup : c.positions.Nodup
  /-- The frames were made. -/
  bound : ∀ i ∈ c.positions, i < st.count

section Frames

variable {st st' : Store} {i : Nat} {name : Text} {sym : Symbol} {f : Frame}

namespace Sound

theorem becomes_self (h : st.Sound) (i : Nat) : st.Becomes st i (st.frame i) :=
  ⟨h, rfl, rfl, fun _ => rfl, fun _ => rfl⟩

/-- The symbol of a name is changed where it stands. -/
theorem update (h : st.Sound) (i : Nat) (name : Text) (g : Symbol → Symbol) :
    st.Becomes (st.update i name g) i ((st.frame i).modify name g) := by
  rw [Store.update]
  cases hname : st.get i name with
  | some cell => exact h.write hname g
  | none =>
    have hsame : (st.frame i).modify name g = st.frame i :=
      Frame.modify_of_eq fun sym hsym => by simp [h.find?_frame, hname] at hsym
    rw [hsame]
    exact h.becomes_self i

/-- A name is given a symbol, which is entered if the name is not bound. -/
theorem assign (h : st.Sound) (hi : i < st.count) (name : Text) (sym : Symbol) :
    st.Becomes (st.assign i name sym) i ((st.frame i).insert name sym) := by
  rw [Store.assign]
  cases hname : st.get i name with
  | some cell =>
    have hcontains : (st.frame i).contains name = true := by rw [h.contains_frame, hname]; rfl
    rw [Frame.insert, if_pos hcontains]
    exact h.write hname fun _ => sym
  | none => exact h.enter hi hname sym

end Sound

end Frames

section Chains

variable {st st' : Store} {c : Chain} {i : Nat} {name : Text} {g : Frame → Frame} {is : List Nat}

namespace Becomes

/-- All frames after one has changed. -/
theorem frame_eq (h : st.Becomes st' i (g (st.frame i))) :
    st'.frame = Function.update st.frame i (g (st.frame i)) := by
  funext j
  by_cases hj : j = i
  · rw [hj, Function.update_self, h.frame]
  · rw [Function.update_of_ne hj, h.other hj]

theorem map_eq {f : Frame} (h : st.Becomes st' i f) (his : i ∉ is) : is.map st'.frame = is.map st.frame :=
  List.map_congr_left fun _ hj => h.other (ne_of_mem_of_not_mem hj his)

/-- The root frame of a chain has changed. -/
theorem root {f : Frame} (hc : st.Holds c) (h : st.Becomes st' c.root f) :
    st.Rewrites st' c { st.view c with root := f } where
  sound := h.sound
  count := h.count
  view := by rw [view, h.frame, h.map_eq (List.nodup_cons.1 hc.nodup).1]; rfl
  other hi := h.other fun heq => hi (heq ▸ List.mem_cons_self)
  rosters hi := h.rosters fun heq => hi (heq ▸ List.mem_cons_self)

/-- The innermost frame of a chain has changed. -/
theorem top (hc : st.Holds c) (h : st.Becomes st' c.top (g (st.frame c.top))) :
    st.Rewrites st' c ((st.view c).modifyTop g) := by
  obtain ⟨root, inner⟩ := c
  cases inner with
  | nil => exact h.root hc
  | cons i rest =>
    replace h : st.Becomes st' i (g (st.frame i)) := h
    have hnodup : [root, i].Nodup ∧ i ∉ rest := by
      have hpositions : (root :: i :: rest).Nodup := hc.nodup
      simp only [List.nodup_cons, List.mem_cons, not_or] at hpositions ⊢
      simp [hpositions]
    refine ⟨h.sound, h.count, ?_, fun hj => h.other fun heq => hj (by simp [heq, Chain.positions]),
      fun hj => h.rosters fun heq => hj (by simp [heq, Chain.positions])⟩
    rw [view, List.map_cons, h.frame, h.map_eq hnodup.2, h.other (by simpa using hnodup.1)]
    rfl

end Becomes

theorem get_of_owner? (h : st.owner? name is = some i) : ∃ cell, st.get i name = some cell :=
  Option.isSome_iff_exists.1 (List.find?_some (p := fun i => (st.get i name).isSome) h)

namespace Sound

/-- The innermost symbol among some frames is that of the first one that binds the name. -/
theorem findIn_map (h : st.Sound) (name : Text) (is : List Nat) :
    Scope.findIn name (is.map st.frame) = (st.owner? name is).bind fun i => (st.get i name).map st.cells := by
  induction is with
  | nil => rfl
  | cons i is ih =>
    rw [List.map_cons, Scope.findIn, h.find?_frame, ih, owner?, owner?, List.find?_cons]
    cases hname : st.get i name with
    | some cell => simp [hname]
    | none => simp

/-- The first of some frames that binds a name is the one that is changed. -/
theorem modifyOwner_of_owner? (h : st.Sound) (his : is.Nodup) (howner : st.owner? name is = some i)
    (g : Frame → Frame) :
    Scope.modifyOwner name g (is.map st.frame) = (is.map (Function.update st.frame i (g (st.frame i))), true) := by
  induction is with
  | nil => cases howner
  | cons j is ih =>
    obtain ⟨hnot, his⟩ := List.nodup_cons.1 his
    rw [owner?, List.find?_cons] at howner
    rw [List.map_cons, Scope.modifyOwner, h.contains_frame, List.map_cons]
    cases hname : st.get j name with
    | some cell =>
      rw [hname] at howner
      obtain rfl : j = i := Option.some.inj howner
      have hrest : is.map (Function.update st.frame j (g (st.frame j))) = is.map st.frame :=
        List.map_congr_left fun k hk => Function.update_of_ne (ne_of_mem_of_not_mem hk hnot) ..
      simp [hrest]
    | none =>
      rw [hname] at howner
      have hi : i ∈ is := List.mem_of_find?_eq_some howner
      have hother : j ≠ i := fun heq => hnot (heq ▸ hi)
      simp [ih his howner, hother]

/-- If none of some frames binds a name, none is changed. -/
theorem modifyOwner_of_none (h : st.Sound) (howner : st.owner? name is = none) (g : Frame → Frame) :
    Scope.modifyOwner name g (is.map st.frame) = (is.map st.frame, false) := by
  induction is with
  | nil => rfl
  | cons j is ih =>
    rw [owner?, List.find?_cons] at howner
    cases hname : st.get j name with
    | some cell => simp [hname] at howner
    | none =>
      rw [hname] at howner
      rw [List.map_cons, Scope.modifyOwner, h.contains_frame, hname, ih howner]
      rfl

theorem rewrites_self (h : st.Sound) (c : Chain) : st.Rewrites st c (st.view c) :=
  ⟨h, rfl, rfl, fun _ => rfl, fun _ => rfl⟩

/-- The frame of a chain that owns a name has changed. -/
theorem rewrites_owner (h : st.Sound) (hc : st.Holds c) (howner : st.owner? name c.outwards = some i)
    (hbecomes : st.Becomes st' i (g (st.frame i))) :
    st.Rewrites st' c ((st.view c).modifyFrameOf name g) := by
  obtain ⟨hroot, hinner⟩ := List.nodup_cons.1 hc.nodup
  have hview : (st.view c).inner = c.inner.map st.frame := rfl
  rw [owner?, Chain.outwards, List.find?_append, ← owner?] at howner
  cases hfirst : st.owner? name c.inner with
  | some j =>
    obtain rfl : j = i := by simpa [hfirst] using howner
    have hj : j ∈ c.inner := List.mem_of_find?_eq_some hfirst
    have hmem : j ∈ c.positions := List.mem_cons_of_mem _ hj
    refine ⟨hbecomes.sound, hbecomes.count, ?_, fun hk => hbecomes.other (ne_of_mem_of_not_mem hmem hk).symm,
      fun hk => hbecomes.rosters (ne_of_mem_of_not_mem hmem hk).symm⟩
    · rw [Scope.modifyFrameOf, hview, h.modifyOwner_of_owner? hinner hfirst, ← hbecomes.frame_eq, view,
        hbecomes.other (ne_of_mem_of_not_mem hj hroot).symm]
      rfl
  | none =>
    have hlast : (st.get c.root name).isSome = true ∧ c.root = i := by
      simpa [hfirst, List.find?_singleton] using howner
    obtain ⟨hname, rfl⟩ := hlast
    have hmodify : (st.view c).modifyFrameOf name g = { st.view c with root := g (st.frame c.root) } := by
      rw [Scope.modifyFrameOf, hview, h.modifyOwner_of_none hfirst]
      simp [view, h.contains_frame, hname]
    rw [hmodify]
    exact hbecomes.root hc

/-- No frame of a chain binds a name. -/
theorem modifyFrameOf_of_none (h : st.Sound) (howner : st.owner? name c.outwards = none) (g : Frame → Frame) :
    (st.view c).modifyFrameOf name g = st.view c := by
  rw [owner?, Chain.outwards, List.find?_append, Option.or_eq_none_iff, ← owner?] at howner
  have hroot : (st.get c.root name).isSome = false := by simpa using howner.2
  rw [Scope.modifyFrameOf, view, h.modifyOwner_of_none howner.1]
  simp [h.contains_frame, hroot]

end Sound

end Chains

section Operations

variable {st : Store} {c : Chain} {name : Text}

namespace Sound

theorem top_view (st : Store) (c : Chain) : (st.view c).top = st.frame c.top := by
  obtain ⟨root, inner⟩ := c
  cases inner <;> rfl

theorem top_mem (c : Chain) : c.top ∈ c.positions := by
  obtain ⟨root, inner⟩ := c
  cases inner <;> simp [Chain.top, Chain.positions]

/-- A name is declared in the innermost frame. -/
theorem declareLocal (h : st.Sound) (hc : st.Holds c) (name : Text) :
    st.Rewrites (st.declareLocal c name) c (((st.view c).declareLocal name).toOption.getD (st.view c)) := by
  have hroot : (st.view c).root.find? name = (st.get c.root name).map st.cells := h.find?_frame c.root name
  rw [Store.declareLocal, Scope.declareLocal, hroot, top_view, h.contains_frame]
  split
  · exact h.rewrites_self c
  · split
    · exact h.rewrites_self c
    · rename_i hname
      rw [Option.not_isSome_iff_eq_none] at hname
      exact (h.enter (hc.bound _ (top_mem c)) hname {}).top hc (g := fun f => f.insert name {})

/-- The innermost symbol of a name is changed. -/
theorem modify (h : st.Sound) (hc : st.Holds c) (name : Text) (g : Symbol → Symbol) :
    st.Rewrites (st.modify c name g) c ((st.view c).modify name g) := by
  rw [Store.modify, Scope.modify]
  cases howner : st.owner? name c.outwards with
  | some i => exact h.rewrites_owner hc howner (h.update i name g)
  | none =>
    rw [h.modifyFrameOf_of_none howner]
    exact h.rewrites_self c

/-- The innermost symbol of a name is removed. -/
theorem remove (h : st.Sound) (hc : st.Holds c) (name : Text) :
    st.Rewrites (st.remove c name) c ((st.view c).remove name) := by
  rw [Store.remove, Scope.remove]
  cases howner : st.owner? name c.outwards with
  | some i => exact h.rewrites_owner hc howner (h.delete i name)
  | none =>
    rw [h.modifyFrameOf_of_none howner]
    exact h.rewrites_self c

/-- The radix is changed. -/
theorem setRadix (h : st.Sound) (hc : st.Holds c) (radix : Int64) (loc : Location) :
    st.Rewrites (st.setRadix c radix loc) c (((st.view c).setRadix radix loc).toOption.getD (st.view c)) := by
  rw [Store.setRadix, Scope.setRadix]
  split
  · exact h.rewrites_self c
  · exact h.modify hc _ _

/-- After a name was unbound its cell belongs to no name. -/
theorem free_delete (h : st.Sound) {i cell : Nat} (hname : st.get i name = some cell) (j : Nat) (other : Text) :
    (st.delete i name).get j other ≠ some cell := by
  intro hget
  rw [get_delete] at hget
  split at hget
  · cases hget
  · rename_i hne
    exact hne (h.owner hname hget)

/-- The symbol in a cell that belongs to no name is changed. -/
theorem write_free (h : st.Sound) {cell : Nat} (hfree : ∀ j other, st.get j other ≠ some cell) (sym : Symbol) :
    (st.write cell sym).Sound ∧ ∀ j, (st.write cell sym).frame j = st.frame j := by
  refine ⟨⟨h.inStep, h.owner, h.bound, h.fresh⟩, fun j => ?_⟩
  refine ((h.inStep j).frame_congr fun other a ha => ?_).symm
  have hne : a ≠ cell := fun heq => hfree j other (heq ▸ ha)
  exact (Function.update_of_ne hne ..).symm

/-- A name takes its cell along from one frame to another, which does not bind it. -/
theorem move (h : st.Sound) {i j cell : Nat} (hij : j ≠ i) (hj : j < st.count) (hname : st.get i name = some cell)
    (habsent : st.get j name = none) (g : Symbol → Symbol) :
    let st' := ((st.delete i name).write cell (g (st.cells cell))).put j name cell
    st'.Sound ∧ st'.count = st.count ∧ st'.frame i = (st.frame i).erase name ∧
      st'.frame j = (st.frame j).insert name (g (st.cells cell)) ∧
      ∀ k, k ≠ i → k ≠ j → st'.frame k = st.frame k ∧ st'.rosters k = st.rosters k := by
  have hdelete := h.delete i name
  have hfree := h.free_delete hname
  obtain ⟨hsound, hframe⟩ := hdelete.sound.write_free hfree (g (st.cells cell))
  have hstill : ((st.delete i name).write cell (g (st.cells cell))).get j name = none := by
    rw [← habsent]
    exact (get_delete st i name j name).trans (if_neg fun heq => hij heq.1)
  have hcell : cell < ((st.delete i name).write cell (g (st.cells cell))).size := h.bound hname
  have hput := hsound.put hj hstill hcell hfree
  have hsym : ((st.delete i name).write cell (g (st.cells cell))).cells cell = g (st.cells cell) :=
    Function.update_self ..
  rw [hsym, hframe, hdelete.other hij] at hput
  refine ⟨hput.sound, hput.count, ?_, hput.frame, fun k hi hj => ?_⟩
  · rw [hput.other hij.symm, hframe, hdelete.frame]
  · exact ⟨by rw [hput.other hj, hframe, hdelete.other hi], (hput.rosters hj).trans (hdelete.rosters hi)⟩

/-- A name has left the inner frame that owned it, and the root frame has changed. -/
theorem rewrites_promoted (h : st.Sound) (hc : st.Holds c) {st' : Store} {i : Nat} {f : Frame}
    (howner : st.owner? name c.inner = some i) (hsound : st'.Sound) (hcount : st'.count = st.count)
    (hleft : st'.frame i = (st.frame i).erase name) (hroot : st'.frame c.root = f)
    (hothers : ∀ k, k ≠ i → k ≠ c.root → st'.frame k = st.frame k ∧ st'.rosters k = st.rosters k) :
    st.Rewrites st' c ⟨f, (Scope.modifyOwner name (fun f => f.erase name) (st.view c).inner).1⟩ := by
  obtain ⟨hnot, hnodup⟩ := List.nodup_cons.1 hc.nodup
  have hi : i ∈ c.inner := List.mem_of_find?_eq_some howner
  have hview : (st.view c).inner = c.inner.map st.frame := rfl
  have hframes : c.inner.map st'.frame = c.inner.map (Function.update st.frame i ((st.frame i).erase name)) := by
    refine List.map_congr_left fun k hk => ?_
    by_cases hki : k = i
    · rw [hki, Function.update_self, hleft]
    · rw [Function.update_of_ne hki, (hothers k hki (ne_of_mem_of_not_mem hk hnot)).1]
  have hkept : ∀ {k}, k ∉ c.positions → st'.frame k = st.frame k ∧ st'.rosters k = st.rosters k := fun hk =>
    hothers _ (ne_of_mem_of_not_mem (List.mem_cons_of_mem _ hi) hk).symm
      (ne_of_mem_of_not_mem List.mem_cons_self hk).symm
  refine ⟨hsound, hcount, ?_, fun hk => (hkept hk).1, fun hk => (hkept hk).2⟩
  rw [view, hroot, hview, h.modifyOwner_of_owner? hnodup howner, hframes]

/-- A name is declared in the root frame. -/
theorem declareGlobal (h : st.Sound) (hc : st.Holds c) (name : Text) :
    st.Rewrites (st.declareGlobal c name) c (((st.view c).declareGlobal name).toOption.getD (st.view c)) := by
  have hbound : c.root < st.count := hc.bound _ List.mem_cons_self
  have hfind : (st.view c).root.find? name = (st.get c.root name).map st.cells := h.find?_frame c.root name
  have hfindIn : Scope.findIn name (st.view c).inner = _ := h.findIn_map name c.inner
  rw [Store.declareGlobal, Scope.declareGlobal, hfind]
  cases hname : st.get c.root name with
  | some cell =>
    dsimp only [Option.map_some]
    split
    · exact h.rewrites_self c
    · exact (h.write hname Scope.promote).root hc
  | none =>
    dsimp only [Option.map_none]
    rw [hfindIn]
    cases howner : st.owner? name c.inner with
    | none => exact (h.enter hbound hname (Scope.promote {})).root hc
    | some i =>
      obtain ⟨cell, hcell⟩ := get_of_owner? howner
      have hne : c.root ≠ i :=
        (ne_of_mem_of_not_mem (List.mem_of_find?_eq_some howner) (List.nodup_cons.1 hc.nodup).1).symm
      dsimp only [Option.bind_some]
      rw [hcell]
      dsimp only [Option.map_some]
      split
      · exact h.rewrites_self c
      · obtain ⟨hsound, hcount, hleft, hroot, hothers⟩ := h.move hne hbound hcell hname Scope.promote
        exact h.rewrites_promoted hc howner hsound hcount hleft hroot hothers

/-- The innermost two frames have changed. -/
theorem rewrites_upper {st' : Store} {root i below : Nat} {rest : List Nat} {f g : Frame}
    (hc : st.Holds ⟨root, i :: below :: rest⟩) (hsound : st'.Sound) (hcount : st'.count = st.count)
    (hfirst : st'.frame i = f) (hsecond : st'.frame below = g)
    (hothers : ∀ k, k ≠ i → k ≠ below → st'.frame k = st.frame k ∧ st'.rosters k = st.rosters k) :
    st.Rewrites st' ⟨root, i :: below :: rest⟩ ⟨st.frame root, f :: g :: rest.map st.frame⟩ := by
  have hpositions : (root :: i :: below :: rest).Nodup := hc.nodup
  simp only [List.nodup_cons, List.mem_cons, not_or] at hpositions
  obtain ⟨⟨hrooti, hrootbelow, -⟩, ⟨-, hi⟩, hbelow, -⟩ := hpositions
  have hlower : rest.map st'.frame = rest.map st.frame := List.map_congr_left fun k hk =>
    (hothers k (ne_of_mem_of_not_mem hk hi) (ne_of_mem_of_not_mem hk hbelow)).1
  have hkept : ∀ {k}, k ∉ Chain.positions ⟨root, i :: below :: rest⟩ →
      st'.frame k = st.frame k ∧ st'.rosters k = st.rosters k := fun hk =>
    hothers _ (fun heq => hk (by simp [heq, Chain.positions])) fun heq => hk (by simp [heq, Chain.positions])
  refine ⟨hsound, hcount, ?_, fun hk => (hkept hk).1, fun hk => (hkept hk).2⟩
  rw [view, List.map_cons, List.map_cons, hfirst, hsecond, hlower, (hothers root hrooti hrootbelow).1]

/-- A name is moved from the innermost frame to the one below. -/
theorem hoist (h : st.Sound) (hc : st.Holds c) (name : Text) :
    st.Rewrites (st.hoist c name) c ((st.view c).hoist name).1 := by
  obtain ⟨root, inner⟩ := c
  rcases inner with _ | ⟨i, _ | ⟨below, rest⟩⟩
  · exact h.rewrites_self _
  · exact h.rewrites_self _
  have hbelow : below ≠ i := by
    have hpositions : (root :: i :: below :: rest).Nodup := hc.nodup
    simp only [List.nodup_cons, List.mem_cons, not_or] at hpositions
    exact fun heq => hpositions.2.1.1 heq.symm
  have hview : st.view ⟨root, i :: below :: rest⟩ =
      ⟨st.frame root, st.frame i :: st.frame below :: rest.map st.frame⟩ := rfl
  rw [hview, Store.hoist, Scope.hoist]
  dsimp only
  rw [h.find?_frame, h.contains_frame]
  cases hname : st.get i name with
  | none => exact h.rewrites_self _
  | some cell =>
    dsimp only [Option.map_some]
    cases hprev : st.get below name with
    | some prev =>
      have hdelete := h.delete i name
      have hstill : (st.delete i name).get below name = some prev := by
        rw [← hprev]
        exact (get_delete st i name below name).trans (if_neg fun heq => hbelow heq.1)
      have hwrite := hdelete.sound.write hstill (Scope.absorb · (st.cells cell))
      rw [hdelete.other hbelow] at hwrite
      exact rewrites_upper hc hwrite.sound hwrite.count ((hwrite.other hbelow.symm).trans hdelete.frame) hwrite.frame
        fun k hki hkbelow => ⟨(hwrite.other hkbelow).trans (hdelete.other hki),
          (hwrite.rosters hkbelow).trans (hdelete.rosters hki)⟩
    | none =>
      have hsame : (st.delete i name).write cell (st.cells cell) = st.delete i name := by
        rw [Store.write]
        exact congrArg (fun cells => { st.delete i name with cells }) (Function.update_eq_self cell st.cells)
      have hmove := h.move hbelow (hc.bound below (by simp [Chain.positions])) hname hprev id
      simp only [id_eq, hsame] at hmove
      obtain ⟨hsound, hcount, hleft, hput, hothers⟩ := hmove
      exact rewrites_upper hc hsound hcount hleft hput hothers

end Sound

end Operations

section Merge

variable {st : Store} {c : Chain} {test : Expr} {onTrue onFalse : Frame} {i : Nat}

namespace Sound

/-- What merging does to a name that neither arm binds. -/
theorem mergeUnset (h : st.Sound) (hi : i < st.count) (name : Text) (ts fs : Option Symbol) :
    let hs := (st.get i name).map st.cells
    let r : Store × Option Cause :=
      if (hs.map Symbol.isSet).getD false then (st.delete i name, none)
      else if hs.isNone && ts.isNone && fs.isNone then (st, none)
      else (st.assign i name (Scope.carry (Scope.carry (hs.getD {}) ts) fs), none)
    let q : Frame × Option Cause :=
      if (hs.map Symbol.isSet).getD false then ((st.frame i).erase name, none)
      else if hs.isNone && ts.isNone && fs.isNone then (st.frame i, none)
      else ((st.frame i).insert name (Scope.carry (Scope.carry (hs.getD {}) ts) fs), none)
    st.Becomes r.1 i q.1 ∧ r.2 = q.2 := by
  dsimp only
  split
  · exact ⟨h.delete i name, rfl⟩
  · split
    · exact ⟨h.becomes_self i, rfl⟩
    · exact ⟨h.assign hi name _, rfl⟩

/-- A name of a frame is merged. -/
theorem mergeName (h : st.Sound) (hi : i < st.count) (test : Expr) (onTrue onFalse : Frame) (name : Text) :
    st.Becomes (st.mergeName test onTrue onFalse i name).1 i
        (Scope.mergeName test onTrue onFalse (st.frame i) name).1 ∧
      (st.mergeName test onTrue onFalse i name).2 = (Scope.mergeName test onTrue onFalse (st.frame i) name).2 := by
  rw [Store.mergeName, Scope.mergeName, h.find?_frame]
  have hunset := h.mergeUnset hi name
  by_cases hreserved : (((st.get i name).map st.cells).map Symbol.reserved).getD false = true
  · simp only [hreserved, if_true]
    exact ⟨h.becomes_self i, trivial⟩
  · simp only [hreserved]
    cases onTrue.find? name with
    | none =>
      cases onFalse.find? name with
      | none => exact hunset none none
      | some f =>
        cases hf : f.isSet with
        | true => simpa [hf] using h.becomes_self i
        | false => simpa [hf] using hunset none (some f)
    | some t =>
      cases onFalse.find? name with
      | none =>
        cases ht : t.isSet with
        | true => simpa [ht] using h.becomes_self i
        | false => simpa [ht] using hunset (some t) none
      | some f =>
        cases ht : t.isSet with
        | true =>
          cases hf : f.isSet with
          | true =>
            simp only [Option.map_some, Option.getD_some, ht, hf]
            cases Scope.mergeSet test name (((st.get i name).map st.cells).getD t) t f with
            | ok merged => exact ⟨h.assign hi name merged, rfl⟩
            | error c => exact ⟨h.assign hi name _, rfl⟩
          | false => simpa [ht, hf] using h.becomes_self i
        | false =>
          cases hf : f.isSet with
          | true => simpa [ht, hf] using h.becomes_self i
          | false => simpa [ht, hf] using hunset (some t) (some f)

/-- Names of a frame are merged. -/
theorem mergeNames (h : st.Sound) (hi : i < st.count) (test : Expr) (onTrue onFalse : Frame) (names : List Text) :
    st.Becomes (Store.mergeNames test onTrue onFalse i names st).1 i
        (Scope.mergeNames test onTrue onFalse names (st.frame i)).1 ∧
      (Store.mergeNames test onTrue onFalse i names st).2 =
        (Scope.mergeNames test onTrue onFalse names (st.frame i)).2 := by
  induction names generalizing st with
  | nil => exact ⟨h.becomes_self i, rfl⟩
  | cons name rest ih =>
    obtain ⟨hfirst, hcause⟩ := h.mergeName hi test onTrue onFalse name
    rw [Store.mergeNames, Scope.mergeNames]
    rcases hstore : st.mergeName test onTrue onFalse i name with ⟨st', c⟩
    rcases hframe : Scope.mergeName test onTrue onFalse (st.frame i) name with ⟨f, c'⟩
    rw [hstore, hframe] at hfirst hcause
    obtain rfl : c = c' := hcause
    cases c with
    | some c => exact ⟨hfirst, rfl⟩
    | none =>
      obtain ⟨hrest, hcause⟩ := ih hfirst.sound (hi.trans_eq hfirst.count.symm)
      rw [hfirst.frame] at hrest hcause
      exact ⟨hfirst.trans hrest, hcause⟩

/-- Inner frames are merged. -/
theorem mergeInner {is : List Nat} (h : st.Sound) (hnodup : is.Nodup) (hbound : ∀ i ∈ is, i < st.count)
    (test : Expr) (ts fs : List Frame) :
    let st' := (Store.mergeInner test is ts fs st).1
    st'.Sound ∧ st'.count = st.count ∧ is.map st'.frame = (Scope.mergeInner test (is.map st.frame) ts fs).1 ∧
      (∀ j, j ∉ is → st'.frame j = st.frame j ∧ st'.rosters j = st.rosters j) ∧
      (Store.mergeInner test is ts fs st).2 = (Scope.mergeInner test (is.map st.frame) ts fs).2 := by
  induction is generalizing st ts fs with
  | nil =>
    exact ⟨h, rfl, by simp [Scope.mergeInner], fun _ _ => ⟨rfl, rfl⟩, by simp [Store.mergeInner, Scope.mergeInner]⟩
  | cons i is ih =>
    cases ts with
    | nil => exact ⟨h, rfl, rfl, fun _ _ => ⟨rfl, rfl⟩, rfl⟩
    | cons t ts =>
      cases fs with
      | nil => exact ⟨h, rfl, rfl, fun _ _ => ⟨rfl, rfl⟩, rfl⟩
      | cons f fs =>
        obtain ⟨hnot, hnodup⟩ := List.nodup_cons.1 hnodup
        obtain ⟨hi, hbound⟩ := List.forall_mem_cons.1 hbound
        have hnames : (st.frame i).names = (st.rosters i).names := Roster.names_frame ..
        rw [List.map_cons, Store.mergeInner, Scope.mergeInner, hnames]
        have hmerge := h.mergeNames hi test t f
          (Scope.addNames (Scope.addNames (st.rosters i).names t.unsetNames) f.unsetNames)
        dsimp only
        rcases hstore : Store.mergeNames test t f i _ st with ⟨st', c⟩
        rcases hframe : Scope.mergeNames test t f _ (st.frame i) with ⟨g, c'⟩
        rw [hstore, hframe] at hmerge
        obtain ⟨hfirst, rfl⟩ := hmerge
        dsimp only at hfirst ⊢
        cases c with
        | some c =>
          have hother : ∀ j, j ∉ i :: is → st'.frame j = st.frame j ∧ st'.rosters j = st.rosters j := fun j hj =>
            have hne : j ≠ i := fun heq => hj (heq ▸ List.mem_cons_self)
            ⟨hfirst.other hne, hfirst.rosters hne⟩
          refine ⟨hfirst.sound, hfirst.count, ?_, hother, rfl⟩
          rw [List.map_cons, hfirst.frame, hfirst.map_eq hnot]
        | none =>
          have hrest := ih hfirst.sound hnodup (fun j hj => (hbound j hj).trans_eq hfirst.count.symm) ts fs
          rw [hfirst.map_eq hnot] at hrest
          obtain ⟨hsound, hcount, hmap, hothers, hcause⟩ := hrest
          refine ⟨hsound, hcount.trans hfirst.count, ?_, fun j hj => ?_, hcause⟩
          · rw [List.map_cons, (hothers i hnot).1, hfirst.frame, hmap]
          · rw [List.mem_cons, not_or] at hj
            exact ⟨(hothers j hj.2).1.trans (hfirst.other hj.1), (hothers j hj.2).2.trans (hfirst.rosters hj.1)⟩

/-- Two arms are merged into the scope they were copied from. -/
theorem merge (h : st.Sound) (hc : st.Holds c) (test : Expr) (onTrue onFalse : Scope) :
    st.Rewrites (st.merge c test onTrue onFalse).1 c ((st.view c).merge test onTrue onFalse).1 := by
  obtain ⟨hroot, hnodup⟩ := List.nodup_cons.1 hc.nodup
  obtain ⟨hbound, hinner⟩ := List.forall_mem_cons.1 hc.bound
  have hdepth : (st.view c).depth = c.inner.length + 1 := by simp [Scope.depth, view]
  rw [Store.merge, Scope.merge, hdepth]
  dsimp only
  split
  · exact h.rewrites_self c
  · have hmerge := h.mergeInner hnodup hinner test onTrue.inner onFalse.inner
    have hview : (st.view c).inner = c.inner.map st.frame := rfl
    rw [hview]
    rcases hstore : Store.mergeInner test c.inner onTrue.inner onFalse.inner st with ⟨st', cause⟩
    rcases hframes : Scope.mergeInner test (c.inner.map st.frame) onTrue.inner onFalse.inner with ⟨fs, cause'⟩
    rw [hstore, hframes] at hmerge
    obtain ⟨hsound, hcount, hmap, hothers, rfl⟩ := hmerge
    dsimp only at hsound hcount hmap hothers ⊢
    have hfirst : st.Rewrites st' c { st.view c with inner := fs } := by
      have hkept : ∀ {i}, i ∉ c.positions → st'.frame i = st.frame i ∧ st'.rosters i = st.rosters i :=
        fun hi => hothers _ fun hmem => hi (List.mem_cons_of_mem _ hmem)
      refine ⟨hsound, hcount, ?_, fun hi => (hkept hi).1, fun hi => (hkept hi).2⟩
      rw [view, (hothers c.root hroot).1, hmap]
      rfl
    cases cause with
    | some cause => exact hfirst
    | none =>
      have hnames : (st'.rosters c.root).names = (st.view c).root.names := by
        rw [← Roster.names_frame _ st'.cells, ← frame, (hothers c.root hroot).1]
        rfl
      have hrest := (hsound.mergeNames (hbound.trans_eq hcount.symm) test onTrue.root onFalse.root
        (Scope.addNames (Scope.addNames (st.view c).root.names onTrue.root.names) onFalse.root.names)).1
      rw [(hothers c.root hroot).1] at hrest
      have hlast := hrest.root ⟨hc.nodup, fun i hi => (hc.bound i hi).trans_eq hcount.symm⟩
      rw [hfirst.view] at hlast
      dsimp only
      rw [hnames]
      exact hfirst.trans hlast

/-- An operation does to the frames of a chain what it does to the scope. -/
theorem apply {w : Workspace} (h : st.Sound) (hc : st.Holds c) (hw : st.frame = w.frame) (op : Operation) :
    st.Rewrites (st.apply c op) c (op.apply w (w.view c)) := by
  have hview : ∀ d, w.view d = st.view d := fun d => by rw [Workspace.view, view, hw]
  rw [hview c]
  cases op with
  | declareLocal name => exact h.declareLocal hc name
  | declareGlobal name => exact h.declareGlobal hc name
  | update name g => exact h.modify hc name g
  | updateTop name g => exact (h.update c.top name g).top hc (g := fun f => f.modify name g)
  | updateRoot name g => exact (h.update c.root name g).root hc
  | remove name => exact h.remove hc name
  | hoist name => exact h.hoist hc name
  | setRadix radix loc => exact h.setRadix hc radix loc
  | merge test onTrue onFalse =>
    rw [Operation.apply, hview, hview]
    exact h.merge hc test _ _

end Sound

end Merge

section Build

variable {st : Store}

namespace Sound

theorem push (h : st.Sound) : st.push.Sound :=
  ⟨h.inStep, h.owner, h.bound, fun hi => h.fresh (Nat.le_of_succ_le hi)⟩

/-- Bindings are entered in a frame, one after the other. -/
theorem foldl_enter {i : Nat} (es : List (Text × Symbol)) (h : st.Sound) (hi : i < st.count)
    (hes : (es.map Prod.fst).Nodup) (habsent : ∀ e ∈ es, st.get i e.1 = none) :
    st.Becomes (es.foldl (fun st' e => st'.enter i e.1 e.2) st) i ⟨(st.frame i).entries ++ es⟩ := by
  induction es generalizing st with
  | nil => simpa using h.becomes_self i
  | cons e rest ih =>
    obtain ⟨hnot, hrest⟩ := List.nodup_cons.1 hes
    have hname := habsent e List.mem_cons_self
    have hfirst := h.enter hi hname e.2
    have hframe : (st.enter i e.1 e.2).frame i = ⟨(st.frame i).entries ++ [e]⟩ := by
      rw [hfirst.frame, Frame.insert, h.contains_frame, hname, if_neg (by simp)]
    have hstill : ∀ e' ∈ rest, (st.enter i e.1 e.2).get i e'.1 = none := by
      intro e' he'
      have hne : e'.1 ≠ e.1 := ne_of_mem_of_not_mem (List.mem_map_of_mem he') hnot
      rw [Store.enter, get_put, if_neg fun heq => hne heq.2]
      exact habsent e' (List.mem_cons_of_mem e he')
    have hmore := ih hfirst.sound (hi.trans_eq hfirst.count.symm) hrest hstill
    rw [hframe, List.append_assoc, List.singleton_append] at hmore
    exact hfirst.trans hmore

/-- A frame is added. -/
theorem build {f : Frame} (h : st.Sound) (hf : f.names.Nodup) :
    (st.build f).Sound ∧ (st.build f).count = st.count + 1 ∧ (st.build f).frame st.count = f ∧
      ∀ i, i ≠ st.count → (st.build f).frame i = st.frame i ∧ (st.build f).rosters i = st.rosters i := by
  have hnone : ∀ name, st.get st.count name = none := by
    intro name
    rw [get, h.fresh le_rfl]
    rfl
  have hbuild := h.push.foldl_enter f.entries (Nat.lt_succ_self st.count) hf fun e _ => hnone e.1
  have hempty : st.push.frame st.count = Frame.empty := h.frame_of_le le_rfl
  rw [hempty] at hbuild
  exact ⟨hbuild.sound, hbuild.count, hbuild.frame, fun i hi => ⟨hbuild.other hi, hbuild.rosters hi⟩⟩

/-- Frames are added. -/
theorem foldl_build (fs : List Frame) (h : st.Sound) (hfs : ∀ f ∈ fs, f.names.Nodup) :
    (fs.foldl Store.build st).Sound ∧ (fs.foldl Store.build st).count = st.count + fs.length ∧
      (∀ i, (fs.foldl Store.build st).frame (st.count + i) = fs.getD i Frame.empty) ∧
      ∀ i < st.count, (fs.foldl Store.build st).frame i = st.frame i ∧
        (fs.foldl Store.build st).rosters i = st.rosters i := by
  induction fs generalizing st with
  | nil => exact ⟨h, rfl, fun i => h.frame_of_le (Nat.le_add_right _ i), fun _ _ => ⟨rfl, rfl⟩⟩
  | cons f rest ih =>
    obtain ⟨hf, hrest⟩ := List.forall_mem_cons.1 hfs
    obtain ⟨hsound, hcount, hframe, hothers⟩ := h.build hf
    obtain ⟨hsound', hcount', hframes, hkept⟩ := ih hsound hrest
    rw [hcount] at hcount' hframes hkept
    refine ⟨hsound', ?_, fun i => ?_, fun i hi => ?_⟩
    · rw [List.foldl_cons, hcount', List.length_cons]
      omega
    · cases i with
      | zero => exact (hkept _ (Nat.lt_succ_self _)).1.trans hframe
      | succ i =>
        rw [List.foldl_cons, List.getD_cons_succ, ← hframes i, Nat.add_right_comm, Nat.add_assoc]
    · rw [List.foldl_cons, (hkept i (Nat.lt_succ_of_lt hi)).1, (hkept i (Nat.lt_succ_of_lt hi)).2]
      exact hothers i hi.ne

/-- The frames of a chain bind each name once. -/
theorem nodup_positions (h : st.Sound) (c : Chain) : ∀ f ∈ c.positions.map st.frame, f.names.Nodup := by
  intro f hf
  obtain ⟨i, -, rfl⟩ := List.mem_map.1 hf
  rw [Store.frame, Roster.names_frame]
  exact (h.inStep i).nodup

/-- The frames of a chain are copied, and all frames stay. -/
theorem preserve (h : st.Sound) (c : Chain) : st.count ≤ (st.preserve c).count ∧
    ∀ i < st.count, (st.preserve c).frame i = st.frame i ∧ (st.preserve c).rosters i = st.rosters i := by
  obtain ⟨-, hcount, -, hkept⟩ := h.foldl_build _ (h.nodup_positions c)
  exact ⟨(Nat.le_add_right _ _).trans_eq hcount.symm, hkept⟩

/-- What is listed of a frame: its bindings with the property, no cell twice, and the names in the order in which they
were last declared. -/
theorem listed_spec (h : st.Sound) (i : Nat) (p : Symbol → Bool) :
    ((st.listed i p).map fun entry => (entry.1, st.cells entry.2)) =
        (st.frame i).entries.filter (fun entry => p entry.2) ∧
      ((st.listed i p).map Prod.snd).Nodup ∧
      (st.listed i p).map Prod.fst =
        (st.rosters i).history.dedup.filter fun name => ((st.frame i).find? name).any p := by
  have hstep := h.inStep i
  have hcell : ∀ name ∈ (st.rosters i).names, st.get i name = some ((st.get i name).getD 0) := by
    intro name hname
    obtain ⟨cell, hget⟩ := Option.isSome_iff_exists.1 ((hstep.mem_iff name).1 hname)
    rw [get, hget, Option.getD_some]
  refine ⟨?_, ?_, ?_⟩
  · simp [listed, frame, Roster.frame, List.filter_map, Function.comp_def, get]
  · have hall : (((st.rosters i).names.map fun name => (name, (st.get i name).getD 0)).map Prod.snd).Nodup := by
      rw [List.map_map]
      refine hstep.nodup.map_on fun name hname other hother heq => ?_
      exact (h.owner (hcell other hother) ((hcell name hname).trans (congrArg some heq))).2
    exact hall.sublist (List.filter_sublist.map _)
  · have hnames : (st.listed i p).map Prod.fst =
        (st.rosters i).names.filter fun name => p (st.cells ((st.get i name).getD 0)) := by
      simp [listed, List.filter_map, Function.comp_def]
    rw [hnames, hstep.order, List.filter_filter]
    refine List.filter_congr fun name _ => ?_
    rw [h.find?_frame, get]
    cases (st.rosters i).table name <;> simp

end Sound

end Build

/-- A store that holds what a workspace does. -/
structure Matches (st : Store) (w : Workspace) : Prop where
  /-- The store is sound. -/
  sound : st.Sound
  /-- There are as many frames. -/
  count : st.count = w.frames.length
  /-- The frames have the same bindings. -/
  frame : st.frame = w.frame

/-- Where operations on scopes lead that begin with none: the store and the workspace, and the scopes that are at
hand. -/
inductive Runs : Store → Workspace → List Chain → Prop where
  /-- Nothing is done. -/
  | start : Runs empty ⟨[], [], 0⟩ []
  /-- A new scope has a root frame of its own, which holds the radix. -/
  | create {st : Store} {w : Workspace} {cs : List Chain} (h : Runs st w cs) :
    Runs (st.build Scope.initial.root) { w with frames := w.frames ++ [Scope.initial.root] }
      (⟨w.frames.length, []⟩ :: cs)
  /-- A scope is nested in one that is at hand. -/
  | nest {st : Store} {w : Workspace} {cs : List Chain} (h : Runs st w cs) {c : Chain} (hc : c ∈ cs) :
    Runs (st.build Frame.empty) (w.nest c).1 ((w.nest c).2 :: cs)
  /-- A scope that is at hand is copied. -/
  | preserve {st : Store} {w : Workspace} {cs : List Chain} (h : Runs st w cs) {c : Chain} (hc : c ∈ cs) :
    Runs (st.preserve c) (w.preserve c).1 ((w.preserve c).2 :: cs)
  /-- An operation on a scope that is at hand. -/
  | operate {st : Store} {w : Workspace} {cs : List Chain} (h : Runs st w cs) {c : Chain} (hc : c ∈ cs)
    (op : Operation) : Runs (st.apply c op) (w.write c (op.apply w (w.view c))) cs

section Runs

variable {st : Store} {w : Workspace} {c : Chain} {cs : List Chain}

theorem Matches.view_eq (h : st.Matches w) (c : Chain) : st.view c = w.view c := by
  rw [view, Workspace.view, h.frame]

/-- The same frames are added to both. -/
theorem Matches.append (h : st.Matches w) {fs : List Frame} (hfs : ∀ f ∈ fs, f.names.Nodup) :
    (fs.foldl build st).Matches { w with frames := w.frames ++ fs } := by
  obtain ⟨hsound, hcount, hnew, hold⟩ := h.sound.foldl_build fs hfs
  refine ⟨hsound, ?_, funext fun i => ?_⟩
  · rw [hcount, h.count, List.length_append]
  · by_cases hi : i < st.count
    · rw [(hold i hi).1, h.frame, Workspace.frame_append_of_lt (h.count ▸ hi)]
    · obtain ⟨k, rfl⟩ := Nat.exists_eq_add_of_le (Nat.le_of_not_lt hi)
      rw [hnew, h.count, Workspace.frame_append_add]

theorem Matches.add (h : st.Matches w) {f : Frame} (hf : f.names.Nodup) :
    (st.build f).Matches { w with frames := w.frames ++ [f] } :=
  h.append (List.forall_mem_singleton.2 hf)

/-- The same operation is done in both. -/
theorem Matches.operate (h : st.Matches w) (hc : w.Holds c) (op : Operation) :
    (st.apply c op).Matches (w.write c (op.apply w (w.view c))) := by
  have hholds : st.Holds c := ⟨hc.nodup, fun i hi => (hc.bound i hi).trans_eq h.count.symm⟩
  have hrewrites := h.sound.apply hholds h.frame op
  refine ⟨hrewrites.sound, ?_, funext fun i => ?_⟩
  · rw [hrewrites.count, h.count, Workspace.length_write]
  · by_cases hi : i ∈ c.positions
    · have hview := hrewrites.view.trans (hc.view_operate op).symm
      obtain ⟨hroot, hinner⟩ := Scope.mk.inj hview
      rcases List.mem_cons.1 hi with rfl | hi
      · exact hroot
      · exact List.map_inj_left.1 hinner i hi
    · rw [hrewrites.other hi, Workspace.frame_write_of_not_mem hi, h.frame]

/-- Chains of different frames are the same in both. -/
theorem Matches.holds_iff (h : st.Matches w) : st.Holds c ↔ w.Holds c :=
  ⟨fun hc => ⟨hc.nodup, fun i hi => h.count ▸ hc.bound i hi⟩,
    fun hc => ⟨hc.nodup, fun i hi => (hc.bound i hi).trans_eq h.count.symm⟩⟩

/-- A scope is nested in both. -/
theorem Matches.nest (h : st.Matches w) (hc : w.Holds c) :
    (st.build Frame.empty).Matches (w.nest c).1 ∧ (w.nest c).1.Holds (w.nest c).2 ∧ st.nested c = (w.nest c).2 ∧
      ∀ {d}, w.Holds d → (w.nest c).1.Holds d := by
  refine ⟨h.add List.nodup_nil, hc.nest, ?_, fun hd => ⟨hd.nodup, fun i hi => ?_⟩⟩
  · rw [nested, h.count]
    rfl
  · exact (hd.bound i hi).trans_le (by simp [Workspace.nest])

/-- A scope is copied in both. -/
theorem Matches.preserve (h : st.Matches w) (c : Chain) :
    (st.preserve c).Matches (w.preserve c).1 ∧ st.copied c = (w.preserve c).2 ∧
      ∀ {d}, w.Holds d → (w.preserve c).1.Holds d := by
  refine ⟨?_, ?_, fun hd => ⟨hd.nodup, fun i hi => (hd.bound i hi).trans_le (by simp [Workspace.preserve])⟩⟩
  · have hcopy := h.append (h.sound.nodup_positions c)
    rw [h.frame] at hcopy
    rw [Store.preserve, h.frame]
    exact hcopy
  · rw [copied, h.count]
    rfl

/-- Whatever is done, the store holds what the workspace does, and scopes are chains of different frames. -/
theorem Runs.matches (h : Runs st w cs) : st.Matches w ∧ ∀ c ∈ cs, w.Holds c := by
  induction h with
  | start => exact ⟨⟨sound_empty, rfl, rfl⟩, fun c hc => absurd hc List.not_mem_nil⟩
  | @create st w cs h ih =>
    obtain ⟨hmatches, hholds⟩ := ih
    refine ⟨hmatches.add (by decide), List.forall_mem_cons.2 ⟨?_, fun c hc => ?_⟩⟩
    · exact ⟨List.nodup_singleton _, by simp [Chain.positions]⟩
    · exact ⟨(hholds c hc).nodup, fun i hi => ((hholds c hc).bound i hi).trans_le (by simp)⟩
  | nest h hc ih =>
    obtain ⟨hmatches, hholds⟩ := ih
    obtain ⟨hnest, hnew, -, hkeeps⟩ := hmatches.nest (hholds _ hc)
    exact ⟨hnest, List.forall_mem_cons.2 ⟨hnew, fun d hd => hkeeps (hholds d hd)⟩⟩
  | @preserve st w cs h c hc ih =>
    obtain ⟨hmatches, hholds⟩ := ih
    obtain ⟨hcopy, -, hkeeps⟩ := hmatches.preserve c
    exact ⟨hcopy, List.forall_mem_cons.2 ⟨Workspace.holds_preserve w c, fun d hd => hkeeps (hholds d hd)⟩⟩
  | @operate st w cs h c hc op ih =>
    obtain ⟨hmatches, hholds⟩ := ih
    refine ⟨hmatches.operate (hholds c hc) op, fun d hd => ⟨(hholds d hd).nodup, fun i hi => ?_⟩⟩
    rw [Workspace.length_write]
    exact (hholds d hd).bound i hi

/-- The operations of a list are done one after the other. -/
theorem Runs.operations (h : Runs st w cs) (hc : c ∈ cs) (ops : List Operation) :
    Runs (ops.foldl (fun st op => st.apply c op) st)
      (ops.foldl (fun w op => w.write c (op.apply w (w.view c))) w) cs := by
  induction ops generalizing st w with
  | nil => exact h
  | cons op rest ih => exact ih (h.operate hc op)

/-- Whatever is done with any number of scopes that share frames, in every frame the list of names has no duplicates
and holds exactly the names that have a symbol, and every symbol is owned by exactly one frame under one name. The
frames hold what those of the workspace do. So the bindings of a scope, and its globals, list each symbol once, in the
order in which their names were declared in the frame, a name that was declared there more than once counting from the
last time. -/
theorem Runs.frames_in_step (h : Runs st w cs) :
    (∀ i, (st.rosters i).names.Nodup ∧ ∀ name, name ∈ (st.rosters i).names ↔ (st.get i name).isSome = true) ∧
    (∀ i name cell, st.get i name = some cell → ∃! owner : Nat × Text, st.get owner.1 owner.2 = some cell) ∧
    st.frame = w.frame ∧
    ∀ c ∈ cs,
      (((st.bindings c).map fun entry => (entry.1, st.cells entry.2)) = (w.view c).bindings ∧
        ((st.bindings c).map Prod.snd).Nodup ∧
        (st.bindings c).map Prod.fst =
          (st.rosters c.top).history.dedup.filter
            fun name => ((w.view c).top.find? name).any fun sym => !sym.reserved) ∧
      (((st.globals c).map fun entry => (entry.1, st.cells entry.2)) = (w.view c).globals ∧
        ((st.globals c).map Prod.snd).Nodup ∧
        (st.globals c).map Prod.fst =
          (st.rosters c.root).history.dedup.filter fun name => ((w.view c).root.find? name).any Symbol.global) := by
  obtain ⟨⟨hsound, -, hframe⟩, -⟩ := h.matches
  refine ⟨fun i => ⟨(hsound.inStep i).nodup, (hsound.inStep i).mem_iff⟩, fun i name cell hcell => ?_, hframe,
    fun c _ => ?_⟩
  · exact ⟨(i, name), hcell, fun owner howner => Prod.ext_iff.2 (hsound.owner hcell howner)⟩
  · have hview : w.view c = st.view c := by rw [Workspace.view, Store.view, hframe]
    rw [Scope.bindings, Scope.globals, hview, Sound.top_view]
    exact ⟨hsound.listed_spec c.top _, hsound.listed_spec c.root _⟩

/-- A unit that has a name promoted, and removes another one and declares it again. -/
def unitOperations : List Operation :=
  [.declareLocal "X", .declareLocal "Y", .declareLocal "Z", .declareGlobal "X", .remove "Y", .declareLocal "Y"]

/-- In the frame of the unit the name that was declared again comes last, and the promoted one is a global. -/
theorem Runs.frames_in_step_unit :
    let c : Chain := ⟨0, [1]⟩
    let st := unitOperations.foldl (fun st op => st.apply c op) ((empty.build Scope.initial.root).build Frame.empty)
    let w := unitOperations.foldl (fun w op => w.write c (op.apply w (w.view c)))
      ⟨[Scope.initial.root, Frame.empty], [], 0⟩
    Runs st w [c, ⟨0, []⟩] ∧ (st.rosters 1).names.Nodup ∧ (st.rosters 1).names = ["Z", "Y"] ∧
      (st.rosters 1).history = ["X", "Y", "Z", "Y"] ∧ (st.bindings c).map Prod.fst = ["Z", "Y"] ∧
      (st.globals c).map Prod.fst = ["X"] := by
  intro c st w
  have hruns : Runs st w [c, ⟨0, []⟩] :=
    (Runs.start.create.nest List.mem_cons_self).operations List.mem_cons_self unitOperations
  exact ⟨hruns, (hruns.frames_in_step.1 1).1, by decide, by decide, by decide, by decide⟩

end Runs

end Store

end MacroAsm
