import Mathlib.Data.List.GetD
import Mathlib.Data.List.Nodup
import Mathlib.Order.Nat
import MacroAsm.Scope.Workspace
import MacroAsm.Proofs.Scope.Merge

/-!
# Scopes that share frames

The scopes of a workspace share frames, and an operation on a scope writes to the frames of its chain
(`Operation.apply`). `Workspace.Works` tells where any number of operations lead that begin with given scopes,
and with those that are nested in them or copied from them along the way. A copy has frames of its own, so
nothing that is done with it, or with scopes nested in it, reaches a frame that was there before
(`Workspace.Works.isolated`).
-/

namespace MacroAsm

/-- The positions of the frames of a chain. -/
def Chain.positions (c : Chain) : List Nat := c.root :: c.inner

/-- An operation on a scope. A merge reads two other scopes. -/
inductive Operation where
  /-- Declares a name in the innermost frame. -/
  | declareLocal (name : Text)
  /-- Declares a name in the root frame. -/
  | declareGlobal (name : Text)
  /-- Changes the innermost symbol of a name. -/
  | update (name : Text) (g : Symbol → Symbol)
  /-- Changes the symbol of a name in the innermost frame. -/
  | updateTop (name : Text) (g : Symbol → Symbol)
  /-- Changes the symbol of a name in the root frame. -/
  | updateRoot (name : Text) (g : Symbol → Symbol)
  /-- Removes the innermost symbol of a name. -/
  | remove (name : Text)
  /-- Moves a name to the frame below the innermost one. -/
  | hoist (name : Text)
  /-- Changes the radix. -/
  | setRadix (radix : Int64) (loc : Location)
  /-- Merges two other scopes. -/
  | merge (test : Expr) (onTrue onFalse : Chain)

/-- What an operation makes of a scope of a workspace. An operation that fails leaves the scope alone, apart
from a merge, which stops where it fails. -/
def Operation.apply (w : Workspace) (s : Scope) : Operation → Scope
  | .declareLocal name => (s.declareLocal name).toOption.getD s
  | .declareGlobal name => (s.declareGlobal name).toOption.getD s
  | .update name g => s.modify name g
  | .updateTop name g => s.modifyTop fun f => f.modify name g
  | .updateRoot name g => { s with root := s.root.modify name g }
  | .remove name => s.remove name
  | .hoist name => (s.hoist name).1
  | .setRadix radix loc => (s.setRadix radix loc).toOption.getD s
  | .merge test onTrue onFalse => (s.merge test (w.view onTrue) (w.view onFalse)).1

namespace Scope

variable {s s' : Scope}

/-- Changing the innermost frame keeps the number of frames. -/
theorem length_modifyTop (s : Scope) (g : Frame → Frame) : (s.modifyTop g).inner.length = s.inner.length := by
  unfold modifyTop
  cases hinner : s.inner with
  | nil => simp
  | cons f rest => rfl

/-- Changing the frame of a name keeps the number of frames. -/
theorem length_modifyFrameOf (s : Scope) (name : Text) (g : Frame → Frame) :
    (s.modifyFrameOf name g).inner.length = s.inner.length :=
  (modifyFrameOf_rel (R := fun _ _ => True) (Q := fun _ _ => True) (fun _ => trivial) (fun _ => trivial)
    (fun _ _ _ _ _ => trivial) fun _ _ _ => trivial).1.length_eq.symm

/-- Declaring a name in the innermost frame keeps the number of frames. -/
theorem length_declareLocal {name : Text} (h : s.declareLocal name = .ok s') :
    s'.inner.length = s.inner.length := by
  cases (declareLocal_eq_ok h).2 with
  | kept => rfl
  | entered => exact length_modifyTop s _

/-- Declaring a name in the root frame keeps the number of frames. -/
theorem length_declareGlobal {name : Text} (h : s.declareGlobal name = .ok s') :
    s'.inner.length = s.inner.length := by
  cases declareGlobal_eq_ok h with
  | kept | promoted | entered => rfl
  | moved =>
    exact (modifyOwner_forall₂ (R := fun _ _ => True) (fun _ => trivial)
      fun _ _ _ _ _ => trivial).length_eq.symm

/-- Moving a name keeps the number of frames. -/
theorem length_hoist (s : Scope) (name : Text) : (s.hoist name).1.inner.length = s.inner.length := by
  rw [hoist.eq_def]
  split
  · rename_i f below rest hinner
    split
    · rfl
    · rw [hinner]
      rfl
  · rfl

/-- Merging the frames of open units keeps their number. -/
theorem length_mergeInner (test : Expr) (hs ts fs : List Frame) :
    (mergeInner test hs ts fs).1.length = hs.length := by
  induction hs generalizing ts fs with
  | nil => simp [mergeInner]
  | cons here hs ih =>
    cases ts with
    | nil => simp [mergeInner]
    | cons t ts =>
      cases fs with
      | nil => simp [mergeInner]
      | cons f fs =>
        rw [mergeInner]
        split
        · rfl
        · simp [ih]

/-- Merging keeps the number of frames. -/
theorem length_merge (s : Scope) (test : Expr) (onTrue onFalse : Scope) :
    (s.merge test onTrue onFalse).1.inner.length = s.inner.length := by
  have hinner := length_mergeInner test s.inner onTrue.inner onFalse.inner
  rw [merge]
  split
  · rfl
  · split <;> rename_i hmerge <;> rw [hmerge] at hinner <;> exact hinner

end Scope

/-- An operation keeps the number of frames. -/
theorem Operation.length_apply (w : Workspace) (s : Scope) (op : Operation) :
    (op.apply w s).inner.length = s.inner.length := by
  cases op with
  | declareLocal name =>
    rw [apply]
    cases h : s.declareLocal name with
    | ok s' => exact Scope.length_declareLocal h
    | error c => rfl
  | declareGlobal name =>
    rw [apply]
    cases h : s.declareGlobal name with
    | ok s' => exact Scope.length_declareGlobal h
    | error c => rfl
  | update name g => exact Scope.length_modifyFrameOf s name _
  | updateTop name g => exact Scope.length_modifyTop s _
  | updateRoot name g => rfl
  | remove name => exact Scope.length_modifyFrameOf s name _
  | hoist name => exact Scope.length_hoist s name
  | setRadix radix loc =>
    rw [apply, Scope.setRadix]
    split
    · rfl
    · exact Scope.length_modifyFrameOf s _ _
  | merge test onTrue onFalse => exact Scope.length_merge s test _ _

namespace Workspace

section Positions

/-- Writing to positions leaves the others alone. -/
theorem getD_foldl_set_of_not_mem {i : Nat} {is : List Nat} (hi : i ∉ is) (fs frames : List Frame) (d : Frame) :
    ((List.zip is fs).foldl (fun fs (i, f) => fs.set i f) frames).getD i d = frames.getD i d := by
  induction is generalizing fs frames with
  | nil => rfl
  | cons j is ih =>
    rw [List.mem_cons, not_or] at hi
    cases fs with
    | nil => rfl
    | cons f fs =>
      rw [List.zip_cons_cons, List.foldl_cons, ih hi.2, List.getD_eq_getElem?_getD,
        List.getElem?_set_ne (Ne.symm hi.1), List.getD_eq_getElem?_getD]

/-- Writing to positions keeps the number of frames. -/
theorem length_foldl_set (is : List (Nat × Frame)) (frames : List Frame) :
    (is.foldl (fun fs (i, f) => fs.set i f) frames).length = frames.length := by
  induction is generalizing frames with
  | nil => rfl
  | cons entry is ih => rw [List.foldl_cons, ih, List.length_set]

/-- What was written to different positions can be read there. -/
theorem map_getD_foldl_set {is : List Nat} (his : is.Nodup) {fs frames : List Frame}
    (hlength : is.length = fs.length) (hbound : ∀ i ∈ is, i < frames.length) (d : Frame) :
    is.map (((List.zip is fs).foldl (fun fs (i, f) => fs.set i f) frames).getD · d) = fs := by
  induction is generalizing fs frames with
  | nil => exact (List.length_eq_zero_iff.1 hlength.symm).symm
  | cons j is ih =>
    rw [List.nodup_cons] at his
    cases fs with
    | nil => cases hlength
    | cons f fs =>
      rw [List.forall_mem_cons] at hbound
      -- the first position is not written to again
      rw [List.zip_cons_cons, List.foldl_cons, List.map_cons, getD_foldl_set_of_not_mem his.1,
        ih his.2 (Nat.succ.inj hlength) (by simpa using hbound.2)]
      simp [hbound.1]

end Positions

/-- A chain of different frames of a workspace. -/
structure Holds (w : Workspace) (c : Chain) : Prop where
  /-- No frame is there twice. -/
  nodup : c.positions.Nodup
  /-- The frames are those of the workspace. -/
  bound : ∀ i ∈ c.positions, i < w.frames.length

variable {w w' : Workspace} {c : Chain} {cs cs' : List Chain}

theorem frame_write_of_not_mem {i : Nat} (hi : i ∉ c.positions) (w : Workspace) (s : Scope) :
    (w.write c s).frame i = w.frame i :=
  getD_foldl_set_of_not_mem hi _ _ _

theorem length_write (w : Workspace) (c : Chain) (s : Scope) :
    (w.write c s).frames.length = w.frames.length :=
  length_foldl_set _ _

/-- What was written to a chain can be read there. -/
theorem Holds.view_write (h : w.Holds c) {s : Scope} (hlength : s.inner.length = c.inner.length) :
    (w.write c s).view c = s := by
  have hread : c.positions.map (w.write c s).frame = s.root :: s.inner :=
    map_getD_foldl_set h.nodup (by simp [Chain.positions, hlength]) h.bound Frame.empty
  rw [Chain.positions, List.map_cons, List.cons.injEq] at hread
  rw [view, hread.1, hread.2]

/-- What is done to a scope by an operation is what is read afterwards. -/
theorem Holds.view_operate (h : w.Holds c) (op : Operation) :
    (w.write c (op.apply w (w.view c))).view c = op.apply w (w.view c) := by
  refine h.view_write ?_
  rw [op.length_apply, view, List.length_map]

theorem view_congr (h : ∀ i ∈ c.positions, w'.frame i = w.frame i) : w'.view c = w.view c := by
  rw [Chain.positions, List.forall_mem_cons] at h
  rw [view, view, h.1, List.map_congr_left h.2]

theorem frame_append_of_lt {i : Nat} (hi : i < w.frames.length) (fs : List Frame) :
    frame { w with frames := w.frames ++ fs } i = w.frame i := by
  rw [frame, frame, List.getD_eq_getElem?_getD, List.getD_eq_getElem?_getD, List.getElem?_append_left hi]

/-- The frames that are added can be read. -/
theorem frame_append_add {fs : List Frame} (w : Workspace) (i : Nat) :
    frame { w with frames := w.frames ++ fs } (w.frames.length + i) = fs.getD i Frame.empty := by
  rw [frame, List.getD_eq_getElem?_getD, List.getElem?_append_right (Nat.le_add_right _ _),
    Nat.add_sub_cancel_left, List.getD_eq_getElem?_getD]

/-- A nested scope has the frames of the scope around it, and a new one. -/
theorem Holds.view_nest (h : w.Holds c) : (w.nest c).1.view (w.nest c).2 = (w.view c).nest := by
  have hview : (w.nest c).1.view c = w.view c :=
    view_congr fun i hi => frame_append_of_lt (h.bound i hi) _
  have hnew : (w.nest c).1.frame w.frames.length = Frame.empty := frame_append_add w 0
  rw [Scope.nest, ← hview]
  exact congrArg (fun f => (⟨(w.nest c).1.frame c.root, f :: c.inner.map (w.nest c).1.frame⟩ : Scope)) hnew

/-- A nested scope is a chain of different frames. -/
theorem Holds.nest (h : w.Holds c) : (w.nest c).1.Holds (w.nest c).2 := by
  have hlength : (w.nest c).1.frames.length = w.frames.length + 1 := List.length_append
  have hnew : w.frames.length ∉ c.positions := fun hmem => absurd (h.bound _ hmem) (lt_irrefl _)
  have hperm : (w.nest c).2.positions.Perm (w.frames.length :: c.positions) := List.Perm.swap _ _ _
  -- the new frame comes before the inner ones, but after the root in the list of positions
  refine ⟨hperm.nodup_iff.2 (List.nodup_cons.2 ⟨hnew, h.nodup⟩), fun i hi => ?_⟩
  rw [hlength]
  rcases List.mem_cons.1 (hperm.mem_iff.1 hi) with rfl | hi
  · exact Nat.lt_succ_self _
  · exact Nat.lt_succ_of_lt (h.bound i hi)

/-- The positions of a copy are the new ones. -/
theorem positions_preserve (w : Workspace) (c : Chain) :
    (w.preserve c).2.positions = (List.range c.positions.length).map (w.frames.length + ·) := by
  rw [Chain.positions, Chain.positions, List.length_cons, List.range_succ_eq_map, List.map_cons, List.map_map]
  refine List.cons_eq_cons.2 ⟨rfl, List.map_congr_left fun i _ => ?_⟩
  exact Nat.succ_add_eq_add_succ w.frames.length i

theorem length_preserve (w : Workspace) (c : Chain) :
    (w.preserve c).1.frames.length = w.frames.length + c.positions.length := by
  simp [preserve, Chain.positions]

/-- A copy is a chain of different frames. -/
theorem holds_preserve (w : Workspace) (c : Chain) : (w.preserve c).1.Holds (w.preserve c).2 := by
  constructor
  · rw [positions_preserve]
    exact List.nodup_range.map fun i j => Nat.add_left_cancel
  · intro i hi
    rw [positions_preserve] at hi
    obtain ⟨j, hj, rfl⟩ := List.mem_map.1 hi
    rw [length_preserve]
    exact Nat.add_lt_add_left (List.mem_range.1 hj) _

/-- A copy holds the same as the scope that was copied. -/
theorem view_preserve (w : Workspace) (c : Chain) : (w.preserve c).1.view (w.preserve c).2 = w.view c := by
  have hread : (w.preserve c).2.positions.map (w.preserve c).1.frame = c.positions.map w.frame := by
    rw [positions_preserve, List.map_map]
    refine List.ext_getElem (by simp) fun i h₁ h₂ => ?_
    rw [List.length_map] at h₂
    rw [List.getElem_map, List.getElem_range]
    refine (frame_append_add w i).trans ?_
    change (c.positions.map w.frame).getD i Frame.empty = _
    rw [List.getD_eq_getElem _ _ (by simpa using h₂)]
  rw [Chain.positions, Chain.positions, List.map_cons, List.map_cons, List.cons.injEq] at hread
  rw [view, view, hread.1, hread.2]

/-- The frames of a copy are new. -/
theorem le_of_mem_preserve {i : Nat} (hi : i ∈ (w.preserve c).2.positions) : w.frames.length ≤ i := by
  rw [positions_preserve] at hi
  obtain ⟨j, -, rfl⟩ := List.mem_map.1 hi
  exact Nat.le_add_right _ j

/-- Where operations lead that begin with the scopes `cs`. The second list has the scopes that are at hand
afterwards. -/
inductive Works (w : Workspace) (cs : List Chain) : Workspace → List Chain → Prop where
  /-- Nothing is done. -/
  | refl : Works w cs w cs
  /-- An operation on a scope that is at hand. -/
  | operate {w' : Workspace} {cs' : List Chain} (h : Works w cs w' cs') {c : Chain} (hc : c ∈ cs')
    (op : Operation) : Works w cs (w'.write c (op.apply w' (w'.view c))) cs'
  /-- A scope is nested in one that is at hand. -/
  | nest {w' : Workspace} {cs' : List Chain} (h : Works w cs w' cs') {c : Chain} (hc : c ∈ cs') :
    Works w cs (w'.nest c).1 ((w'.nest c).2 :: cs')
  /-- A scope that is at hand is copied. -/
  | preserve {w' : Workspace} {cs' : List Chain} (h : Works w cs w' cs') {c : Chain} (hc : c ∈ cs') :
    Works w cs (w'.preserve c).1 ((w'.preserve c).2 :: cs')

namespace Works

/-- Scopes stay at hand. -/
theorem subset (h : Works w cs w' cs') : cs ⊆ cs' := by
  induction h with
  | refl => exact List.Subset.refl cs
  | operate _ _ _ ih => exact ih
  | nest _ _ ih => exact List.subset_cons_of_subset _ ih
  | preserve _ _ ih => exact List.subset_cons_of_subset _ ih

/-- Frames stay. -/
theorem length_le (h : Works w cs w' cs') : w.frames.length ≤ w'.frames.length := by
  induction h with
  | refl => exact le_rfl
  | operate _ _ _ ih =>
    rw [length_write]
    exact ih
  | nest _ _ ih => exact ih.trans (by simp [Workspace.nest])
  | preserve _ _ ih => exact ih.trans (by simp [Workspace.preserve])

theorem holds (h : Works w cs w' cs') (hc : w.Holds c) : w'.Holds c :=
  ⟨hc.nodup, fun i hi => (hc.bound i hi).trans_le h.length_le⟩

/-- What can be done with some scopes can be done after something else that leaves them at hand. -/
theorem trans {w'' : Workspace} {ds ds' : List Chain} (h : Works w cs w' cs') (h' : Works w' ds w'' ds')
    (hsub : ds ⊆ cs') : ∃ es, ds' ⊆ es ∧ Works w cs w'' es := by
  induction h' with
  | refl => exact ⟨cs', hsub, h⟩
  | operate _ hc op ih =>
    obtain ⟨es, hes, ih⟩ := ih
    exact ⟨es, hes, ih.operate (hes hc) op⟩
  | nest _ hc ih =>
    obtain ⟨es, hes, ih⟩ := ih
    exact ⟨_, List.cons_subset_cons _ hes, ih.nest (hes hc)⟩
  | preserve _ hc ih =>
    obtain ⟨es, hes, ih⟩ := ih
    exact ⟨_, List.cons_subset_cons _ hes, ih.preserve (hes hc)⟩

/-- Operations that begin with scopes of later frames leave the earlier ones alone. -/
theorem frame_eq {n : Nat} (h : Works w cs w' cs') (hn : n ≤ w.frames.length)
    (hcs : ∀ c ∈ cs, ∀ i ∈ c.positions, n ≤ i) :
    (∀ c ∈ cs', ∀ i ∈ c.positions, n ≤ i) ∧ ∀ i < n, w'.frame i = w.frame i := by
  -- what carries the induction is that no scope at hand has an early frame
  induction h with
  | refl => exact ⟨hcs, fun _ _ => rfl⟩
  | operate h hc op ih =>
    refine ⟨ih.1, fun i hi => ?_⟩
    have hnot : i ∉ _ := fun hmem => absurd (ih.1 _ hc i hmem) (Nat.not_le.2 hi)
    rw [frame_write_of_not_mem hnot, ih.2 i hi]
  | @nest w' cs' h c hc ih =>
    have hlength : n ≤ w'.frames.length := hn.trans h.length_le
    refine ⟨List.forall_mem_cons.2 ⟨fun i hi => ?_, ih.1⟩, fun i hi => ?_⟩
    · rcases List.mem_cons.1 ((List.Perm.swap _ _ _).mem_iff.1 hi) with rfl | hi
      · exact hlength
      · exact ih.1 c hc i hi
    · exact (frame_append_of_lt (hi.trans_le hlength) _).trans (ih.2 i hi)
  | @preserve w' cs' h c hc ih =>
    have hlength : n ≤ w'.frames.length := hn.trans h.length_le
    refine ⟨List.forall_mem_cons.2 ⟨fun i hi => ?_, ih.1⟩, fun i hi => ?_⟩
    · exact hlength.trans (le_of_mem_preserve hi)
    · exact (frame_append_of_lt (hi.trans_le hlength) _).trans (ih.2 i hi)

/-- Nothing that is done with a copy reaches a frame that was there before. -/
theorem isolated (h : Works (w.preserve c).1 [(w.preserve c).2] w' cs) :
    ∀ i < w.frames.length, w'.frame i = w.frame i := by
  have hlength : w.frames.length ≤ (w.preserve c).1.frames.length := by simp [length_preserve]
  obtain ⟨-, hframe⟩ := h.frame_eq hlength (List.forall_mem_singleton.2 fun i => le_of_mem_preserve)
  exact fun i hi => (hframe i hi).trans (frame_append_of_lt hi _)

end Works

end Workspace

end MacroAsm
