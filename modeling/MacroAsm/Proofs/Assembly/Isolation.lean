import MacroAsm.Proofs.Assembly.Reachable
import MacroAsm.Proofs.Scope.Registration

/-!
# Isolation of arms

A nested block works on frames that it shares with the blocks around it, and an arm of an undecided IF on copies.
`Scope.Performs` says of a change of a scope that it is made by operations on shared frames, one after the
other. All that is done to a scope is made this way (`Scope.Unfolds.performs`): a nested block by operations on a
nested scope, and an arm by operations on scopes that are nested in a copy. So an arm reaches no frame of the block
that the IF is in (`Reachable.prospect_isolated`).

Frames whose symbols are in cells are isolated as well. `Store.Works` tells where operations on scopes of a store lead.
Those that begin with a copy keep the names of every older frame, and the cells of these with what they hold
(`Store.Works.isolated`), and what is done with the scopes of a workspace is done in this way with those of a store
(`Store.Matches.exists_works`).
-/

namespace MacroAsm

namespace Store

/-- A frame is the same in two stores: its names are in the same order and have the same cells, and these hold the same
symbols. -/
def Keeps (st st' : Store) (i : Nat) : Prop :=
  st'.rosters i = st.rosters i ∧ ∀ name cell, st.get i name = some cell → st'.cells cell = st.cells cell

/-- Where operations lead that begin with the scopes `cs` of a store. The second list has the scopes that are at hand
afterwards. -/
inductive Works (st : Store) (cs : List Chain) : Store → List Chain → Prop where
  /-- Nothing is done. -/
  | refl : Works st cs st cs
  /-- An operation on a scope that is at hand. -/
  | operate {st' : Store} {cs' : List Chain} (h : Works st cs st' cs') {c : Chain} (hc : c ∈ cs') (op : Operation) :
    Works st cs (st'.apply c op) cs'
  /-- A scope is nested in one that is at hand. -/
  | nest {st' : Store} {cs' : List Chain} (h : Works st cs st' cs') {c : Chain} (hc : c ∈ cs') :
    Works st cs (st'.build Frame.empty) (st'.nested c :: cs')
  /-- A scope that is at hand is copied. -/
  | preserve {st' : Store} {cs' : List Chain} (h : Works st cs st' cs') {c : Chain} (hc : c ∈ cs') :
    Works st cs (st'.preserve c) (st'.copied c :: cs')

section Works

variable {st st' : Store} {w w' : Workspace} {c : Chain} {cs cs' : List Chain}

/-- What is done with the scopes of a workspace is done with those of the store that holds the same. -/
theorem Matches.exists_works (h : st.Matches w) (hcs : ∀ c ∈ cs, w.Holds c) (hworks : Workspace.Works w cs w' cs') :
    ∃ st', st.Works cs st' cs' ∧ st'.Matches w' ∧ ∀ c ∈ cs', w'.Holds c := by
  induction hworks with
  | refl => exact ⟨st, .refl, h, hcs⟩
  | operate _ hc op ih =>
    obtain ⟨st', hst', hmatches, hholds⟩ := ih
    refine ⟨_, hst'.operate hc op, hmatches.operate (hholds _ hc) op, fun d hd => ⟨(hholds d hd).nodup, ?_⟩⟩
    rw [Workspace.length_write]
    exact (hholds d hd).bound
  | nest _ hc ih =>
    obtain ⟨st', hst', hmatches, hholds⟩ := ih
    obtain ⟨hnest, hnew, hchain, hkeeps⟩ := hmatches.nest (hholds _ hc)
    refine ⟨_, hchain ▸ hst'.nest hc, hnest, List.forall_mem_cons.2 ⟨hnew, fun d hd => hkeeps (hholds d hd)⟩⟩
  | @preserve w' cs' _ c hc ih =>
    obtain ⟨st', hst', hmatches, hholds⟩ := ih
    obtain ⟨hcopy, hchain, hkeeps⟩ := hmatches.preserve c
    exact ⟨_, hchain ▸ hst'.preserve hc, hcopy,
      List.forall_mem_cons.2 ⟨Workspace.holds_preserve w' c, fun d hd => hkeeps (hholds d hd)⟩⟩

/-- The workspace that holds what a store does. -/
def workspace (st : Store) : Workspace := ⟨(List.range st.count).map st.frame, [], 0⟩

theorem Sound.matches (h : st.Sound) : st.Matches st.workspace := by
  refine ⟨h, by simp [workspace], funext fun i => ?_⟩
  rw [Workspace.frame, workspace, List.getD_eq_getElem?_getD, List.getElem?_map]
  by_cases hi : i < st.count
  · simp [List.getElem?_range hi]
  · rw [h.frame_of_le (Nat.le_of_not_lt hi), List.getElem?_eq_none (by simpa using hi)]
    rfl

/-- The frame of a sound store is the same if its bindings are, and its cells. -/
theorem Sound.keeps {i : Nat} (h : st.Sound) (h' : st'.Sound) (hframe : st'.frame i = st.frame i)
    (hrosters : st'.rosters i = st.rosters i) : st.Keeps st' i := by
  refine ⟨hrosters, fun name cell hcell => ?_⟩
  have hcell' : st'.get i name = some cell := by rw [get, hrosters, ← get, hcell]
  have hfind := h'.find?_frame i name
  rw [hframe, h.find?_frame, hcell, hcell'] at hfind
  exact (Option.some.inj hfind).symm

/-- A sound store with scopes all of whose frames come late. -/
structure Late (n : Nat) (st : Store) (cs : List Chain) : Prop where
  /-- The store is sound. -/
  sound : st.Sound
  /-- It has the early frames. -/
  bound : n ≤ st.count
  /-- The scopes are chains of its frames. -/
  holds : ∀ c ∈ cs, st.Holds c
  /-- None of these is early. -/
  late : ∀ c ∈ cs, ∀ i ∈ c.positions, n ≤ i

/-- Operations that begin with scopes of late frames leave the early ones alone. -/
theorem Works.late {n : Nat} (h : st.Works cs st' cs') (hlate : st.Late n cs) :
    st'.Late n cs' ∧ ∀ i < n, st'.frame i = st.frame i ∧ st'.rosters i = st.rosters i := by
  -- what carries the induction is that no scope at hand has an early frame
  induction h with
  | refl => exact ⟨hlate, fun _ _ => ⟨rfl, rfl⟩⟩
  | @operate st' cs' _ c hc op ih =>
    obtain ⟨hlate', hkept⟩ := ih
    have hrewrites := hlate'.sound.apply (hlate'.holds c hc) hlate'.sound.matches.frame op
    refine ⟨⟨hrewrites.sound, hlate'.bound.trans_eq hrewrites.count.symm, fun d hd => ?_, hlate'.late⟩, fun i hi => ?_⟩
    · exact ⟨(hlate'.holds d hd).nodup, fun i hi => ((hlate'.holds d hd).bound i hi).trans_eq hrewrites.count.symm⟩
    · have hnot : i ∉ c.positions := fun hmem => absurd (hlate'.late c hc i hmem) (Nat.not_le.2 hi)
      rw [hrewrites.other hnot, hrewrites.rosters hnot]
      exact hkept i hi
  | @nest st' cs' _ c hc ih =>
    obtain ⟨hlate', hkept⟩ := ih
    have hmatches := hlate'.sound.matches
    obtain ⟨hnest, hnew, hchain, hkeeps⟩ := hmatches.nest (hmatches.holds_iff.1 (hlate'.holds c hc))
    obtain ⟨-, hcount, -, hothers⟩ := hlate'.sound.build (f := Frame.empty) List.nodup_nil
    refine ⟨⟨hnest.sound, hlate'.bound.trans (by omega), List.forall_mem_cons.2 ⟨?_, fun d hd => ?_⟩,
      List.forall_mem_cons.2 ⟨fun i hi => ?_, hlate'.late⟩⟩, fun i hi => ?_⟩
    · rw [hchain]
      exact hnest.holds_iff.2 hnew
    · exact hnest.holds_iff.2 (hkeeps (hmatches.holds_iff.1 (hlate'.holds d hd)))
    · rcases List.mem_cons.1 ((List.Perm.swap _ _ _).mem_iff.1 hi) with rfl | hi
      · exact hlate'.bound
      · exact hlate'.late c hc i hi
    · obtain ⟨hframe, hrosters⟩ := hothers i (hi.trans_le hlate'.bound).ne
      rw [hframe, hrosters]
      exact hkept i hi
  | @preserve st' cs' _ c hc ih =>
    obtain ⟨hlate', hkept⟩ := ih
    have hmatches := hlate'.sound.matches
    obtain ⟨hcopy, hchain, hkeeps⟩ := hmatches.preserve c
    obtain ⟨hcount, hothers⟩ := hlate'.sound.preserve c
    refine ⟨⟨hcopy.sound, hlate'.bound.trans hcount, List.forall_mem_cons.2 ⟨?_, fun d hd => ?_⟩,
      List.forall_mem_cons.2 ⟨fun i hi => ?_, hlate'.late⟩⟩, fun i hi => ?_⟩
    · rw [hchain]
      exact hcopy.holds_iff.2 (Workspace.holds_preserve _ c)
    · exact hcopy.holds_iff.2 (hkeeps (hmatches.holds_iff.1 (hlate'.holds d hd)))
    · rw [hchain] at hi
      exact hlate'.bound.trans (hmatches.count.trans_le (Workspace.le_of_mem_preserve hi))
    · obtain ⟨hframe, hrosters⟩ := hothers i (hi.trans_le hlate'.bound)
      rw [hframe, hrosters]
      exact hkept i hi

/-- Nothing that is done with a copy, with scopes nested in it or with copies of these changes a frame that was there
before: neither its names, nor their order, nor a symbol in a cell of it. -/
theorem Works.isolated (hst : st.Sound) (h : (st.preserve c).Works [st.copied c] st' cs) :
    ∀ i < st.count, st.Keeps st' i := by
  obtain ⟨hcopy, hchain, -⟩ := hst.matches.preserve c
  obtain ⟨hcount, hothers⟩ := hst.preserve c
  have hlate : (st.preserve c).Late st.count [st.copied c] := by
    refine ⟨hcopy.sound, hcount, List.forall_mem_singleton.2 ?_, List.forall_mem_singleton.2 fun i hi => ?_⟩
    · rw [hchain]
      exact hcopy.holds_iff.2 (Workspace.holds_preserve _ c)
    · rw [hchain] at hi
      exact hst.matches.count.trans_le (Workspace.le_of_mem_preserve hi)
  obtain ⟨hlate', hkept⟩ := h.late hlate
  intro i hi
  obtain ⟨hframe, hrosters⟩ := hkept i hi
  exact hst.keeps hlate'.sound (hframe.trans (hothers i hi).1) (hrosters.trans (hothers i hi).2)

end Works

end Store

open Workspace (Works Holds)

namespace Scope

/-- Operations that begin with a scope of a workspace change it from `s` to `s'`. -/
def Performs (s s' : Scope) : Prop :=
  ∀ (w : Workspace) (c : Chain), w.Holds c → w.view c = s → ∃ w' cs, Works w [c] w' cs ∧ w'.view c = s'

variable {s s' t v : Scope}

theorem Performs.refl (s : Scope) : s.Performs s := fun w c _ hview => ⟨w, [c], .refl, hview⟩

/-- One change after another. -/
theorem Performs.trans (hst : s.Performs t) (htv : t.Performs v) : s.Performs v := by
  intro w c hc hview
  obtain ⟨w', cs, hworks, hview'⟩ := hst w c hc hview
  obtain ⟨w'', cs', hworks', hview''⟩ := htv w' c (hworks.holds hc) hview'
  obtain ⟨es, -, hall⟩ := hworks.trans hworks' hworks.subset
  exact ⟨w'', es, hall, hview''⟩

/-- A change that one operation makes. -/
theorem performs_operation (op : Operation) (h : ∀ w, op.apply w s = s') : s.Performs s' := by
  intro w c hc hview
  -- a merge reads other scopes of the workspace, but its result must not depend on them here
  refine ⟨_, _, Works.refl.operate List.mem_cons_self op, ?_⟩
  rw [hc.view_operate, hview, h]

theorem performs_declareLocal {name : Text} (h : s.declareLocal name = .ok s') : s.Performs s' :=
  performs_operation (.declareLocal name) fun w => by rw [Operation.apply, h]; rfl

theorem performs_declareGlobal {name : Text} (h : s.declareGlobal name = .ok s') : s.Performs s' :=
  performs_operation (.declareGlobal name) fun w => by rw [Operation.apply, h]; rfl

theorem performs_updateTop (s : Scope) (name : Text) (g : Symbol → Symbol) :
    s.Performs (s.modifyTop fun f => f.modify name g) :=
  performs_operation (.updateTop name g) fun _ => rfl

/-- What is done with a nested scope shows in the frames around it. -/
theorem Performs.nested (h : s.nest.Performs v) : s.Performs v.unnest := by
  intro w c hc hview
  have hnest : Works w [c] (w.nest c).1 [(w.nest c).2, c] := Works.refl.nest List.mem_cons_self
  obtain ⟨w', cs, hworks, hview'⟩ := h _ _ hc.nest (by rw [hc.view_nest, hview])
  obtain ⟨es, -, hall⟩ := hnest.trans hworks (by simp)
  refine ⟨w', es, hall, ?_⟩
  -- the nested scope has the same frames below its innermost one
  rw [← hview']
  rfl

/-- Binding the parameters of a macro in a new frame. -/
theorem Opens.performs (h : s.Opens t) : s.nest.Performs t := by
  induction h with
  | nest => exact .refl _
  | @bind t t' name value loc _ hbind ih =>
    rw [Expand.bindIn] at hbind
    cases hdeclare : t.declareLocal name with
    | error c =>
      rw [hdeclare] at hbind
      cases hbind
    | ok u =>
      rw [hdeclare] at hbind
      cases hbind
      exact ih.trans ((performs_declareLocal hdeclare).trans (performs_updateTop u name _))

/-- The end of a block. -/
theorem Hoists.performs (h : v.Hoists s') : v.Performs s' := by
  induction h with
  | refl v => exact .refl v
  | @step v s' name sym _ _ _ _ _ ih =>
    exact (performs_operation (.hoist name) fun _ => rfl).trans ih

theorem Performs.copied (h : s.nest.Performs t) {w : Workspace} {c : Chain} (hview : w.view c = s) :
    ∃ w' cs, Works (w.preserve c).1 [(w.preserve c).2] w' cs ∧ w'.view (w.preserve c).2 = t.unnest :=
  h.nested _ _ (w.holds_preserve c) (by rw [w.view_preserve, hview])

/-- A chain of frames that were added. -/
def Added (w w' : Workspace) (d : Chain) : Prop :=
  ∀ i ∈ d.positions, w.frames.length ≤ i ∧ i < w'.frames.length

/-- What can be done while frames are added and the others stay as they are. -/
structure Extends (w : Workspace) (c : Chain) (w' : Workspace) : Prop where
  /-- It is done with the scope. -/
  works : ∃ cs, Works w [c] w' cs
  /-- Frames that were there stay. -/
  frame : ∀ i < w.frames.length, w'.frame i = w.frame i

variable {w w' w'' : Workspace} {c d : Chain}

theorem Extends.view (h : Extends w c w') (hc : w.Holds c) : w'.view c = w.view c :=
  Workspace.view_congr fun i hi => h.frame i (hc.bound i hi)

/-- One extension after another. -/
theorem Extends.trans (h : Extends w c w') (h' : Extends w' c w'') : Extends w c w'' := by
  obtain ⟨cs, hworks⟩ := h.works
  obtain ⟨cs', hworks'⟩ := h'.works
  obtain ⟨es, -, hall⟩ := hworks.trans hworks' hworks.subset
  exact ⟨⟨es, hall⟩, fun i hi => (h'.frame i (hi.trans_le hworks.length_le)).trans (h.frame i hi)⟩

/-- An arm is assembled over a copy of the scope. -/
theorem Performs.extends (h : s.nest.Performs t) (hview : w.view c = s) :
    ∃ w' d, Extends w c w' ∧ Added w w' d ∧ w'.view d = t.unnest := by
  obtain ⟨w', cs, hworks, hview'⟩ := h.copied hview
  have hpreserve : Works w [c] (w.preserve c).1 [(w.preserve c).2, c] :=
    Works.refl.preserve List.mem_cons_self
  obtain ⟨es, -, hall⟩ := hpreserve.trans hworks (by simp)
  -- the frames of the copy are the ones that were added
  refine ⟨w', (w.preserve c).2, ⟨⟨es, hall⟩, hworks.isolated⟩, fun i hi => ?_, hview'⟩
  exact ⟨Workspace.le_of_mem_preserve hi, (hworks.holds (w.holds_preserve c)).bound i hi⟩

/-- Arms are assembled over copies of the scope, one after the other. -/
theorem exists_extends_of_forall {forks : List (Expr × Conditional.Fork)} {ended : Conditional.Fork → Scope}
    (hforks : ∀ arm ∈ forks, s.nest.Performs (ended arm.2))
    (hended : ∀ arm ∈ forks, arm.2.scope = (ended arm.2).unnest) (hc : w.Holds c) (hview : w.view c = s) :
    ∃ w' ds, Extends w c w' ∧
      List.Forall₂ (fun arm d => Added w w' d ∧ w'.view d = arm.2.scope) forks ds := by
  induction forks generalizing w with
  | nil => exact ⟨w, [], ⟨⟨_, .refl⟩, fun _ _ => rfl⟩, .nil⟩
  | cons arm rest ih =>
    rw [List.forall_mem_cons] at hforks hended
    obtain ⟨w', d, hextends, hadded, hd⟩ := hforks.1.extends hview
    obtain ⟨cs, hworks⟩ := hextends.works
    obtain ⟨w'', ds, hextends', hds⟩ := ih hforks.2 hended.2 (hworks.holds hc) ((hextends.view hc).trans hview)
    obtain ⟨cs', hworks'⟩ := hextends'.works
    refine ⟨w'', d :: ds, hextends.trans hextends', .cons ⟨?_, ?_⟩ (hds.imp fun _ e he => ⟨?_, he.2⟩)⟩
    · exact fun i hi => ⟨(hadded i hi).1, (hadded i hi).2.trans_le hworks'.length_le⟩
    · -- the later arms do not reach the frames of this one
      rw [Workspace.view_congr fun i hi => hextends'.frame i (hadded i hi).2, hd, hended.1]
    · exact fun i hi => ⟨hworks.length_le.trans (he.1 i hi).1, (he.1 i hi).2⟩

/-- Merging the arms is done by operations on the scope that read the copies. -/
theorem exists_works_mergeForks {forks : List (Expr × Conditional.Fork)} {ds : List Chain} {fallback : Scope}
    {e : Chain} (hc : w.Holds c) (hds : List.Forall₂ (fun arm d => w.view d = arm.2.scope) forks ds)
    (hapart : ∀ d ∈ ds, d.positions.Disjoint c.positions) (he : w.view e = fallback) :
    ∃ w', Works w [c] w' [c] ∧ (∀ i ∉ c.positions, w'.frame i = w.frame i) ∧
      w'.view c = (Conditional.mergeForks fallback forks (w.view c)).1 := by
  induction hds with
  | nil => exact ⟨w, .refl, fun _ _ => rfl, rfl⟩
  | @cons arm d rest ds hd hrest ih =>
    obtain ⟨test, fork⟩ := arm
    rw [List.forall_mem_cons] at hapart
    obtain ⟨w', hworks, hframe, hview⟩ := ih hapart.2
    -- the copy of the arm is what it was
    have hd' : w'.view d = fork.scope := by
      rw [Workspace.view_congr fun i hi => hframe i fun hi' => hapart.1 hi hi']
      exact hd
    have hmerge : ∀ {u : Workspace} (_ : Works w [c] u [c]) (_ : ∀ i ∉ c.positions, u.frame i = w.frame i)
        (f : Chain), ∃ u', Works w [c] u' [c] ∧ (∀ i ∉ c.positions, u'.frame i = w.frame i) ∧
          u'.view c = ((u.view c).merge test (u.view d) (u.view f)).1 := by
      intro u hu huframe f
      refine ⟨_, hu.operate List.mem_cons_self (.merge test d f), fun i hi => ?_, ?_⟩
      · rw [Workspace.frame_write_of_not_mem hi, huframe i hi]
      · exact (hu.holds hc).view_operate _
    cases rest with
    | nil =>
      obtain ⟨u, hu, huframe, huview⟩ := hmerge .refl (fun _ _ => rfl) e
      refine ⟨u, hu, huframe, ?_⟩
      rw [huview, hd, he]
      rfl
    | cons next rest =>
      rw [Conditional.mergeForks]
      · cases hresult : Conditional.mergeForks fallback (next :: rest) (w.view c) with
        | mk scope failed =>
          rw [hresult] at hview
          cases failed with
          | some cause => exact ⟨w', hworks, hframe, hview⟩
          | none =>
            obtain ⟨u, hu, huframe, huview⟩ := hmerge hworks hframe c
            refine ⟨u, hu, huframe, ?_⟩
            rw [huview, hd', hview]
      · simp

/-- An IF that only the linker can decide works on copies for its arms, and then merges them. -/
theorem performs_fork {forks : List (Expr × Conditional.Fork)} {ended : Conditional.Fork → Scope}
    (hforks : ∀ arm ∈ forks, s.nest.Performs (ended arm.2))
    (hended : ∀ arm ∈ forks, arm.2.scope = (ended arm.2).unnest) {last : Option Scope}
    (hlast : ∀ t ∈ last, s.nest.Performs t) :
    s.Performs (Conditional.mergeForks ((last.map Scope.unnest).getD s) forks s).1 := by
  intro w c hc hview
  obtain ⟨w', ds, hextends, hds⟩ := exists_extends_of_forall hforks hended hc hview
  obtain ⟨cs, hworks⟩ := hextends.works
  have hc' := hworks.holds hc
  have hview' := (hextends.view hc).trans hview
  -- what is taken if no test holds is an arm like the others, or the scope as it is
  obtain ⟨u, e, hlater, he⟩ : ∃ u e, Extends w' c u ∧ u.view e = (last.map Scope.unnest).getD s := by
    cases last with
    | none => exact ⟨w', c, ⟨⟨_, .refl⟩, fun _ _ => rfl⟩, hview'⟩
    | some t =>
      obtain ⟨u, e, hextends, -, he⟩ := (hlast t rfl).extends hview'
      exact ⟨u, e, hextends, he⟩
  obtain ⟨cs', hworks'⟩ := hlater.works
  have hchains : List.Forall₂ (fun arm d => u.view d = arm.2.scope) forks ds := by
    refine hds.imp fun arm d hd => ?_
    rw [Workspace.view_congr fun i hi => hlater.frame i (hd.1 i hi).2, hd.2]
  have hadded : ∀ d ∈ ds, Added w w' d := ((List.forall₂_and_left _ _).1 hds.flip).1
  have hapart : ∀ d ∈ ds, d.positions.Disjoint c.positions := fun d hd i hi hi' =>
    absurd (hc.bound i hi') (Nat.not_lt.2 (hadded d hd i hi).1)
  obtain ⟨u', hmerges, -, hmerged⟩ := exists_works_mergeForks (hworks'.holds hc') hchains hapart he
  obtain ⟨es, hes, hall⟩ := hworks.trans hworks' hworks.subset
  obtain ⟨es', -, hall⟩ := hall.trans hmerges hall.subset
  refine ⟨u', es', hall, ?_⟩
  rw [hmerged, hlater.view hc', hview']

variable {gone : Text → Prop} {ok : Macro → Prop}

/-- All that is done to a scope is done by operations on shared frames. -/
theorem Unfolds.performs (h : Unfolds gone ok s s') : s.Performs s' := by
  induction h with
  | refl s => exact .refl s
  | trans _ _ ihst ihtv => exact ihst.trans ihtv
  | modify s name g _ => exact performs_operation (.update name g) fun _ => rfl
  | modifyRoot s name g _ => exact performs_operation (.updateRoot name g) fun _ => rfl
  | declareAhead _ h => exact performs_declareLocal h
  | declareLocal h loc => exact (performs_declareLocal h).trans (performs_updateTop _ _ _)
  | declareGlobal h => exact performs_declareGlobal h
  | define _ h value loc =>
    exact (performs_declareGlobal h).trans (performs_operation (.update _ _) fun _ => rfl)
  | remove _ _ _ => exact performs_operation (.remove _) fun _ => rfl
  | defineMacro h _ _ loc => exact (performs_declareLocal h).trans (performs_updateTop _ _ _)
  | block hopens _ hends ih =>
    -- a nested scope shares all frames but its own with the scope around it
    exact (hopens.performs.trans (ih.trans hends.performs)).nested
  | fork s forks ran ended _ hends hended last _ hlastEnds ihforks ihlast =>
    refine performs_fork (fun arm harm => (ihforks arm harm).trans (hends arm harm).performs) hended
      fun t ht => ?_
    obtain ⟨r, hr, rfl⟩ := Option.map_eq_some_iff.1 ht
    exact (ihlast r hr).trans (hlastEnds r hr).performs

end Scope

namespace Reachable

open Conditional

variable {a : Assembler} {w : Workbench} {s : State}

/-- Arms are isolated. Wherever a program is, assembling an arm leaves the scope as it was, whether the arm fails
or not. All that the arm does, up to its end or to a fatal diagnostic, is done by operations on a copy of the
scope and on scopes that are nested in the copy. And no operations on a copy of a scope, on scopes that are
nested in it, or on copies of these change a frame that was there before the copy. The same holds of frames whose
symbols are in cells: none of these operations changes the names of a frame that was there before, their cells, or
what the cells hold. -/
theorem prospect_isolated (h : Reachable a w s) (body : List Token) :
    (∀ out, ((prospect w body).exec (out, s)).2.2.scope = s.scope) ∧
    (∀ run, w.runner = some run → ∀ b t, t.scope = s.scope.nest →
      ∀ (k : Workspace) (c : Chain), k.Holds c → k.view c = s.scope →
        ∃ k' cs, Works (k.preserve c).1 [(k.preserve c).2] k' cs ∧
          k'.view (k.preserve c).2 = ((collect run b body).run t).2.scope.unnest ∧
          k'.view c = s.scope) ∧
    (∀ (k : Workspace) (c : Chain) k' cs, Works (k.preserve c).1 [(k.preserve c).2] k' cs →
      ∀ i < k.frames.length, k'.frame i = k.frame i) ∧
    (∀ run, w.runner = some run → ∀ b t, t.scope = s.scope.nest →
      ∀ (st : Store) (c : Chain), st.Sound → st.view c = s.scope →
        ∃ st' cs, Store.Works (st.preserve c) [st.copied c] st' cs ∧
          st'.view (st.copied c) = ((collect run b body).run t).2.scope.unnest ∧
          ∀ i < st.count, st.Keeps st' i) ∧
    ∀ (st : Store) (c : Chain) st' cs, st.Sound → Store.Works (st.preserve c) [st.copied c] st' cs →
      ∀ i < st.count, st.Keeps st' i := by
  have harm : ∀ run, w.runner = some run → ∀ b t, t.scope = s.scope.nest → ∀ (k : Workspace) (c : Chain),
      k.view c = s.scope → ∃ k' cs, Works (k.preserve c).1 [(k.preserve c).2] k' cs ∧
        k'.view (k.preserve c).2 = ((collect run b body).run t).2.scope.unnest := by
    intro run hrun b t ht k c hview
    have hsound : Grammar.any.Sound t.scope := by
      rw [ht]
      exact Grammar.sound_any (h.wellFormed.of_opens .nest)
    obtain ⟨⟨v, hevolves, hends⟩, -⟩ :=
      Grammar.leads_collect (h.equips.runner run hrun) b (fun t (_ : t ∈ body) => trivial) hsound
    rw [ht] at hevolves
    exact (hevolves.performs.trans hends.performs).copied hview
  refine ⟨fun out => (exec_prospect w body (out, s)).2.1, fun run hrun b t ht k c hc hview => ?_,
    fun k c k' cs hworks => hworks.isolated, fun run hrun b t ht st c hst hview => ?_,
    fun st c st' cs hst hworks => hworks.isolated hst⟩
  · obtain ⟨k', cs, hworks, hend⟩ := harm run hrun b t ht k c hview
    refine ⟨k', cs, hworks, hend, ?_⟩
    -- the scope is made of frames that were there before the copy
    rw [Workspace.view_congr fun i hi => hworks.isolated i (hc.bound i hi), hview]
  · -- the store holds what a workspace does, and what is done there is done with the store
    have hmatches := hst.matches
    obtain ⟨k', cs, hworks, hend⟩ := harm run hrun b t ht st.workspace c (hmatches.view_eq c ▸ hview)
    obtain ⟨hcopy, hchain, -⟩ := hmatches.preserve c
    obtain ⟨st', hst', hmatches', -⟩ :=
      hcopy.exists_works (List.forall_mem_singleton.2 (Workspace.holds_preserve _ c)) hworks
    rw [← hchain] at hst' hend
    refine ⟨st', cs, hst', ?_, hst'.isolated hst⟩
    rw [hmatches'.view_eq, hend]

/-- The frames at the beginning of a program. -/
def firstFrames : Workspace := ⟨[Scope.initial.root, Frame.empty], [], 0⟩

/-- The scope of these frames. -/
def firstChain : Chain := ⟨0, [1]⟩

/-- `X DEFINE 5`. -/
def definingArm : List Token :=
  [.assign Location.none .define (.identifier Location.none "X") (.literal Location.none 5)]

/-- An arm that defines X for the whole program does so in its copy of the root frame. -/
theorem prospect_isolated_definingArm :
    ∃ k' cs, Works (firstFrames.preserve firstChain).1 [(firstFrames.preserve firstChain).2] k' cs ∧
      (k'.view (firstFrames.preserve firstChain).2).root.contains "X" = true ∧
      k'.view firstChain = (Assembler.start Scope.initial).scope := by
  have hreachable : Reachable (.bare 1)
      ⟨.bare 1, Assembler.outermost (.bare 1), Assembler.runner (.bare 1) 1⟩
      (Assembler.start Scope.initial) :=
    .start Scope.initial (by decide +kernel) fun f hf => absurd hf List.not_mem_nil
  obtain ⟨k', cs, hworks, hview, hscope⟩ := (prospect_isolated hreachable definingArm).2.1 _ rfl
    (Assembler.outermost (.bare 1)) (State.start (Assembler.start Scope.initial).scope.nest) rfl firstFrames firstChain
    ⟨by decide, by decide⟩ rfl
  refine ⟨k', cs, hworks, ?_, hscope⟩
  rw [hview]
  decide +kernel

end Reachable

end MacroAsm
