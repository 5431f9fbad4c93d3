import MacroAsm.Proofs.Assembly.Reachable

/-!
# Hygiene of expansions

What a nested block binds in a frame of its own goes away with the frame. Of what it does to the frames around
it, the names are looked at here. Nothing that is done to a scope enters a name below its innermost frame
(`Scope.Unfolds.confined`), so the frames of the caller get a name only where a name that the block waits for
moves to the caller at the end of the block. Such a name holds nothing.

Macro calls, the iterations of a DUP and IFs are expansions in this sense, and all of them are hygienic
(`Reachable.hygienic_expansions`). So what they are the first to name is bound to nothing in the frames of the caller
(`Reachable.isSetAt_of_entered`).
-/

namespace MacroAsm

namespace Frame

/-- Every name of the second frame is one of the first. -/
def Confines (f f' : Frame) : Prop := ∀ name, f'.contains name = true → f.contains name = true

/-- Every name that the second frame binds to a value or a macro is one of the first. -/
def Shields (f f' : Frame) : Prop := ∀ name, f'.isSetAt name = true → f.contains name = true

variable {o f f' h : Frame} {name : Text}

theorem Confines.refl (f : Frame) : f.Confines f := fun _ h => h

theorem Confines.trans (hf : f.Confines f') (hf' : f'.Confines h) : f.Confines h :=
  fun name hname => hf name (hf' name hname)

/-- A name that is set is there. -/
theorem contains_of_isSetAt (hset : f.isSetAt name = true) : f.contains name = true := by
  unfold isSetAt at hset
  unfold contains
  cases hfind : f.find? name with
  | none => simp [hfind] at hset
  | some sym => rfl

theorem Confines.shields (hf : f.Confines f') : f.Shields f' :=
  fun name hname => hf name (contains_of_isSetAt hname)

/-- Changing a symbol enters no name. -/
theorem confines_modify (f : Frame) (name : Text) (g : Symbol → Symbol) :
    f.Confines (f.modify name g) := by
  intro other hother
  rwa [contains_modify] at hother

/-- Removing a name enters none. -/
theorem confines_erase (f : Frame) (name : Text) : f.Confines (f.erase name) := by
  intro other hother
  rw [contains_iff_mem_names] at hother ⊢
  exact (List.eraseP_sublist.map Prod.fst).subset hother

/-- A name that is there already may be entered. -/
theorem Confines.insert (hf : o.Confines f) (hname : o.contains name = true) (sym : Symbol) :
    o.Confines (f.insert name sym) := by
  intro other hother
  unfold contains at hother
  rw [find?_insert] at hother
  split at hother
  · rename_i heq
    exact heq ▸ hname
  · exact hf other hother

/-- Changing a symbol without setting it sets no name. -/
theorem Shields.modify (hf : o.Shields f) {g : Symbol → Symbol}
    (hg : ∀ sym, (g sym).isSet = sym.isSet) : o.Shields (f.modify name g) := by
  intro other hother
  refine hf other ?_
  unfold isSetAt at hother ⊢
  rw [find?_modify] at hother
  split at hother
  · simpa only [Option.map_map, show Symbol.isSet ∘ g = Symbol.isSet from funext hg] using hother
  · exact hother

/-- A name that is there already may be set, and a name that holds nothing may be entered. -/
theorem Shields.insert (hf : o.Shields f) {sym : Symbol}
    (hname : sym.isSet = true → o.contains name = true) : o.Shields (f.insert name sym) := by
  intro other hother
  unfold isSetAt at hother
  rw [find?_insert] at hother
  split at hother
  · rename_i heq
    exact heq ▸ hname hother
  · exact hf other hother

end Frame

namespace Scope

section Merge

variable {test : Expr} {o onTrue onFalse here : Frame} {name : Text} {r : Frame × Option Cause}

/-- Merging a name enters it only where it is in the frame or in that of an arm. -/
theorem MergeStep.confines (htrue : o.Confines onTrue) (hfalse : o.Confines onFalse)
    (hhere : o.Confines here) (h : MergeStep test onTrue onFalse here name r) : o.Confines r.1 := by
  have hfound : ∀ {f : Frame} {sym : Symbol}, o.Confines f → f.find? name = some sym →
      o.contains name = true := by
    intro f sym hf hsym
    refine hf name ?_
    rw [Frame.contains, hsym]
    rfl
  cases h with
  | reserved | unbalanced | absent => exact hhere
  | removed => exact hhere.trans (Frame.confines_erase here name)
  | both _ hts _ _ _ _ | clash _ hts _ _ _ => exact hhere.insert (hfound htrue hts) _
  | declared _ _ _ _ hsome =>
    refine hhere.insert ?_ _
    rcases hsome with hsome | hsome | hsome
    · exact hhere name hsome
    · exact htrue name hsome
    · exact hfalse name hsome

theorem isSet_carry (dst : Symbol) (src : Option Symbol) : (carry dst src).isSet = dst.isSet := by
  cases src <;> rfl

/-- Merging a name sets it only where the frame or that of an arm does. -/
theorem MergeStep.shields (htrue : o.Shields onTrue) (hhere : o.Shields here)
    (h : MergeStep test onTrue onFalse here name r) : o.Shields r.1 := by
  have harm : ∀ {ts : Symbol}, onTrue.find? name = some ts → ts.isSet = true →
      o.contains name = true := by
    intro ts hts hset
    refine htrue name ?_
    rw [Frame.isSetAt, hts]
    exact hset
  cases h with
  | reserved | unbalanced | absent => exact hhere
  | removed _ _ _ hset =>
    intro other hother
    -- a name that was set in the frame was confined already, whether or not it is removed from it
    by_cases heq : other = name
    · exact heq ▸ hhere name hset
    · refine hhere other ?_
      rwa [Frame.isSetAt, Frame.find?_erase_of_ne heq] at hother
  | both _ hts _ hset _ _ => exact hhere.insert fun _ => harm hts hset
  | clash _ hts _ hset _ => exact hhere.insert fun _ => harm hts hset
  | declared _ _ _ hunset _ =>
    refine hhere.insert fun hset => ?_
    rw [isSet_carry, isSet_carry] at hset
    rw [Frame.isSetAt] at hunset
    cases hfind : here.find? name with
    | none =>
      rw [hfind] at hset
      cases hset
    | some sym =>
      rw [hfind] at hset hunset
      exact absurd hset (Bool.eq_false_iff.1 hunset)

end Merge

/-- In the frames of the open units below the innermost one there is no new name. -/
def Confined (s s' : Scope) : Prop := List.Forall₂ Frame.Confines s.inner.tail s'.inner.tail

/-- What an expansion leaves of the frames of the open units. -/
structure Hygienic (s s' : Scope) : Prop where
  /-- What a frame binds to a value or a macro was in that frame before. -/
  bound : List.Forall₂ Frame.Shields s.inner s'.inner
  /-- A name that is new in a frame is in the innermost one. -/
  lower : s.Confined s'

variable {s s' t v v' : Scope}

theorem Confined.refl (s : Scope) : s.Confined s := List.forall₂_same.2 fun f _ => .refl f

theorem Confined.trans (hst : s.Confined s') (htv : s'.Confined t) : s.Confined t :=
  forall₂_trans (R := Frame.Confines) (fun _ _ _ h h' => h.trans h') hst htv

/-- Where no frame gets a name, none below the innermost one does. -/
theorem Confined.of_forall₂ (h : List.Forall₂ Frame.Confines s.inner s'.inner) : s.Confined s' := by
  unfold Confined
  rw [← List.drop_one, ← List.drop_one]
  exact List.forall₂_drop 1 h

theorem Hygienic.refl (s : Scope) : s.Hygienic s :=
  ⟨List.forall₂_same.2 fun f _ => (Frame.Confines.refl f).shields, .refl s⟩

/-- A name that no frame had is bound to nothing in any of them. -/
theorem Hygienic.isSetAt_eq_false (h : s.Hygienic s') {name : Text} (hname : ∀ f ∈ s.inner, f.contains name = false) :
    ∀ f ∈ s'.inner, f.isSetAt name = false := by
  intro f hf
  obtain ⟨old, hold, hshields⟩ := exists_of_forall₂ h.bound.flip hf
  by_contra hset
  have hcontains := hshields name (by simpa using hset)
  rw [hname old hold] at hcontains
  cases hcontains

/-- Only the innermost frame changes. -/
theorem confined_modifyTop (s : Scope) (g : Frame → Frame) : s.Confined (s.modifyTop g) := by
  have htail : (s.modifyTop g).inner.tail = s.inner.tail := by
    unfold modifyTop
    cases hinner : s.inner with
    | nil => simp
    | cons f rest => rfl
  rw [Confined, htail]
  exact List.forall₂_same.2 fun f _ => .refl f

/-- A change of the frame of a name that enters no name. -/
theorem forall₂_modifyFrameOf (s : Scope) (name : Text) {g : Frame → Frame} (hg : ∀ f : Frame, f.Confines (g f)) :
    List.Forall₂ Frame.Confines s.inner (s.modifyFrameOf name g).inner :=
  (modifyFrameOf_rel (Q := fun _ _ => True) Frame.Confines.refl (fun _ => trivial)
    (fun f _ _ _ _ => hg f) fun _ _ _ => trivial).1

/-- Declaring a name enters it in the innermost frame. -/
theorem confined_declareLocal {name : Text} (h : s.declareLocal name = .ok s') : s.Confined s' := by
  cases (declareLocal_eq_ok h).2 with
  | kept => exact .refl s
  | entered => exact confined_modifyTop s _

/-- Declaring a name in the root frame enters none in the others. -/
theorem confined_declareGlobal {name : Text} (h : s.declareGlobal name = .ok s') : s.Confined s' := by
  cases declareGlobal_eq_ok h with
  | kept | promoted | entered => exact .refl s
  | moved =>
    exact .of_forall₂ (modifyOwner_forall₂ Frame.Confines.refl fun f _ _ _ _ => Frame.confines_erase f name)

/-- Names that move at the end of a block hold nothing, and they move to the frame below. -/
theorem Hoists.hygienic {fs : List Frame} (h : v.Hoists v')
    (hbound : List.Forall₂ Frame.Shields fs v.inner.tail)
    (hlower : List.Forall₂ Frame.Confines fs.tail v.inner.tail.tail) :
    List.Forall₂ Frame.Shields fs v'.inner.tail ∧
      List.Forall₂ Frame.Confines fs.tail v'.inner.tail.tail := by
  induction h with
  | refl v => exact ⟨hbound, hlower⟩
  | @step v v' name sym hfind _ hunset _ _ ih =>
    rw [hoist.eq_def] at ih
    split at ih
    · rename_i f below rest hinner
      rw [top, hinner, List.headD_cons] at hfind
      rw [hinner] at hbound hlower
      rw [hfind] at ih
      cases hbound with
      | cons hbelow hrest =>
        -- only the frame right below the one of the block changes
        refine ih (.cons ?_ hrest) hlower
        split
        · exact hbelow.modify fun _ => rfl
        · exact hbelow.insert fun hset => absurd hset (Bool.eq_false_iff.1 hunset)
    · exact ih hbound hlower

/-- A block that is assembled over a frame of its own is hygienic, if no frame below it gets a name while it
runs. -/
theorem hygienic_unnest (hopens : s.Opens t) (hrun : t.Confined v) (hends : v.Hoists v') :
    s.Hygienic v'.unnest := by
  obtain ⟨f, -, rfl⟩ := hopens.exists_top
  have hrun : List.Forall₂ Frame.Confines s.inner v.inner.tail := hrun
  have hconfined : s.Confined v.unnest := Confined.of_forall₂ hrun
  -- while the block runs, all frames but its own are confined; names come at its end only
  obtain ⟨hbound, hlower⟩ := hends.hygienic (hrun.imp fun _ _ hf => hf.shields) hconfined
  exact ⟨hbound, hlower⟩

/-- Merging the frames of open units leaves those after the first as they are, or merges them. -/
theorem tail_mergeInner (test : Expr) (hs ts fs : List Frame) :
    (mergeInner test hs ts fs).1.tail = hs.tail ∨
      (mergeInner test hs ts fs).1.tail = (mergeInner test hs.tail ts.tail fs.tail).1 := by
  rw [mergeInner.eq_def]
  split
  · rename_i here hs t ts f fs
    dsimp only
    cases mergeNames test t f (addNames (addNames here.names t.unsetNames) f.unsetNames) here with
    | mk here' c =>
      cases c with
      | none => exact Or.inr rfl
      | some c => exact Or.inl rfl
  · exact Or.inl rfl

/-- Below the innermost frame a merge leaves the frames as they are, or merges those of the arms. -/
theorem tail_inner_merge (here : Scope) (test : Expr) (onTrue onFalse : Scope) :
    (here.merge test onTrue onFalse).1.inner.tail = here.inner.tail ∨
      (here.merge test onTrue onFalse).1.inner.tail =
        (mergeInner test here.inner.tail onTrue.inner.tail onFalse.inner.tail).1 := by
  have hinner := tail_mergeInner test here.inner onTrue.inner onFalse.inner
  rw [merge]
  split
  · exact Or.inl rfl
  · split <;> rename_i hmerge <;> rw [hmerge] at hinner <;> exact hinner

/-- Merging two arms that are hygienic is hygienic. -/
theorem Hygienic.merge {here onTrue onFalse : Scope} (hhere : s.Hygienic here) (test : Expr)
    (htrue : s.Hygienic onTrue) (hfalse : s.Hygienic onFalse) :
    s.Hygienic (here.merge test onTrue onFalse).1 where
  bound := (merge_rec (Q := fun _ _ => True)
    (fun _ _ _ _ _ _ ht _ hh hstep => hstep.shields ht hh) (fun _ _ _ _ _ _ _ _ _ _ => trivial)
    ⟨hhere.bound, trivial⟩ ⟨htrue.bound, trivial⟩ ⟨hfalse.bound, trivial⟩).inner
  lower := by
    -- the innermost frames of the arms may have names that `here` has not, so the merge is
    -- followed from the second frame on
    rw [Confined]
    rcases tail_inner_merge here test onTrue onFalse with heq | heq
    · rw [heq]
      exact hhere.lower
    · rw [heq]
      exact mergeInner_rec (fun _ _ _ _ _ _ ht hf hh hstep => hstep.confines ht hf hh)
        hhere.lower htrue.lower hfalse.lower

variable {gone : Text → Prop} {ok : Macro → Prop}

/-- Nothing that is done to a scope enters a name below its innermost frame. -/
theorem Unfolds.confined (h : Unfolds gone ok s s') : s.Confined s' := by
  induction h with
  | refl s => exact .refl s
  | trans _ _ ihst ihtv => exact ihst.trans ihtv
  | modify s name g _ =>
    exact .of_forall₂ (forall₂_modifyFrameOf s name fun f => Frame.confines_modify f name g)
  | modifyRoot s name g _ => exact .refl s
  | declareAhead _ h => exact confined_declareLocal h
  | declareLocal h loc => exact (confined_declareLocal h).trans (confined_modifyTop _ _)
  | declareGlobal h => exact confined_declareGlobal h
  | define _ h value loc =>
    exact (confined_declareGlobal h).trans
      (.of_forall₂ (forall₂_modifyFrameOf _ _ fun f => Frame.confines_modify f _ _))
  | remove _ _ _ =>
    exact .of_forall₂ (forall₂_modifyFrameOf _ _ fun f => Frame.confines_erase f _)
  | defineMacro h _ _ loc => exact (confined_declareLocal h).trans (confined_modifyTop _ _)
  | block hopens _ hends ih =>
    -- the frame of the block was the innermost one, so what it confined is all of the caller's
    exact (hygienic_unnest hopens ih hends).lower
  | fork s forks ran ended _ hends hended last _ hlastEnds ihforks ihlast =>
    -- each arm is a block of its own, and confinement alone would not be kept by a merge
    refine (mergeForks_rec (P := s.Hygienic) (fun here test _ _ hh ht hf => hh.merge test ht hf)
      (.refl s) ?_ fun arm harm => ?_).lower
    · cases last with
      | none => exact .refl s
      | some t => exact hygienic_unnest .nest (ihlast t rfl) (hlastEnds t rfl)
    · rw [hended arm harm]
      exact hygienic_unnest .nest (ihforks arm harm) (hends arm harm)

/-- An expansion that begins after a change which entered no name is hygienic from before the change. -/
theorem Hygienic.after (hst : List.Forall₂ Frame.Confines s.inner s'.inner) (h : s'.Hygienic t) :
    s.Hygienic t where
  bound := by
    refine List.forall₂_iff_get.2 ⟨hst.length_eq.trans h.bound.length_eq, fun i h₁ h₂ name hname => ?_⟩
    have hi : i < s'.inner.length := hst.length_eq ▸ h₁
    exact (List.forall₂_iff_get.1 hst).2 i h₁ hi name
      ((List.forall₂_iff_get.1 h.bound).2 i hi h₂ name hname)
  lower := (Confined.of_forall₂ hst).trans h.lower

end Scope

section Expansions

variable {w : Workbench} {p : Output × State}

/-- A handling that goes on after one which leaves the scope as it is. -/
theorem Scope.Hygienic.bind {α : Type} {e : Emission α} {k : α → Emission PUnit}
    (hscope : (e.exec p).2.2.scope = p.2.scope)
    (hk : ∀ a q, e.exec p = (.ok a, q) → q.2.scope = p.2.scope →
      q.2.scope.Hygienic ((k a).exec q).2.2.scope) :
    p.2.scope.Hygienic ((e >>= k).exec p).2.2.scope := by
  cases hexec : e.exec p with
  | mk r q =>
    rw [hexec] at hscope
    cases r with
    | ok a =>
      rw [Emission.exec_bind_of_ok hexec, ← hscope]
      exact hk a q hexec hscope
    | error f =>
      rw [Emission.exec_bind_of_error hexec, hscope]
      exact .refl _

/-- A handling that begins by reading the scope. -/
theorem Scope.Hygienic.scope {k : Scope → Emission PUnit}
    (hk : p.2.scope.Hygienic ((k p.2.scope).exec p).2.2.scope) :
    p.2.scope.Hygienic ((do k (← (liftM Act.scope : Emission Scope))).exec p).2.2.scope := by
  rwa [Emission.exec_bind_of_ok (Emission.exec_scope p)]

/-- A handling that goes on with the result of a computation. -/
theorem Scope.Hygienic.require {α : Type} {x : Except Cause α} {k : α → Emission PUnit}
    (hk : ∀ a, x = .ok a → p.2.scope.Hygienic ((k a).exec p).2.2.scope) :
    p.2.scope.Hygienic ((do k (← Emission.require x)).exec p).2.2.scope := by
  cases x with
  | ok a => exact hk a rfl
  | error c => exact .refl _

/-- A statement that is expanded into a block over a frame of its own. -/
theorem Scope.hygienic_expand (hw : Grammar.any.Equips w) {run : Runner} (hrun : w.runner = some run)
    (b : Block) {scope : Scope} (hs : p.2.scope.WellFormed) (hopens : p.2.scope.Opens scope)
    (body : List Token) (macroCall : Bool) :
    p.2.scope.Hygienic ((Expand.expand run b scope body macroCall).exec p).2.2.scope := by
  -- where the block leads, before and after its names are accounted for
  obtain ⟨v, v', hevolves, hends, heq⟩ := Grammar.exists_of_expand (hw.runner run hrun) b
    (Grammar.sound_any (hs.of_opens hopens)) (fun t (_ : t ∈ body) => trivial) macroCall p
  rw [heq]
  exact hygienic_unnest hopens hevolves.confined hends

/-- A statement for which a runner is needed and a block gets its name. -/
theorem Scope.hygienic_fresh {naming : Naming} {args : List Expr} {inMacro : Bool} {k : Runner → Block → Emission PUnit}
    (hk : ∀ run b (q : Output × State), w.runner = some run → q.2.scope = p.2.scope →
      q.2.scope.Hygienic ((k run b).exec q).2.2.scope) :
    p.2.scope.Hygienic ((do
      let run ← w.requireRunner
      let b ← (liftM (Block.fresh naming args inMacro) : Emission Block)
      k run b).exec p).2.2.scope := by
  have hrequire : (w.requireRunner.exec p).2 = p ∧
      ∀ run, (w.requireRunner.exec p).1 = .ok run → w.runner = some run := by
    rw [Workbench.requireRunner]
    cases w.runner with
    | none => exact ⟨rfl, fun run h => by cases h⟩
    | some run => exact ⟨rfl, fun run' h => by cases h; rfl⟩
  refine Hygienic.bind (by rw [hrequire.1]) fun run q hexec hq => ?_
  -- giving the block a name changes the supply of names, and not the scope
  refine Hygienic.bind rfl fun b r _ hr => hk run b r (hrequire.2 run ?_) (hr.trans hq)
  rw [hexec]

/-- A macro call. -/
theorem Expand.hygienic_call (hw : Grammar.any.Equips w) (hs : p.2.scope.WellFormed) (strict : Bool)
    (item : Item) (d : Dispatch) :
    p.2.scope.Hygienic ((Expand.call w strict item d).exec p).2.2.scope := by
  rw [Expand.call]
  refine .scope ?_
  split
  · exact .refl _
  · rename_i name m _
    split
    · split <;> exact .refl _
    · -- from here on the macro counts as used
      obtain ⟨q, hq⟩ : ∃ q : Output × State, q = (p.1, { p.2 with
          scope := p.2.scope.modify name fun sym => { sym with used := true } }) := ⟨_, rfl⟩
      have hused : (liftM (Act.modifyScope fun s => s.modify name fun sym => { sym with used := true }) :
          Emission PUnit).exec p = (.ok ⟨⟩, q) := hq ▸ rfl
      have hconfines : List.Forall₂ Frame.Confines p.2.scope.inner q.2.scope.inner :=
        hq ▸ Scope.forall₂_modifyFrameOf p.2.scope name fun f => Frame.confines_modify f name _
      have hchanges : ∀ sym : Symbol, sym.Changes { sym with used := true } :=
        fun _ => ⟨rfl, rfl, rfl, rfl, fun _ => rfl, id, Or.inl rfl⟩
      have hwell : q.2.scope.WellFormed :=
        hq ▸ (Scope.preserved_modify hs fun sym _ => hchanges sym).wellFormed
      rw [Emission.exec_bind_of_ok hused]
      refine .after hconfines ?_
      split
      · exact .refl _
      · refine Scope.hygienic_fresh fun run b r hrun hr => .scope (.require fun scope hscope => ?_)
        exact Scope.hygienic_expand hw hrun b (hr ▸ hwell) (Scope.opens_bindAll .nest hscope) m.body true

/-- An iteration of a DUP. -/
theorem Replay.hygienic_turn (hw : Grammar.any.Equips w) (hs : p.2.scope.WellFormed) (l : Replay.Loop)
    (k : Nat) (value : Option Expr) :
    p.2.scope.Hygienic ((l.turn w k value).exec p).2.2.scope := by
  rw [Replay.Loop.turn]
  refine Scope.hygienic_fresh fun run b q hrun hq => .scope (.require fun scope hscope => ?_)
  exact Scope.hygienic_expand hw hrun b (hq ▸ hs) (Scope.opens_loop hscope) l.body false

open Conditional in
/-- The arms of an undecided IF, each over a copy of the scope. -/
theorem Conditional.hygienic_undecided (hw : Grammar.any.Equips w) (hs : p.2.scope.WellFormed)
    (loc : Location) {arms : Arms} (hforks : ∀ arm ∈ arms.forks, ∃ body, IsArm w p.2.scope body arm.2) :
    p.2.scope.Hygienic ((undecided w loc arms).exec p).2.2.scope := by
  have harm : ∀ {body : List Token} {fork : Fork}, IsArm w p.2.scope body fork →
      p.2.scope.Hygienic fork.scope := by
    intro body fork h
    obtain ⟨⟨t, t', ht, hends, heq⟩, -⟩ :=
      Grammar.evolves_of_isArm hw (Grammar.sound_any hs) (fun _ _ => trivial) h
    rw [heq]
    exact Scope.hygienic_unnest .nest ht.confined hends
  rcases exec_undecided w loc arms p with ⟨f, s, hexec, hscope, -⟩ | ⟨final, s, hfinal, hscope, hexec⟩
  · rw [hexec, ← hscope]
    exact .refl _
  · have hmerged : p.2.scope.Hygienic
        (mergeForks ((final.map Fork.scope).getD s.scope) arms.forks s.scope).1 := by
      rw [hscope]
      refine Scope.mergeForks_rec (P := p.2.scope.Hygienic) (fun here test _ _ hh ht hf => hh.merge test ht hf)
        (.refl _) ?_ fun arm h => ?_
      · cases final with
        | none => exact .refl _
        | some fork =>
          obtain ⟨body, -, h⟩ := hfinal.isArm fork rfl
          exact harm h
      · obtain ⟨body, hbody⟩ := hforks arm h
        exact harm hbody
    rw [hexec, exec_conclude loc arms.forks final _ s rfl]
    split <;> exact hmerged

open Conditional in
/-- An IF. -/
theorem Conditional.hygienic_assemble (hw : Grammar.any.Equips w) (hs : p.2.scope.WellFormed)
    (loc : Location) (clauses : List Clause) (otherwise : Option (List Token)) :
    p.2.scope.Hygienic ((assemble w loc clauses otherwise).exec p).2.2.scope := by
  -- sifting the clauses runs arms over copies, and leaves the scope as it is
  obtain ⟨-, hscope, hsifted⟩ := exec_sift w otherwise clauses p
  refine .bind hscope fun arms q hexec hq => ?_
  rw [hexec] at hsifted
  split
  · refine hygienic_undecided hw (hq ▸ hs) loc fun arm harm => ?_
    rw [hq]
    obtain ⟨body, -, h⟩ := (Grammar.sifted_forall (g := Grammar.any) (hsifted arms rfl)
      (fun _ _ _ _ => trivial) (fun _ _ _ _ => trivial)).1 arm harm
    exact ⟨body, h⟩
  · split
    · exact .refl _
    · refine Scope.hygienic_fresh fun run b r hrun hr => .scope ?_
      exact Scope.hygienic_expand hw hrun b (hr ▸ hq ▸ hs) .nest _ false

end Expansions

namespace Reachable

variable {a : Assembler} {w : Workbench} {s : State}

/-- Expansions are hygienic wherever they happen. After a macro call, an iteration of a DUP or an IF, what a
frame of the caller binds to a value or a macro was in that frame before, and a name that is new in a frame of
the caller holds nothing and is in the innermost one. -/
theorem hygienic_expansions (h : Reachable a w s) (out : Output) :
    (∀ strict item d, s.scope.Hygienic ((Expand.call w strict item d).exec (out, s)).2.2.scope) ∧
      (∀ l k value, s.scope.Hygienic ((Replay.Loop.turn w l k value).exec (out, s)).2.2.scope) ∧
      ∀ loc clauses otherwise,
        s.scope.Hygienic ((Conditional.assemble w loc clauses otherwise).exec (out, s)).2.2.scope :=
  ⟨Expand.hygienic_call (p := (out, s)) h.equips h.wellFormed,
    Replay.hygienic_turn (p := (out, s)) h.equips h.wellFormed,
    Conditional.hygienic_assemble (p := (out, s)) h.equips h.wellFormed⟩

/-- A name that an expansion is the first to enter is of no use to the caller: after a macro call, an iteration of a
DUP or an IF, no frame of the caller binds it to a value or a macro. -/
theorem isSetAt_of_entered (h : Reachable a w s) (out : Output) {name : Text}
    (hname : ∀ f ∈ s.scope.inner, f.contains name = false) :
    (∀ strict item d, ∀ f ∈ ((Expand.call w strict item d).exec (out, s)).2.2.scope.inner,
        f.isSetAt name = false) ∧
      (∀ l k value, ∀ f ∈ ((Replay.Loop.turn w l k value).exec (out, s)).2.2.scope.inner,
        f.isSetAt name = false) ∧
      ∀ loc clauses otherwise, ∀ f ∈ ((Conditional.assemble w loc clauses otherwise).exec (out, s)).2.2.scope.inner,
        f.isSetAt name = false := by
  refine ⟨fun strict item d => ?_, fun l k value => ?_, fun loc clauses otherwise => ?_⟩
  · exact (Expand.hygienic_call (p := (out, s)) h.equips h.wellFormed strict item d).isSetAt_eq_false hname
  · exact (Replay.hygienic_turn (p := (out, s)) h.equips h.wellFormed l k value).isSetAt_eq_false hname
  · exact (Conditional.hygienic_assemble (p := (out, s)) h.equips h.wellFormed loc clauses otherwise).isSetAt_eq_false
      hname

/-- Handling `IF 1`, `X SET 5`, `ENDIF` at the beginning of a program. -/
def settingArm : Output × State :=
  ((Conditional.assemble ⟨.bare 1, Assembler.outermost (.bare 1), Assembler.runner (.bare 1) 1⟩
    Location.none [.mk (.literal Location.none 1)
      [.assign Location.none .set (.identifier Location.none "X") (.literal Location.none 5)]] none).exec
    (Output.empty false, Assembler.start Scope.initial)).2

/-- The arm binds X in a frame of its own, of which nothing is left. -/
theorem hygienic_settingArm : (Assembler.start Scope.initial).scope.Hygienic settingArm.2.scope ∧
    (settingArm.2.scope.find? "X").isNone = true :=
  ⟨(hygienic_expansions (.start Scope.initial (by decide +kernel) fun f hf => absurd hf List.not_mem_nil)
    (Output.empty false)).2.2 Location.none _ none, by decide +kernel⟩

end Reachable

end MacroAsm
