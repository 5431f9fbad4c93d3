import MacroAsm.Proofs.Assembly.Evolution
import MacroAsm.Proofs.Eval.Computes

/-!
# Scopes in which nothing was bound

Evaluation declares names ahead, and what waits for a name at the end of a block moves to the frame below. Neither
binds anything: frame by frame, what stood for something stands for the same, and a new name stands for nothing,
there and anywhere else (`Scope.Echoes`). So names stand for the same in the whole scope
(`Scope.Echoes.binding_eq`). If all arms of a condition leave such a scope, so does merging them
(`Scope.Echoes.mergeForks`).
-/

namespace MacroAsm

/-- A symbol that is unset stands for nothing. -/
theorem Symbol.binding_of_unset {sym : Symbol} (h : sym.isSet = false) : sym.binding = Binding.unset := by
  rw [Symbol.isSet, Bool.or_eq_false_iff, Option.isSome_eq_false_iff, Option.isNone_iff_eq_none] at h
  rw [Symbol.binding, Symbol.isMacro, h.1, h.2]
  rfl

namespace Frame

variable {b : Text → Binding} {o f f' : Frame} {name : Text} {sym : Symbol}

/-- What a name stands for in a frame, if the frame holds it. -/
def binding? (f : Frame) (name : Text) : Option Binding := (f.find? name).map Symbol.binding

theorem binding?_of_find? (h : f.find? name = some sym) : f.binding? name = some sym.binding := by
  rw [binding?, h]
  rfl

theorem exists_of_binding? {c : Binding} (h : f.binding? name = some c) :
    ∃ sym, f.find? name = some sym ∧ sym.binding = c :=
  Option.map_eq_some_iff.1 h

/-- Changing symbols into others that stand for the same. -/
theorem binding?_modify {g : Symbol → Symbol} (hg : ∀ sym, (g sym).binding = sym.binding) (f : Frame)
    (name other : Text) : (f.modify name g).binding? other = f.binding? other := by
  rw [binding?, binding?, find?_modify]
  split
  · rw [Option.map_map]
    exact congrArg (Option.map · _) (funext hg)
  · rfl

/-- A frame holds every name of another, standing for the same, and whatever else it holds stands for nothing there
and by `b`. -/
def Echoes (b : Text → Binding) (o f : Frame) : Prop :=
  ∀ name, f.binding? name = o.binding? name ∨
    o.binding? name = none ∧ f.binding? name = some Binding.unset ∧ b name = Binding.unset

theorem Echoes.refl (b : Text → Binding) (f : Frame) : f.Echoes b f := fun _ => Or.inl rfl

/-- What is echoed twice is echoed. -/
theorem Echoes.trans (h : o.Echoes b f) (h' : f.Echoes b f') : o.Echoes b f' := by
  intro name
  rcases h' name with hsame | ⟨hnone, hunset, hname⟩
  · rw [hsame]
    exact h name
  · rcases h name with hsame | ⟨-, hsome, -⟩
    · exact Or.inr ⟨hsame.symm.trans hnone, hunset, hname⟩
    · rw [hnone] at hsome
      cases hsome

theorem echoes_of_binding? (h : ∀ name, f'.binding? name = f.binding? name) : f.Echoes b f' :=
  fun name => Or.inl (h name)

/-- A name that stands for nothing is entered. -/
theorem Echoes.insert (h : o.Echoes b f) (hnone : f.find? name = none) (hsym : sym.binding = Binding.unset)
    (hname : b name = Binding.unset) : o.Echoes b (f.insert name sym) := by
  intro other
  rw [binding?, find?_insert]
  split
  · rename_i heq
    subst heq
    rcases h other with hsame | ⟨-, hunset, -⟩
    · refine Or.inr ⟨?_, congrArg some hsym, hname⟩
      rw [← hsame, binding?, hnone]
      rfl
    · rw [binding?, hnone] at hunset
      cases hunset
  · exact h other

/-- What stands for something in a frame does so in one that it echoes. -/
theorem Echoes.of_isSet (h : o.Echoes b f) (hfind : f.find? name = some sym) (hset : sym.isSet = true) :
    o.binding? name = some sym.binding := by
  rcases h name with hsame | ⟨-, hunset, -⟩
  · rw [← hsame, binding?_of_find? hfind]
  · rw [binding?_of_find? hfind, Option.some.injEq] at hunset
    have hfalse : sym.isSet = false := congrArg Binding.isSet hunset
    rw [hfalse] at hset
    cases hset

/-- A name that is new in a frame stands for nothing. -/
theorem Echoes.unset_of_new (h : o.Echoes b f) (hnew : o.binding? name = none)
    (hsome : (f.find? name).isSome = true) : b name = Binding.unset := by
  rcases h name with hsame | ⟨-, -, hunset⟩
  · rw [hnew, binding?, Option.map_eq_none_iff] at hsame
    rw [hsame] at hsome
    cases hsome
  · exact hunset

end Frame

namespace Scope

/-- Two symbols that stand for the same as the one before them are merged into one that does. -/
theorem binding_of_mergeSet {test : Expr} {name : Text} {hs ts fs m : Symbol} (hts : ts.binding = hs.binding)
    (hfs : fs.binding = hs.binding) (h : mergeSet test name hs ts fs = .ok m) : m.binding = hs.binding := by
  have htrue : ts.value = hs.value := congrArg Binding.value hts
  have hfalse : fs.value = hs.value := congrArg Binding.value hfs
  have hmacro : ts.template.isSome = hs.template.isSome := congrArg Binding.isMacro hts
  have hsimilar : ∀ v : Option Expr, Expr.similar? v v = true := fun v => (Expr.similar?_iff v v).2 rfl
  rw [mergeSet, htrue, hfalse] at h
  split at h
  · split at h
    · cases h
    · cases h
      exact congrArg (Binding.mk hs.value) hmacro
  · rw [if_pos (hsimilar _), if_pos (hsimilar _)] at h
    cases h
    rfl

section Merge

variable {b : Text → Binding} {test : Expr} {name : Text} {o onTrue onFalse here : Frame}

/-- Merging a name of frames that echo one another leaves such a frame. -/
theorem MergeStep.echoes {r : Frame × Option Cause} (htrue : o.Echoes b onTrue) (hfalse : o.Echoes b onFalse)
    (hhere : o.Echoes b here) (h : MergeStep test onTrue onFalse here name r) : o.Echoes b r.1 := by
  -- what an arm binds was bound before, and is bound here
  have hbound : ∀ {f : Frame} {sym : Symbol}, o.Echoes b f → f.find? name = some sym → sym.isSet = true →
      ∃ hs, here.find? name = some hs ∧ sym.binding = hs.binding := by
    intro f sym hf hfind hset
    have ho := hf.of_isSet hfind hset
    rcases hhere name with hsame | ⟨hnone, -⟩
    · obtain ⟨hs, hhs, heq⟩ := Frame.exists_of_binding? (hsame.trans ho)
      exact ⟨hs, hhs, heq.symm⟩
    · rw [ho] at hnone
      cases hnone
  -- a symbol that stands for what the one here does may be entered in its place
  have hinsert : ∀ {hs sym : Symbol}, here.find? name = some hs → sym.binding = hs.binding →
      o.Echoes b (here.insert name sym) := by
    intro hs sym hhs heq
    refine hhere.trans (Frame.echoes_of_binding? fun other => ?_)
    rw [Frame.binding?, Frame.find?_insert]
    split
    · rename_i hother
      rw [hother, Frame.binding?_of_find? hhs, ← heq]
      rfl
    · rfl
  cases h with
  | reserved => exact hhere
  | unbalanced => exact hhere
  | absent => exact hhere
  | both _ ht hf hts hfs hmerge =>
    obtain ⟨hs, hhs, hts⟩ := hbound htrue ht hts
    obtain ⟨hs', hhs', hfs⟩ := hbound hfalse hf hfs
    rw [hhs] at hhs' hmerge
    cases hhs'
    exact hinsert hhs (binding_of_mergeSet hts hfs hmerge)
  | clash _ ht hf hts hfs =>
    obtain ⟨hs, hhs, -⟩ := hbound htrue ht hts
    rw [hhs]
    exact hinsert hhs rfl
  | removed _ ht _ hset =>
    -- what is bound here is bound in the arm
    exfalso
    rw [Frame.isSetAt] at ht hset
    cases hhs : here.find? name with
    | none =>
      rw [hhs] at hset
      cases hset
    | some hs =>
      rw [hhs] at hset
      have ho := hhere.of_isSet hhs hset
      rcases htrue name with hsame | ⟨hnone, -⟩
      · obtain ⟨ts, hts, heq⟩ := Frame.exists_of_binding? (hsame.trans ho)
        have hset' : ts.isSet = hs.isSet := congrArg Binding.isSet heq
        rw [hts] at ht
        exact Bool.false_ne_true (ht.symm.trans (hset'.trans hset))
      · rw [ho] at hnone
        cases hnone
  | declared _ _ _ hset hsome =>
    have hcarry : ∀ dst src, (carry dst src).binding = dst.binding := by
      intro dst src
      cases src <;> rfl
    cases hhs : here.find? name with
    | some hs => exact hinsert hhs (by rw [hcarry, hcarry]; rfl)
    | none =>
      refine hhere.insert hhs (by rw [hcarry, hcarry]; rfl) ?_
      -- the name is new in one of the frames
      rw [hhs] at hsome
      have hnew : o.binding? name = none := by
        rcases hhere name with hsame | ⟨hnone, -⟩
        · rw [← hsame, Frame.binding?, hhs]
          rfl
        · exact hnone
      rcases hsome with h | h | h
      · cases h
      · exact htrue.unset_of_new hnew h
      · exact hfalse.unset_of_new hnew h

end Merge

variable {o s onTrue onFalse fallback : Scope}

/-- Frame by frame, a scope stands for the same as another, and whatever else it holds stands for nothing. -/
def Echoes (o s : Scope) : Prop := Pointwise (Frame.Echoes o.binding) (Frame.Echoes o.binding) o s

theorem Echoes.refl (s : Scope) : s.Echoes s :=
  ⟨List.forall₂_same.2 fun f _ => .refl _ f, .refl _ s.root⟩

/-- What is found in frames that echo others. -/
theorem binding_findIn {b : Text → Binding} {os fs : List Frame} (h : List.Forall₂ (Frame.Echoes b) os fs)
    (name : Text) : (findIn name fs).map Symbol.binding = (findIn name os).map Symbol.binding ∨
      (findIn name fs).map Symbol.binding = some Binding.unset ∧ b name = Binding.unset := by
  induction h with
  | nil => exact Or.inl rfl
  | @cons of f os fs hfirst _ ih =>
    rw [findIn, findIn]
    rcases hfirst name with hsame | ⟨-, hunset, hname⟩
    · cases hf : f.find? name with
      | none =>
        rw [Frame.binding?, Frame.binding?, hf, Option.map_none, eq_comm, Option.map_eq_none_iff] at hsame
        rw [hsame]
        exact ih
      | some sym =>
        rw [Frame.binding?_of_find? hf, eq_comm] at hsame
        obtain ⟨sym', hsym', heq⟩ := Frame.exists_of_binding? hsame
        rw [hsym']
        exact Or.inl (congrArg some heq.symm)
    · obtain ⟨sym, hsym, heq⟩ := Frame.exists_of_binding? hunset
      rw [hsym]
      exact Or.inr ⟨congrArg some heq, hname⟩

/-- Names stand for the same in a scope that echoes another. -/
theorem Echoes.binding_eq (h : o.Echoes s) : s.binding = o.binding := by
  funext name
  have hframes : List.Forall₂ (Frame.Echoes o.binding) (o.inner ++ [o.root]) (s.inner ++ [s.root]) :=
    List.rel_append h.inner (.cons h.root .nil)
  rcases binding_findIn hframes name with hsame | ⟨hunset, hname⟩
  · exact congrArg (Option.getD · Binding.unset) hsame
  · rw [hname]
    exact congrArg (Option.getD · Binding.unset) hunset

/-- A symbol changes into one that stands for the same. -/
theorem Echoes.modify (h : o.Echoes s) (name : Text) {g : Symbol → Symbol}
    (hg : ∀ sym, (g sym).binding = sym.binding) : o.Echoes (s.modify name g) := by
  have hframe : ∀ f : Frame, f.Echoes o.binding (f.modify name g) :=
    fun f => Frame.echoes_of_binding? (Frame.binding?_modify hg f name)
  have hmodified : List.Forall₂ (Frame.Echoes o.binding) s.inner (s.modify name g).inner ∧
      s.root.Echoes o.binding (s.modify name g).root :=
    modifyFrameOf_rel (.refl o.binding) (.refl o.binding) (fun f _ _ _ _ => hframe f) fun _ _ _ => hframe s.root
  exact ⟨forall₂_trans (R := Frame.Echoes o.binding) (fun _ _ _ hof hff' => hof.trans hff') h.inner hmodified.1,
    h.root.trans hmodified.2⟩

/-- The innermost frame is replaced by one that echoes it. -/
theorem Echoes.modifyTop (h : o.Echoes s) {g : Frame → Frame} (hg : s.top.Echoes o.binding (g s.top)) :
    o.Echoes (s.modifyTop g) := by
  obtain ⟨root, inner⟩ := s
  cases inner with
  | nil => exact ⟨h.inner, h.root.trans hg⟩
  | cons f rest =>
    obtain ⟨of, os, hfirst, hrest, hinner⟩ := List.forall₂_cons_right_iff.1 h.inner
    refine ⟨?_, h.root⟩
    rw [hinner]
    exact .cons (hfirst.trans hg) hrest

/-- Arms that leave scopes which echo the one that they were copied from are merged into such a scope. -/
theorem Echoes.mergeForks {forks : List (Expr × Conditional.Fork)} (hs : o.Echoes s) (hfallback : o.Echoes fallback)
    (hforks : ∀ arm ∈ forks, o.Echoes arm.2.scope) : o.Echoes (Conditional.mergeForks fallback forks s).1 :=
  mergeForks_rec (fun _ _ _ _ hhere htrue hfalse =>
    merge_rec (fun _ _ _ _ _ _ ht hf hh hstep => hstep.echoes ht hf hh)
      (fun _ _ _ _ _ _ ht hf hh hstep => hstep.echoes ht hf hh) hhere htrue hfalse) hs hfallback hforks

end Scope

end MacroAsm
