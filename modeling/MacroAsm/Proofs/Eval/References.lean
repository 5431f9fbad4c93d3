import MacroAsm.Proofs.Assembly.Labels
import MacroAsm.Proofs.Assembly.Lasting

/-!
# Evaluation and the labels that values refer to

Evaluation makes no reference of its own: what an evaluated expression refers to is among what the expression,
the arguments of the macro call and the values of the scope refer to (`Eval.flattenWith_within`). It changes no
value of the scope, and hands out no identity. So a token that is evaluated stays the place of the same labels,
and refers to nothing new (`Token.reduce_within`).
-/

namespace MacroAsm

variable {D : Text → Prop}

/-- The value of a symbol refers only to labels whose identities have a property, and its macro is made of
statements as they are written. -/
structure Symbol.Within (D : Text → Prop) (sym : Symbol) : Prop where
  /-- The value. -/
  value : ∀ v, sym.value = some v → v.Within D
  /-- The macro. -/
  template : ∀ m, sym.template = some m → ∀ t ∈ m.body, t.isOriginal = true

theorem Symbol.Within.of_eq {sym sym' : Symbol} (h : sym.Within D) (hvalue : sym'.value = sym.value)
    (htemplate : sym'.template = sym.template) : sym'.Within D :=
  ⟨fun v hv => h.value v (hvalue ▸ hv), fun m hm => h.template m (htemplate ▸ hm)⟩

/-- A symbol that is not set. -/
theorem Symbol.within_of_eq_none {sym : Symbol} (hvalue : sym.value = none) (htemplate : sym.template = none) :
    sym.Within D := by
  refine ⟨fun v hv => ?_, fun m hm => ?_⟩
  · rw [hvalue] at hv
    cases hv
  · rw [htemplate] at hm
    cases hm

/-- A symbol that is bound to a value. -/
theorem Symbol.Within.bind {sym sym' : Symbol} (h : sym.Within D) {v : Expr} (hv : v.Within D)
    (hvalue : sym'.value = some v) (htemplate : sym'.template = sym.template) : sym'.Within D := by
  refine ⟨fun v' hv' => ?_, fun m hm => h.template m (htemplate ▸ hm)⟩
  rw [hvalue] at hv'
  cases hv'
  exact hv

namespace Scope

/-- The values of a scope refer only to labels whose identities have a property, and its macros are made of
statements as they are written. -/
def Within (D : Text → Prop) (s : Scope) : Prop := s.Everywhere fun _ => Symbol.Within D

namespace Within

variable {s s' : Scope} {name : Text}

/-- What is found under a name. -/
theorem of_find? (h : s.Within D) {sym : Symbol} (hfind : s.find? name = some sym) : sym.Within D := by
  obtain ⟨f, hf, hsym⟩ := exists_of_findIn hfind
  rcases List.mem_append.1 hf with hinner | hroot
  · exact (h.inner f hinner).of_find? hsym
  · rw [List.mem_singleton.1 hroot] at hsym
    exact h.root.of_find? hsym

/-- A change of the innermost frame. -/
theorem modifyTop (h : s.Within D) {g : Frame → Frame}
    (hg : ∀ f : Frame, f.All (Symbol.Within D) → (g f).All (Symbol.Within D)) : (s.modifyTop g).Within D := by
  have hinner := h.inner
  rw [Scope.modifyTop]
  split
  · exact ⟨hg _ h.root, hinner⟩
  · rename_i f rest heq
    rw [heq, List.forall_mem_cons] at hinner
    exact ⟨h.root, List.forall_mem_cons.2 ⟨hg f hinner.1, hinner.2⟩⟩

theorem modify (h : s.Within D) {g : Symbol → Symbol} (hg : ∀ sym, sym.Within D → (g sym).Within D) :
    (s.modify name g).Within D :=
  h.modifyFrameOf fun _ _ _ _ _ hf => hf.modify fun sym _ => hg sym

theorem remove (h : s.Within D) (name : Text) : (s.remove name).Within D :=
  h.modifyFrameOf fun _ _ _ _ _ hf => hf.erase name

/-- A name is declared in the innermost frame. -/
theorem declareLocal (h : s.Within D) (hdeclare : s.declareLocal name = .ok s') : s'.Within D := by
  cases (declareLocal_eq_ok hdeclare).2 with
  | kept => exact h
  | entered => exact h.modifyTop fun f hf => hf.insert name (Symbol.within_of_eq_none rfl rfl)

/-- A name becomes global. -/
theorem declareGlobal (h : s.Within D) (hdeclare : s.declareGlobal name = .ok s') : s'.Within D := by
  cases declareGlobal_eq_ok hdeclare with
  | kept => exact h
  | promoted => exact ⟨h.root.modify fun sym _ hsym => hsym.of_eq rfl rfl, h.inner⟩
  | entered => exact ⟨h.root.insert name (Symbol.within_of_eq_none rfl rfl), h.inner⟩
  | @moved sym hroot hin =>
    obtain ⟨f, hf, hfind⟩ := exists_of_findIn hin
    have hremoved := h.remove name
    -- the frame that held the name is the one that it is removed from
    have hinner : (s.remove name).inner = (modifyOwner name (fun f => f.erase name) s.inner).1 := by
      rw [Scope.remove, Scope.modifyFrameOf]
      simp only [modifyOwner_snd, hin, Option.isSome_some, if_true]
    refine ⟨h.root.insert name (((h.inner f hf).of_find? hfind).of_eq rfl rfl), ?_⟩
    rw [← hinner]
    exact hremoved.inner

theorem modifyRoot (h : s.Within D) {g : Symbol → Symbol} (hg : ∀ sym, sym.Within D → (g sym).Within D) :
    Scope.Within D { s with root := s.root.modify name g } :=
  ⟨h.root.modify fun sym _ => hg sym, h.inner⟩

theorem nest (h : s.Within D) : s.nest.Within D :=
  ⟨h.root, List.forall_mem_cons.2 ⟨Frame.all_empty, h.inner⟩⟩

theorem unnest (h : s.Within D) : s.unnest.Within D :=
  ⟨h.root, fun f hf => h.inner f (List.mem_of_mem_tail hf)⟩

/-- A name is bound as a block begins. -/
theorem bindIn (h : s.Within D) {value : Expr} (hvalue : value.Within D) {loc : Location}
    (hbind : Expand.bindIn s name value loc = .ok s') : s'.Within D := by
  obtain ⟨t, hdeclare, heq⟩ := Except.bind_eq_ok_iff.1 hbind
  cases heq
  exact (h.declareLocal hdeclare).modifyTop fun f hf => hf.modify fun sym _ hsym =>
    hsym.bind hvalue rfl rfl

/-- The parameters of a macro are bound to arguments. -/
theorem bindAll {loc : Location} {ps : List Text} {es : List Expr} (hes : ∀ e ∈ es, e.Within D)
    (h : s.Within D) (hbind : Expand.bindAll loc ps es s = .ok s') : s'.Within D := by
  induction ps generalizing es s with
  | nil =>
    cases hbind
    exact h
  | cons p ps ih =>
    cases es with
    | nil =>
      cases hbind
      exact h
    | cons e es =>
      rw [List.forall_mem_cons] at hes
      rw [Expand.bindAll] at hbind
      obtain ⟨t, hfirst, hrest⟩ := Except.bind_eq_ok_iff.1 hbind
      exact ih hes.2 (h.bindIn hes.1 hfirst) hrest

/-- The names of an iteration are bound. -/
theorem loop (h : s.Within D) {l : Replay.Loop} {k : Nat} {value : Option Expr}
    (hvalue : ∀ v ∈ value, v.Within D) (hscope : l.scope k value s = .ok s') : s'.Within D := by
  rw [Replay.Loop.scope] at hscope
  -- the number of the iteration refers to no label
  have hnumber : (Expr.literal l.loc (Int64.ofNat k)).Within D := Expr.within_of_references_eq_nil rfl
  cases value with
  | none =>
    split at hscope
    · cases hscope
      exact h.nest
    · obtain ⟨t, ht, heq⟩ := Except.bind_eq_ok_iff.1 hscope
      cases heq
      exact h.nest.bindIn hnumber ht
  | some v =>
    have helement : ∀ {t : Scope}, t.Within D →
        (if l.element.isEmpty then Except.ok t else Expand.bindIn t l.element v v.loc) = .ok s' → s'.Within D := by
      intro t ht heq
      split at heq
      · cases heq
        exact ht
      · exact ht.bindIn (hvalue v rfl) heq
    split at hscope
    · exact helement h.nest hscope
    · obtain ⟨t, ht, heq⟩ := Except.bind_eq_ok_iff.1 hscope
      exact helement (h.nest.bindIn hnumber ht) heq

/-- A name moves to the frame below. -/
theorem hoist (h : s.Within D) (name : Text) : (s.hoist name).1.Within D := by
  rw [Scope.hoist.eq_def]
  split
  · rename_i f below rest hinner
    have hall := h.inner
    rw [hinner, List.forall_mem_cons, List.forall_mem_cons] at hall
    cases hfind : f.find? name with
    | none => exact h
    | some sym =>
      refine ⟨h.root, ?_⟩
      simp only [List.forall_mem_cons]
      refine ⟨hall.1.erase name, ?_, hall.2.2⟩
      split
      · exact hall.2.1.modify fun old _ hold => hold.of_eq rfl rfl
      · exact hall.2.1.insert name (hall.1.of_find? hfind)
  · exact h

/-- Names are accounted for. -/
theorem accountFor (h : s.Within D) (nested : Bool) (entries : List (Text × Symbol)) :
    (Scope.accountFor nested entries s).1.Within D := by
  induction entries generalizing s with
  | nil => exact h
  | cons entry rest ih =>
    obtain ⟨name, sym⟩ := entry
    rw [Scope.accountFor]
    split
    · exact ih h
    · exact ih (h.hoist name)
    · exact ih h

end Within

/-- Merging a name refers only to labels that the test, the two arms or the frame refer to. -/
theorem MergeStep.within {test : Expr} (htest : test.Within D) {onTrue onFalse here : Frame} {name : Text}
    {r : Frame × Option Cause} (htrue : onTrue.All (Symbol.Within D)) (hfalse : onFalse.All (Symbol.Within D))
    (hhere : here.All (Symbol.Within D)) (h : MergeStep test onTrue onFalse here name r) :
    r.1.All (Symbol.Within D) := by
  -- the symbol that a merge starts from
  have hbase : ∀ {other : Symbol}, other.Within D → ((here.find? name).getD other).Within D := by
    intro other hother
    cases hfind : here.find? name with
    | none => exact hother
    | some sym => exact hhere.of_find? hfind
  cases h with
  | reserved | unbalanced | absent => exact hhere
  | removed => exact hhere.erase name
  | both _ hts hfs hset hset' hmerge =>
    have htaken := htrue.of_find? hts
    have hstart := hbase htaken
    refine hhere.insert name ?_
    cases mergedSymbol_of_mergeSet hset hset' hmerge with
    | sameMacro htemplate _ _ _ hvalue =>
      exact ⟨fun v hv => hstart.value v (hvalue ▸ hv), fun m hm => htaken.template m (htemplate ▸ hm)⟩
    | sameValue ht _ hvalue hsimilar _ _ _ htemplate =>
      -- what is the same as a value refers to the same labels
      have herase := (Expr.similar_iff_erase_eq _ _).1 hsimilar
      refine hstart.bind (fun id hid => htaken.value _ ht id ?_) hvalue htemplate
      rwa [← Expr.references_erase, ← herase, Expr.references_erase]
    | choice ht hf hvalue _ _ htemplate =>
      refine hstart.bind (Expr.within_ternary.2 ⟨htest, htaken.value _ ht, ?_⟩) hvalue htemplate
      exact (hfalse.of_find? hfs).value _ hf
  | clash _ hts => exact hhere.insert name (hbase (htrue.of_find? hts))
  | declared =>
    refine hhere.insert name ?_
    have hcarry : ∀ dst src, (carry dst src).value = dst.value ∧ (carry dst src).template = dst.template := by
      intro dst src
      cases src <;> exact ⟨rfl, rfl⟩
    have hnew : ((here.find? name).getD {}).Within D := hbase (Symbol.within_of_eq_none rfl rfl)
    exact hnew.of_eq ((hcarry _ _).1.trans (hcarry _ _).1) ((hcarry _ _).2.trans (hcarry _ _).2)

/-- Merging the frames of open units. -/
theorem forall_mem_mergeInner {test : Expr} (htest : test.Within D) :
    ∀ {hs ts fs : List Frame}, (∀ f ∈ hs, f.All (Symbol.Within D)) → (∀ f ∈ ts, f.All (Symbol.Within D)) →
      (∀ f ∈ fs, f.All (Symbol.Within D)) → ∀ f ∈ (mergeInner test hs ts fs).1, f.All (Symbol.Within D) := by
  intro hs ts fs hhs hts hfs
  fun_induction mergeInner test hs ts fs with
  | case1 here hs t ts f fs names merged c hmerge =>
    rw [List.forall_mem_cons] at hhs hts hfs
    have hnames := mergeNames_rec (F := Frame.All (Symbol.Within D)) (fun here name r hhere hstep =>
      hstep.within htest hts.1 hfs.1 hhere) names hhs.1
    rw [hmerge] at hnames
    exact List.forall_mem_cons.2 ⟨hnames, hhs.2⟩
  | case2 here hs t ts f fs names merged hmerge rest c hrest ih =>
    rw [List.forall_mem_cons] at hhs hts hfs
    have hnames := mergeNames_rec (F := Frame.All (Symbol.Within D)) (fun here name r hhere hstep =>
      hstep.within htest hts.1 hfs.1 hhere) names hhs.1
    rw [hmerge] at hnames
    have hinner := ih hhs.2 hts.2 hfs.2
    rw [hrest] at hinner
    exact List.forall_mem_cons.2 ⟨hnames, hinner⟩
  | case3 hs ts fs _ => exact hhs

/-- Merging two scopes into a third one. -/
theorem Within.merge {test : Expr} (htest : test.Within D) {s onTrue onFalse : Scope} (hs : s.Within D)
    (htrue : onTrue.Within D) (hfalse : onFalse.Within D) : (s.merge test onTrue onFalse).1.Within D := by
  have hinner := forall_mem_mergeInner htest hs.inner htrue.inner hfalse.inner
  rw [Scope.merge]
  split
  · exact hs
  · split
    · rename_i inner c hmerge
      rw [hmerge] at hinner
      exact ⟨hs.root, hinner⟩
    · rename_i inner hmerge
      rw [hmerge] at hinner
      exact ⟨mergeNames_rec (F := Frame.All (Symbol.Within D)) (fun here name r hhere hstep =>
        hstep.within htest htrue.root hfalse.root hhere) _ hs.root, hinner⟩

/-- Merging forks. -/
theorem Within.mergeForks {fallback : Scope} (hfallback : fallback.Within D)
    {forks : List (Expr × Conditional.Fork)}
    (hforks : ∀ arm ∈ forks, arm.1.Within D ∧ arm.2.scope.Within D) {s : Scope} (hs : s.Within D) :
    (Conditional.mergeForks fallback forks s).1.Within D := by
  fun_induction Conditional.mergeForks fallback forks s with
  | case1 s => exact hs
  | case2 test fork s =>
    obtain ⟨htest, hfork⟩ := hforks (test, fork) List.mem_cons_self
    exact hs.merge htest hfork hfallback
  | case3 test fork rest s _ merged c hrest ih =>
    rw [List.forall_mem_cons] at hforks
    have hmerged := ih hforks.2 hs
    rwa [hrest] at hmerged
  | case4 test fork rest s _ merged hrest ih =>
    rw [List.forall_mem_cons] at hforks
    have hmerged := ih hforks.2 hs
    rw [hrest] at hmerged
    exact hmerged.merge hforks.1.1 hforks.1.2 hmerged

end Scope

/-- No identity is handed out, and values refer to no more labels than before. -/
structure State.Retells (s s' : State) : Prop where
  /-- No identity is handed out. -/
  supply : s'.supply = s.supply
  /-- Values refer to no more labels. -/
  within : ∀ D, s.scope.Within D → s'.scope.Within D

/-- No identity is handed out, and values refer to no more labels than those of which `P` is known. -/
structure State.Revalues (P : (Text → Prop) → Prop) (s s' : State) : Prop where
  /-- No identity is handed out. -/
  supply : s'.supply = s.supply
  /-- What values refer to. -/
  within : ∀ D, P D → s.scope.Within D → s'.scope.Within D

namespace Eval

/-- Evaluation hands out no identity, and changes no value. -/
theorem tracks_retells : Tracks State.Retells fun _ _ => True where
  refl _ := ⟨rfl, fun _ h => h⟩
  trans _ _ _ hxy hyz := ⟨hyz.supply.trans hxy.supply, fun D h => hyz.within D (hxy.within D h)⟩
  known _ _ _ _ h := h
  deferred _ := ⟨rfl, fun _ h => h⟩
  request loc name s := by
    refine ⟨?_, trivial⟩
    rw [request, Act.exec_bind_of_ok (Act.exec_scope s)]
    cases hfind : s.scope.find? name with
    | some sym => exact ⟨rfl, fun D h => h.modify fun _ hsym => hsym.of_eq rfl rfl⟩
    | none =>
      simp only [Scope.declareLocal_of_find?_eq_none hfind]
      refine ⟨rfl, fun D h => Scope.Within.modify ?_ fun _ hsym => hsym.of_eq rfl rfl⟩
      exact h.declareLocal (Scope.declareLocal_of_find?_eq_none hfind)

theorem evaluates_retells (u : Surroundings) : Evaluates u State.Retells fun _ _ => True :=
  tracks_retells.evaluates fun _ _ _ _ _ _ => trivial

/-- As evaluation, binding names hands out no identity. -/
theorem tracks_revalues (P : (Text → Prop) → Prop) : Tracks (State.Revalues P) fun _ _ => True where
  refl _ := ⟨rfl, fun _ _ h => h⟩
  trans _ _ _ hxy hyz := ⟨hyz.supply.trans hxy.supply, fun D hP h => hyz.within D hP (hxy.within D hP h)⟩
  known _ _ _ _ h := h
  deferred _ := ⟨rfl, fun _ _ h => h⟩
  request loc name s := by
    have hretells := (tracks_retells.request loc name s).1
    exact ⟨⟨hretells.supply, fun D _ => hretells.within D⟩, trivial⟩

theorem evaluates_revalues (P : (Text → Prop) → Prop) (u : Surroundings) :
    Evaluates u (State.Revalues P) fun _ _ => True :=
  (tracks_revalues P).evaluates fun _ _ _ _ _ _ => trivial

/-- An action on a scope whose values refer to labels with a property gives what refers to such labels only. -/
abbrev Refers {α : Type} (Q : (Text → Prop) → α → Prop) (D : Text → Prop) (act : Act α) (s : State) : Prop :=
  s.scope.Within D → Act.Yields State.Retells (fun a _ => Q D a) act s

variable {u : Surroundings} {resolve : Location → Text → Act Expr} {s : State}

/-- A name that is looked up has a value that refers to labels with the property. -/
theorem request_within (hs : s.scope.Within D) (loc : Location) (name : Text) :
    Act.Yields State.Retells (fun sym _ => sym.Within D) (request loc name) s := by
  refine ⟨(tracks_retells.request loc name s).1, fun sym hsym => ?_⟩
  rw [request, Act.exec_bind_of_ok (Act.exec_scope s)] at hsym
  cases hfind : s.scope.find? name with
  | some found =>
    rw [hfind] at hsym
    cases hsym
    exact hs.of_find? hfind
  | none =>
    simp only [hfind, Scope.declareLocal_of_find?_eq_none hfind] at hsym
    cases hsym
    exact Symbol.within_of_eq_none rfl rfl

/-- A built name is resolved where that is asked for. -/
theorem spell_within (hres : ∀ loc name s, Refers Expr.Within D (resolve loc name) s) (propagate : Bool)
    (loc : Location) (name : Text) (s : State) :
    Refers Expr.Within D
      (if propagate then resolve loc name else return .identifier loc name : Act Expr) s := by
  intro hs
  cases propagate with
  | true => exact hres loc name s hs
  | false => exact .pure (tracks_retells.refl s) (Expr.within_of_references_eq_nil rfl)

/-- A number is appended to a name once it is known. -/
theorem join_within (hres : ∀ loc name s, Refers Expr.Within D (resolve loc name) s) (propagate : Bool)
    (op : BinaryOp) (loc l : Location) (name : Text) {r : Expr} (hr : r.Within D) (s : State) :
    Refers Expr.Within D
      (if r.isConcrete then do
        let name := name ++ suffix op (← Act.lift r.asNumber)
        if propagate then resolve loc name else return .identifier loc name
      else return .binary loc op (.identifier l name) r) s := by
  intro hs
  have hR := tracks_retells
  split
  · refine (Act.Yields.lift (Q := fun _ _ => True) (hR.refl s) fun _ _ => trivial).bind hR.trans ?_
    exact fun n s' h _ => spell_within hres propagate loc _ s' (h.within D hs)
  · exact .pure (hR.refl s) (Expr.within_binary.2 ⟨Expr.within_of_references_eq_nil rfl, hr⟩)

mutual

/-- What an evaluated expression refers to is among what the expression, the arguments of the macro call and the
values of the scope refer to. -/
theorem flattenWith_within (hargs : ∀ a ∈ u.args, a.Within D)
    (hres : ∀ loc name s, Refers Expr.Within D (resolve loc name) s) :
    ∀ (e : Expr) (propagate : Bool) (s : State), e.Within D →
      Refers Expr.Within D (flattenWith u resolve e propagate) s := by
  intro e propagate s he hs
  have hR := tracks_retells
  -- a test that is known
  have htruth : ∀ (e : Expr) (s : State), Act.Yields State.Retells (fun _ _ => True) (Act.lift e.asTruth) s :=
    fun e s => .lift (hR.refl s) fun _ _ => trivial
  cases e with
  | numeral loc digits =>
    rw [flattenWith, readNumeral]
    have hscope : Act.Yields State.Retells (fun _ _ => True) Act.scope s := ⟨hR.refl s, fun _ _ => trivial⟩
    refine hscope.bind hR.trans fun scope s' _ _ => ?_
    dsimp only
    split
    · exact .pure (hR.refl s') (Expr.within_of_references_eq_nil rfl)
    · exact .raise (hR.refl s') _
  | identifier loc name =>
    rw [flattenWith]
    exact spell_within hres propagate loc name s hs
  | unary loc op value =>
    have hvalue := flattenWith_within hargs hres value
    by_cases hop : op = .macroLocal
    · subst hop
      rw [flattenWith]
      refine (hvalue false s he hs).bind hR.trans fun v s' h _ => ?_
      cases v with
      | identifier _ name => exact spell_within hres propagate loc _ s' (h.within D hs)
      | _ => exact .raise (hR.refl s') _
    · rw [flattenWith]
      · refine (hvalue propagate s he hs).bind hR.trans fun v s' _ hv => ?_
        split
        · refine .lift (hR.refl s') fun r hr => ?_
          obtain ⟨n, rfl⟩ := applyUnary_cases hr
          exact Expr.within_of_references_eq_nil rfl
        · exact .pure (hR.refl s') hv
      · exact hop
  | binary loc op left right =>
    rw [Expr.within_binary] at he
    have hleft : ∀ propagate s, _ := fun propagate s => flattenWith_within hargs hres left propagate s he.1
    have hright : ∀ propagate s, _ := fun propagate s => flattenWith_within hargs hres right propagate s he.2
    cases op with
    | joinNames =>
      rw [flattenWith]
      refine (hleft false s hs).bind hR.trans fun l s1 h01 _ => ?_
      have hs1 := h01.within D hs
      cases l with
      | identifier _ l =>
        refine (hright false s1 hs1).bind hR.trans fun r s2 h12 _ => ?_
        cases r with
        | identifier _ r => exact spell_within hres propagate loc _ s2 (h12.within D hs1)
        | _ => exact .raise (hR.refl s2) _
      | _ => exact .raise (hR.refl s1) _
    | joinDecimal =>
      rw [flattenWith]
      refine (hleft false s hs).bind hR.trans fun l s1 h01 _ => ?_
      have hs1 := h01.within D hs
      cases l with
      | identifier _ name =>
        refine (hright true s1 hs1).bind hR.trans fun r s2 h12 hr => ?_
        exact join_within hres propagate .joinDecimal loc _ name hr s2 (h12.within D hs1)
      | _ => exact .raise (hR.refl s1) _
    | joinHex =>
      rw [flattenWith]
      refine (hleft false s hs).bind hR.trans fun l s1 h01 _ => ?_
      have hs1 := h01.within D hs
      cases l with
      | identifier _ name =>
        refine (hright true s1 hs1).bind hR.trans fun r s2 h12 hr => ?_
        exact join_within hres propagate .joinHex loc _ name hr s2 (h12.within D hs1)
      | _ => exact .raise (hR.refl s1) _
    | or =>
      rw [flattenWith]
      refine (hleft propagate s hs).bind hR.trans fun l s1 h01 hl => ?_
      have hs1 := h01.within D hs
      split
      · refine (htruth l s1).bind hR.trans fun t s2 h12 _ => ?_
        split
        · exact .pure (hR.refl s2) hl
        · exact hright propagate s2 (h12.within D hs1)
      · refine (hright propagate s1 hs1).bind hR.trans fun r s2 _ hr => ?_
        exact .pure (hR.refl s2) (Expr.within_binary.2 ⟨hl, hr⟩)
    | and =>
      rw [flattenWith]
      refine (hleft propagate s hs).bind hR.trans fun l s1 h01 hl => ?_
      have hs1 := h01.within D hs
      split
      · refine (htruth l s1).bind hR.trans fun t s2 h12 _ => ?_
        split
        · exact hright propagate s2 (h12.within D hs1)
        · exact .pure (hR.refl s2) hl
      · refine (hright propagate s1 hs1).bind hR.trans fun r s2 _ hr => ?_
        exact .pure (hR.refl s2) (Expr.within_binary.2 ⟨hl, hr⟩)
    | _ =>
      rw [flattenWith]
      · refine (hleft propagate s hs).bind hR.trans fun l s1 h01 hl => ?_
        refine (hright propagate s1 (h01.within D hs)).bind hR.trans fun r s2 _ hr => ?_
        split
        · refine .lift (hR.refl s2) fun v hv => ?_
          obtain ⟨n, rfl⟩ | ⟨t, rfl⟩ := applyBinary_cases hv
          · exact Expr.within_of_references_eq_nil rfl
          · exact Expr.within_of_references_eq_nil rfl
        · exact .pure (hR.refl s2) (Expr.within_binary.2 ⟨hl, hr⟩)
      all_goals simp
  | ternary loc test onTrue onFalse =>
    rw [Expr.within_ternary] at he
    have htrue : ∀ s, _ := fun s => flattenWith_within hargs hres onTrue propagate s he.2.1
    have hfalse : ∀ s, _ := fun s => flattenWith_within hargs hres onFalse propagate s he.2.2
    rw [flattenWith]
    refine (flattenWith_within hargs hres test propagate s he.1 hs).bind hR.trans fun t s1 h01 ht => ?_
    have hs1 := h01.within D hs
    split
    · refine (htruth t s1).bind hR.trans fun holds s2 h12 _ => ?_
      split
      · exact htrue s2 (h12.within D hs1)
      · exact hfalse s2 (h12.within D hs1)
    · refine (htrue s1 hs1).bind hR.trans fun a s2 h12 ha => ?_
      refine (hfalse s2 (h12.within D hs1)).bind hR.trans fun b s3 _ hb => ?_
      exact .pure (hR.refl s3) (Expr.within_ternary.2 ⟨ht, ha, hb⟩)
  | call loc name params =>
    rw [flattenWith]
    cases Builtin.ofName? name with
    | none => exact .raise (hR.refl s) _
    | some f =>
      have hparams := flattenAll_within hargs hres params propagate s (Expr.forall_mem_referencesAll.1 he) hs
      refine hparams.bind hR.trans fun args s1 _ hvalues => ?_
      split
      · refine .lift (hR.refl s1) fun v hv => ?_
        rcases Builtin.apply_cases hv with ⟨n, rfl⟩ | ⟨t, rfl⟩ | hmem
        · exact Expr.within_of_references_eq_nil rfl
        · exact Expr.within_of_references_eq_nil rfl
        · exact hargs v hmem
      · exact .pure (hR.refl s1) (Expr.forall_mem_referencesAll.2 hvalues)
  | absolute loc address =>
    rw [flattenWith]
    refine (flattenWith_within hargs hres address propagate s he hs).bind hR.trans fun v s1 _ hv => ?_
    exact .pure (hR.refl s1) hv
  | displaced loc base displace =>
    rw [flattenWith]
    refine (flattenWith_within hargs hres displace propagate s he hs).bind hR.trans fun v s1 _ hv => ?_
    exact .pure (hR.refl s1) hv
  | offset loc base value =>
    rw [flattenWith]
    refine (flattenWith_within hargs hres value propagate s he hs).bind hR.trans fun v s1 _ hv => ?_
    exact .pure (hR.refl s1) hv
  | _ =>
    rw [flattenWith]
    exact .pure (hR.refl s) he

/-- What the evaluated expressions of a list refer to. -/
theorem flattenAll_within (hargs : ∀ a ∈ u.args, a.Within D)
    (hres : ∀ loc name s, Refers Expr.Within D (resolve loc name) s) :
    ∀ (es : List Expr) (propagate : Bool) (s : State), (∀ e ∈ es, e.Within D) →
      Refers (fun D vs => ∀ v ∈ vs, v.Within D) D (flattenAll u resolve es propagate) s := by
  intro es propagate s hes hs
  have hR := tracks_retells
  cases es with
  | nil =>
    rw [flattenAll]
    exact .pure (hR.refl s) fun v hv => by cases hv
  | cons e rest =>
    rw [List.forall_mem_cons] at hes
    rw [flattenAll]
    refine (flattenWith_within hargs hres e propagate s hes.1 hs).bind hR.trans fun v s1 h01 hv => ?_
    refine (flattenAll_within hargs hres rest propagate s1 hes.2 (h01.within D hs)).bind hR.trans
      fun vs s2 _ hvs => ?_
    exact .pure (hR.refl s2) (List.forall_mem_cons.2 ⟨hv, hvs⟩)

end

theorem references_tag (name : Text) (e : Expr) : (tag name e).references = e.references := by
  cases e <;> rfl

/-- What a resolved name refers to, if evaluating the value it is bound to makes no reference. -/
theorem resolveOnce_within {evaluate : Expr → Act Expr}
    (hevaluate : ∀ value s, value.Within D → Refers Expr.Within D (evaluate value) s) (guard : List Text)
    (loc : Location) (name : Text) (s : State) :
    Refers Expr.Within D (resolveOnce evaluate guard loc name) s := by
  intro hs
  have hR := tracks_retells
  rw [resolveOnce]
  split
  · refine (request_within hs loc name).bind hR.trans fun sym s1 h01 hsym => ?_
    split
    · exact .raise (hR.refl s1) _
    · split
      · rename_i value hvalue
        refine (hevaluate value s1 (hsym.value value hvalue) (h01.within D hs)).bind hR.trans fun v s2 _ hv => ?_
        refine .pure (hR.refl s2) fun id hid => hv id ?_
        rwa [← references_tag name v]
      · exact .pure (hR.refl s1) (Expr.within_of_references_eq_nil rfl)
  · exact .report (hR.refl s) _

/-- What a resolved name refers to. -/
theorem resolve_within (hargs : ∀ a ∈ u.args, a.Within D) (fuel : Nat) (guard : List Text) (loc : Location)
    (name : Text) (s : State) : Refers Expr.Within D (Eval.resolve u fuel guard loc name) s := by
  induction fuel generalizing guard loc name s with
  | zero =>
    rw [Eval.resolve]
    refine resolveOnce_within (fun value s' _ _ => ?_) guard loc name s
    exact .pure (tracks_retells.refl s') (Expr.within_of_references_eq_nil rfl)
  | succ fuel ih =>
    rw [Eval.resolve]
    refine resolveOnce_within (fun value s' hvalue => ?_) guard loc name s
    exact flattenWith_within hargs (fun loc name s => ih _ loc name s) value true s' hvalue

/-- What an expression refers to that is evaluated while names are being defined. -/
theorem flattenGuarded_within (hargs : ∀ a ∈ u.args, a.Within D) {e : Expr} (he : e.Within D)
    (guard : List Text) (s : State) : Refers Expr.Within D (flattenGuarded u e guard) s := by
  intro hs
  have hscope : Act.Yields State.Retells (fun _ _ => True) Act.scope s :=
    ⟨tracks_retells.refl s, fun _ _ => trivial⟩
  refine hscope.bind tracks_retells.trans fun scope s1 h01 _ => ?_
  exact flattenWith_within hargs (resolve_within hargs _ guard) e true s1 he (h01.within D hs)

/-- An expression that waits is counted. -/
theorem settle_within (deferrable : Bool) {e : Expr} (he : e.Within D) (s : State) :
    Act.Yields State.Retells (fun v _ => v.Within D) (settle deferrable e) s := by
  have hR := tracks_retells
  rw [settle]
  split
  · exact .pure (hR.refl s) he
  · split
    · have hcount : Act.Yields State.Retells (fun _ _ => True)
          (modify fun s => { s with deferred := s.deferred + 1 } : Act PUnit) s :=
        ⟨hR.deferred s, fun _ _ => trivial⟩
      exact hcount.bind hR.trans fun _ s1 _ _ => .pure (hR.refl s1) he
    · exact .raise (hR.refl s) _

/-- What an evaluated expression refers to. -/
theorem evaluate_within (hargs : ∀ a ∈ u.args, a.Within D) (deferrable : Bool) {e : Expr} (he : e.Within D)
    (s : State) : Refers Expr.Within D (evaluate u deferrable e) s := by
  intro hs
  refine (flattenGuarded_within hargs he [] s hs).bind tracks_retells.trans fun v s1 _ hv => ?_
  exact settle_within deferrable hv s1

/-- What the value of a definition refers to. -/
theorem evaluateDefinition_within (hargs : ∀ a ∈ u.args, a.Within D) (name : Text) {e : Expr}
    (he : e.Within D) (s : State) : Refers Expr.Within D (evaluateDefinition u name e) s := by
  intro hs
  refine (flattenGuarded_within hargs he [name] s hs).bind tracks_retells.trans fun v s1 _ hv => ?_
  exact settle_within true hv s1

/-- What the evaluated expressions of a list refer to. -/
theorem evaluateAll_within (hargs : ∀ a ∈ u.args, a.Within D) (deferrable : Bool) {es : List Expr}
    (hes : ∀ e ∈ es, e.Within D) (s : State) :
    Refers (fun D vs => ∀ v ∈ vs, v.Within D) D (evaluateAll u deferrable es) s := by
  intro hs
  have hR := tracks_retells
  induction es generalizing s with
  | nil => exact .pure (hR.refl s) fun v hv => by cases hv
  | cons e rest ih =>
    rw [List.forall_mem_cons] at hes
    rw [evaluateAll]
    refine (evaluate_within hargs deferrable hes.1 s hs).bind hR.trans fun v s1 h01 hv => ?_
    refine (ih hes.2 s1 (h01.within D hs)).bind hR.trans fun vs s2 _ hvs => ?_
    exact .pure (hR.refl s2) (List.forall_mem_cons.2 ⟨hv, hvs⟩)

end Eval

namespace Token

variable {u : Surroundings}

/-- What the value of an assignment refers to. -/
theorem reduceValue_within (hargs : ∀ a ∈ u.args, a.Within D) (how : Assignment) (name : Expr) {value : Expr}
    (hvalue : value.Within D) (s : State) : Eval.Refers Expr.Within D (reduceValue u how name value) s := by
  rw [reduceValue.eq_def]
  split
  · exact Eval.evaluateDefinition_within hargs _ hvalue s
  · exact Eval.evaluateDefinition_within hargs _ hvalue s
  · exact Eval.evaluate_within hargs true hvalue s

/-- What the evaluated elements of a DUPA refer to. -/
theorem reduceIteration_within (hargs : ∀ a ∈ u.args, a.Within D) {i : Iteration} (loc : Location)
    (counter : Option Expr) (body : List Token)
    (hi : ∀ id ∈ (Token.dup loc counter i body).references, D id) (s : State) :
    Eval.Refers (fun D i' => ∀ id ∈ (Token.dup loc counter i' body).references, D id) D
      (reduceIteration u i) s := by
  intro hs
  have hR := Eval.evaluates_retells u
  cases i with
  | list element items =>
    refine (hR.name element s).bind hR.trans fun v s1 h01 _ => ?_
    refine (Eval.evaluateAll_within hargs true (Expr.forall_mem_flatMap_references.1 hi) s1
      (h01.within D hs)).bind hR.trans fun vs s2 _ hvs => ?_
    exact .pure (hR.refl s2) (Expr.forall_mem_flatMap_references.2 hvs)
  | count n =>
    refine (Eval.evaluate_yields hR true n s).bind hR.trans fun v s1 _ _ => ?_
    exact .pure (hR.refl s1) fun id hid => by cases hid
  | characters element strings =>
    refine (hR.name element s).bind hR.trans fun v s1 _ _ => ?_
    refine (Eval.evaluateAll_yields hR true strings s1).bind hR.trans fun vs s2 _ _ => ?_
    exact .pure (hR.refl s2) fun id hid => by cases hid
  | sequence element first last step =>
    refine (hR.name element s).bind hR.trans fun v s1 _ _ => ?_
    refine (reduce?_yields hR first s1).bind hR.trans fun v s2 _ _ => ?_
    refine (reduce?_yields hR last s2).bind hR.trans fun v s3 _ _ => ?_
    refine (reduce?_yields hR step s3).bind hR.trans fun v s4 _ _ => ?_
    exact .pure (hR.refl s4) fun id hid => by cases hid

mutual

/-- A token that is evaluated is the place of the same labels, and refers to no label that the token, the
arguments of the macro call and the values of the scope do not refer to. -/
theorem reduce_within (hargs : ∀ a ∈ u.args, a.Within D) :
    ∀ (t : Token) (s : State), t.Within D →
      Eval.Refers (fun D t' => t'.Within D ∧ t'.places = t.places) D (reduce u t) s := by
  intro t s ht hs
  have hR := Eval.evaluates_retells u
  -- a token that refers to nothing and has no bodies
  have hpure : ∀ {t' : Token} {s : State}, t'.references = [] → t'.isProper = true → t'.places = t.places →
      Act.Yields State.Retells (fun t' _ => t'.Within D ∧ t'.places = t.places) (pure t') s :=
    fun hnil hproper hplaces => .pure (hR.refl _) ⟨within_of_references_eq_nil hnil hproper, hplaces⟩
  have hvalue : ∀ {e : Expr} {s : State}, e.Within D → s.scope.Within D → _ :=
    fun {e s} he => Eval.evaluate_within hargs true he s
  have hvalues : ∀ {es : List Expr} {s : State}, (∀ id ∈ es.flatMap Expr.references, D id) →
      s.scope.Within D → _ :=
    fun {es s} hes => Eval.evaluateAll_within hargs true (Expr.forall_mem_flatMap_references.1 hes) s
  cases t with
  | inclusion loc path loader =>
    rw [reduce]
    refine (Eval.evaluate_yields hR true path s).bind hR.trans fun v s1 _ _ => ?_
    exact (reduce?_yields hR loader s1).bind hR.trans fun v s2 _ _ => hpure rfl rfl rfl
  | radix loc value =>
    rw [reduce]
    exact (Eval.evaluate_yields hR true value s).bind hR.trans fun v s1 _ _ => hpure rfl rfl rfl
  | declare loc how names =>
    cases how with
    | locally =>
      rw [reduce]
      exact (Eval.nameOnlyAll_yields hR names s).bind hR.trans fun v s1 _ _ => hpure rfl rfl rfl
    | globally weak =>
      rw [reduce]
      · exact hpure rfl rfl rfl
      all_goals simp
    | externally attributes =>
      rw [reduce]
      · exact hpure rfl rfl rfl
      all_goals simp
  | retract loc what names =>
    rw [reduce]
    exact (Eval.nameOnlyAll_yields hR names s).bind hR.trans fun v s1 _ _ => hpure rfl rfl rfl
  | label loc name =>
    rw [reduce]
    exact (hR.name name s).bind hR.trans fun v s1 _ _ => hpure rfl rfl rfl
  | align loc value =>
    rw [reduce]
    exact (hvalue ht.references hs).bind hR.trans fun v s1 _ hv => .pure (hR.refl s1) ⟨⟨hv, rfl⟩, rfl⟩
  | allocate loc size =>
    rw [reduce]
    exact (hvalue ht.references hs).bind hR.trans fun v s1 _ hv => .pure (hR.refl s1) ⟨⟨hv, rfl⟩, rfl⟩
  | immediate loc value size signed =>
    rw [reduce]
    exact (hvalue ht.references hs).bind hR.trans fun v s1 _ hv => .pure (hR.refl s1) ⟨⟨hv, rfl⟩, rfl⟩
  | branch b =>
    rw [reduce]
    exact (hvalue ht.references hs).bind hR.trans fun v s1 _ hv => .pure (hR.refl s1) ⟨⟨hv, rfl⟩, rfl⟩
  | display loc kind text =>
    rw [reduce]
    refine (hvalues ht.references hs).bind hR.trans fun vs s1 _ hvs => ?_
    exact .pure (hR.refl s1) ⟨⟨Expr.forall_mem_flatMap_references.2 hvs, rfl⟩, rfl⟩
  | data loc kind values =>
    rw [reduce]
    refine (hvalues ht.references hs).bind hR.trans fun vs s1 _ hvs => ?_
    exact .pure (hR.refl s1) ⟨⟨Expr.forall_mem_flatMap_references.2 hvs, rfl⟩, rfl⟩
  | dispatch d =>
    rw [reduce]
    refine (hR.name d.callee s).bind hR.trans fun v s1 h01 _ => ?_
    refine (hvalues ht.references (h01.within D hs)).bind hR.trans fun vs s2 _ hvs => ?_
    exact .pure (hR.refl s2) ⟨⟨Expr.forall_mem_flatMap_references.2 hvs, rfl⟩, rfl⟩
  | assign loc how name value =>
    rw [reduce]
    refine (hR.name name s).bind hR.trans fun name s1 h01 _ => ?_
    refine (reduceValue_within hargs how name ht.references s1 (h01.within D hs)).bind hR.trans
      fun v s2 _ hv => ?_
    exact .pure (hR.refl s2) ⟨⟨hv, rfl⟩, rfl⟩
  | dup loc counter iteration body =>
    rw [reduce]
    refine (nameOnly?_yields hR counter s).bind hR.trans fun counter' s1 h01 _ => ?_
    refine (reduceIteration_within hargs loc counter body ht.references s1 (h01.within D hs)).bind hR.trans
      fun i s2 _ hi => ?_
    refine .pure (hR.refl s2) ⟨⟨?_, ht.proper⟩, rfl⟩
    cases i <;> exact hi
  | macroDef loc name parameters body =>
    rw [reduce]
    refine (hR.name name s).bind hR.trans fun v s1 _ _ => ?_
    exact (Eval.nameOnlyAll_yields hR parameters s1).bind hR.trans fun v s2 _ _ => hpure rfl ht.proper rfl
  | cond loc clauses otherwise assembled =>
    have hreferences := ht.references
    have hproper := ht.proper
    rw [references, List.forall_mem_append] at hreferences
    rw [isProper, everywhere, Bool.and_eq_true, Bool.and_eq_true] at hproper
    rw [reduce]
    refine (reduceClauses_within hargs assembled clauses s hreferences.1 hproper.2.1 hs).bind hR.trans
      fun cs s1 h01 hcs => ?_
    refine (reduceBody_within hargs assembled otherwise s1 hreferences.2 hproper.2.2 (h01.within D hs)).bind
      hR.trans fun o s2 _ ho => .pure (hR.refl s2) ⟨⟨?_, ?_⟩, ?_⟩
    · rw [references, List.forall_mem_append]
      exact ⟨hcs.1, ho.1⟩
    · rw [isProper, everywhere, Bool.and_eq_true, Bool.and_eq_true]
      refine ⟨?_, hcs.2.1, ho.2.1⟩
      -- the bodies that blocks are still to be assembled from are the same
      have hbodies := opensOriginal_iff.1 hproper.1
      cases assembled with
      | true => rfl
      | false =>
        rw [bodies] at hbodies
        rw [opensOriginal_iff, bodies, hcs.2.2.2 rfl, ho.2.2.2 rfl]
        exact hbodies
    · rw [places, places, hcs.2.2.1, ho.2.2.1]
  | _ =>
    rw [reduce]
    · exact .pure (hR.refl s) ⟨ht, rfl⟩
    all_goals simp

/-- Arms that are evaluated. -/
theorem reduceClauses_within (hargs : ∀ a ∈ u.args, a.Within D) (assembled : Bool) :
    ∀ (cs : List Clause) (s : State), (∀ id ∈ clauseReferences assembled cs, D id) →
      clausesEverywhere opensOriginal cs = true →
      Eval.Refers (fun D cs' => (∀ id ∈ clauseReferences assembled cs', D id) ∧
        clausesEverywhere opensOriginal cs' = true ∧ clausePlaces cs' = clausePlaces cs ∧
        (assembled = false → cs'.map Clause.body = cs.map Clause.body)) D (reduceClauses u assembled cs) s := by
  intro cs s hreferences hproper hs
  have hR := Eval.evaluates_retells u
  cases cs with
  | nil =>
    rw [reduceClauses]
    exact .pure (hR.refl s) ⟨hreferences, hproper, rfl, fun _ => rfl⟩
  | cons c rest =>
    cases c with
    | mk test body =>
      rw [clauseReferences, List.forall_mem_append, List.forall_mem_append] at hreferences
      rw [clausesEverywhere, Bool.and_eq_true] at hproper
      obtain ⟨htest, hbody, hrest⟩ := hreferences
      rw [reduceClauses]
      refine (Eval.evaluate_within hargs true htest s hs).bind hR.trans fun v s1 h01 hv => ?_
      have hs1 := h01.within D hs
      have hcons : ∀ (ts : List Token) (s2 : State), State.Retells s1 s2 →
          (assembled = true → ∀ id ∈ allReferences ts, D id) → allEverywhere opensOriginal ts = true →
          allPlaces ts = allPlaces body → (assembled = false → ts = body) →
          Act.Yields State.Retells (fun cs' _ => (∀ id ∈ clauseReferences assembled cs', D id) ∧
            clausesEverywhere opensOriginal cs' = true ∧ clausePlaces cs' = clausePlaces (.mk test body :: rest) ∧
            (assembled = false → cs'.map Clause.body = (Clause.mk test body :: rest).map Clause.body))
            (do return .mk v ts :: (← reduceClauses u assembled rest)) s2 := by
        intro ts s2 h12 hts hopens hplaces hsame
        refine (reduceClauses_within hargs assembled rest s2 hrest hproper.2 (h12.within D hs1)).bind hR.trans
          fun cs s3 _ hcs => .pure (hR.refl s3) ⟨?_, ?_, ?_, fun h => ?_⟩
        · rw [clauseReferences, List.forall_mem_append, List.forall_mem_append]
          refine ⟨hv, ?_, hcs.1⟩
          split
          · exact hts ‹_›
          · exact fun id hid => by cases hid
        · rw [clausesEverywhere, Bool.and_eq_true]
          exact ⟨hopens, hcs.2.1⟩
        · rw [clausePlaces, clausePlaces, hplaces, hcs.2.2.1]
        · rw [List.map_cons, List.map_cons, hcs.2.2.2 h, hsame h]
          rfl
      -- the body is evaluated only where it is assembled
      cases assembled with
      | false =>
        exact hcons body s1 (hR.refl s1) (fun h => by cases h) hproper.1 rfl fun _ => rfl
      | true =>
        refine (reduceAll_within hargs body s1 hbody hproper.1 hs1).bind hR.trans fun ts s2 h12 hts => ?_
        exact hcons ts s2 h12 (fun _ => hts.1) hts.2.1 hts.2.2 fun h => by cases h

/-- An optional body that is evaluated. -/
theorem reduceBody_within (hargs : ∀ a ∈ u.args, a.Within D) (assembled : Bool) :
    ∀ (o : Option (List Token)) (s : State),
      (∀ id ∈ (if assembled then optionReferences o else []), D id) →
      optionEverywhere opensOriginal o = true →
      Eval.Refers (fun D o' => (∀ id ∈ (if assembled then optionReferences o' else []), D id) ∧
        optionEverywhere opensOriginal o' = true ∧ optionPlaces o' = optionPlaces o ∧
        (assembled = false → o' = o)) D (reduceBody u assembled o) s := by
  intro o s hreferences hproper hs
  have hR := Eval.evaluates_retells u
  cases o with
  | none =>
    rw [reduceBody]
    exact .pure (hR.refl s) ⟨hreferences, hproper, rfl, fun _ => rfl⟩
  | some body =>
    rw [reduceBody]
    cases assembled with
    | false => exact .pure (hR.refl s) ⟨hreferences, hproper, rfl, fun _ => rfl⟩
    | true =>
      rw [if_pos rfl, map_eq_pure_bind]
      refine (reduceAll_within hargs body s hreferences hproper hs).bind hR.trans fun ts s1 _ hts => ?_
      exact .pure (hR.refl s1) ⟨hts.1, hts.2.1, hts.2.2, fun h => by cases h⟩

/-- The tokens of a list that are evaluated. -/
theorem reduceAll_within (hargs : ∀ a ∈ u.args, a.Within D) :
    ∀ (ts : List Token) (s : State), (∀ id ∈ allReferences ts, D id) →
      allEverywhere opensOriginal ts = true →
      Eval.Refers (fun D ts' => (∀ id ∈ allReferences ts', D id) ∧ allEverywhere opensOriginal ts' = true ∧
        allPlaces ts' = allPlaces ts) D (reduceAll u ts) s := by
  intro ts s hreferences hproper hs
  have hR := Eval.evaluates_retells u
  cases ts with
  | nil =>
    rw [reduceAll]
    exact .pure (hR.refl s) ⟨hreferences, hproper, rfl⟩
  | cons t rest =>
    rw [allReferences, List.forall_mem_append] at hreferences
    rw [allEverywhere, Bool.and_eq_true] at hproper
    rw [reduceAll]
    refine (reduce_within hargs t s ⟨hreferences.1, hproper.1⟩ hs).bind hR.trans fun t' s1 h01 ht' => ?_
    refine (reduceAll_within hargs rest s1 hreferences.2 hproper.2 (h01.within D hs)).bind hR.trans
      fun ts s2 _ hts => .pure (hR.refl s2) ⟨?_, ?_, ?_⟩
    · rw [allReferences, List.forall_mem_append]
      exact ⟨ht'.1.references, hts.1⟩
    · rw [allEverywhere, Bool.and_eq_true]
      exact ⟨ht'.1.proper, hts.2.1⟩
    · rw [allPlaces, allPlaces, ht'.2, hts.2.2]

end

end Token

end MacroAsm
