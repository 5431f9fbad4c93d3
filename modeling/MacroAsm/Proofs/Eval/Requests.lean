import MacroAsm.Proofs.Eval.Action
import MacroAsm.Proofs.Eval.Settled

/-!
# What evaluation does to the state

Evaluation changes the state in two ways: it asks for names, and it counts the expressions that wait for
one. A preorder of states that contains both, as in `Eval.Tracks`, contains every evaluation.

Every name that an evaluated expression waits for was asked for (`Eval.flattenWith_yields`), apart from
the names that a number is still to be appended to.
-/

namespace MacroAsm

/-- Whether an operator appends a number to a name. -/
def BinaryOp.isJoin : BinaryOp → Bool
  | .joinDecimal | .joinHex => true
  | _ => false

namespace Expr

mutual

/-- The names that an expression waits for, apart from those that a number is to be appended to. -/
def requested : Expr → List Text
  | .identifier _ name => [name]
  | .unary _ _ value => value.requested
  | .binary _ op left right =>
    if op.isJoin then right.requested else left.requested ++ right.requested
  | .ternary _ test onTrue onFalse => test.requested ++ (onTrue.requested ++ onFalse.requested)
  | .call _ _ params => requestedAll params
  | .absolute _ address => address.requested
  | .displaced _ _ displace => displace.requested
  | .offset _ _ value => value.requested
  | _ => []

/-- The names that the expressions of a list wait for. -/
def requestedAll : List Expr → List Text
  | [] => []
  | e :: rest => e.requested ++ requestedAll rest

end

mutual

/-- All names in an expression. -/
def identifiers : Expr → List Text
  | .identifier _ name => [name]
  | .unary _ _ value => value.identifiers
  | .binary _ _ left right => left.identifiers ++ right.identifiers
  | .ternary _ test onTrue onFalse =>
    test.identifiers ++ (onTrue.identifiers ++ onFalse.identifiers)
  | .call _ _ params => identifiersAll params
  | .absolute _ address => address.identifiers
  | .displaced _ _ displace => displace.identifiers
  | .offset _ _ value => value.identifiers
  | _ => []

/-- All names in the expressions of a list. -/
def identifiersAll : List Expr → List Text
  | [] => []
  | e :: rest => e.identifiers ++ identifiersAll rest

end

mutual

/-- The names in an expression that a number is still to be appended to. -/
def joined : Expr → List Text
  | .unary _ _ value => value.joined
  | .binary _ op left right =>
    if op.isJoin then left.identifiers ++ right.joined else left.joined ++ right.joined
  | .ternary _ test onTrue onFalse => test.joined ++ (onTrue.joined ++ onFalse.joined)
  | .call _ _ params => joinedAll params
  | .absolute _ address => address.joined
  | .displaced _ _ displace => displace.joined
  | .offset _ _ value => value.joined
  | _ => []

/-- The names in the expressions of a list that a number is still to be appended to. -/
def joinedAll : List Expr → List Text
  | [] => []
  | e :: rest => e.joined ++ joinedAll rest

end

mutual

/-- An expression waits for every name in it, unless a number is to be appended to the name. -/
theorem mem_identifiers {name : Text} : ∀ e : Expr, name ∈ e.identifiers →
    name ∈ e.requested ∨ name ∈ e.joined := by
  intro e h
  cases e with
  | identifier loc n => exact Or.inl h
  | unary loc op value => exact mem_identifiers value h
  | binary loc op left right =>
    have hleft : name ∈ left.identifiers → _ := mem_identifiers left
    have hright : name ∈ right.identifiers → _ := mem_identifiers right
    rw [identifiers, List.mem_append] at h
    rw [requested, joined]
    -- the left operand of a join is a name that waits for its number
    split
    · rw [List.mem_append]
      rcases h with h | h
      · exact Or.inr (Or.inl h)
      · exact (hright h).imp id Or.inr
    · rw [List.mem_append, List.mem_append]
      rcases h with h | h
      · exact (hleft h).imp Or.inl Or.inl
      · exact (hright h).imp Or.inr Or.inr
  | ternary loc test onTrue onFalse =>
    rw [identifiers, List.mem_append, List.mem_append] at h
    rw [requested, joined, List.mem_append, List.mem_append, List.mem_append, List.mem_append]
    rcases h with h | h | h
    · exact (mem_identifiers test h).imp Or.inl Or.inl
    · exact (mem_identifiers onTrue h).imp (Or.inr ∘ Or.inl) (Or.inr ∘ Or.inl)
    · exact (mem_identifiers onFalse h).imp (Or.inr ∘ Or.inr) (Or.inr ∘ Or.inr)
  | call loc n params => exact mem_identifiersAll params h
  | absolute loc address => exact mem_identifiers address h
  | displaced loc base displace => exact mem_identifiers displace h
  | offset loc base value => exact mem_identifiers value h
  | _ => exact absurd h List.not_mem_nil

/-- The expressions of a list wait for every name in them, unless a number is to be appended to it. -/
theorem mem_identifiersAll {name : Text} : ∀ es : List Expr, name ∈ identifiersAll es →
    name ∈ requestedAll es ∨ name ∈ joinedAll es := by
  intro es h
  cases es with
  | nil => exact absurd h List.not_mem_nil
  | cons e rest =>
    rw [identifiersAll, List.mem_append] at h
    rw [requestedAll, joinedAll, List.mem_append, List.mem_append]
    rcases h with h | h
    · exact (mem_identifiers e h).imp Or.inl Or.inl
    · exact (mem_identifiersAll rest h).imp Or.inr Or.inr

end

mutual

/-- An expression without unresolved names waits for none. -/
theorem requested_of_isResolved : ∀ e : Expr, e.isResolved = true → e.requested = [] := by
  intro e h
  cases e with
  | identifier => cases h
  | unary loc op value => exact requested_of_isResolved value h
  | binary loc op left right =>
    rw [isResolved, Bool.and_eq_true] at h
    rw [requested, requested_of_isResolved left h.1, requested_of_isResolved right h.2]
    split <;> rfl
  | ternary loc test onTrue onFalse =>
    rw [isResolved, Bool.and_eq_true, Bool.and_eq_true] at h
    rw [requested, requested_of_isResolved test h.1.1, requested_of_isResolved onTrue h.1.2,
      requested_of_isResolved onFalse h.2]
    rfl
  | call loc name params => exact requestedAll_of_allResolved params h
  | absolute loc address => exact requested_of_isResolved address h
  | displaced loc base displace => exact requested_of_isResolved displace h
  | offset loc base value => exact requested_of_isResolved value h
  | _ => rfl

/-- Expressions without unresolved names wait for none. -/
theorem requestedAll_of_allResolved : ∀ es : List Expr, allResolved es = true → requestedAll es = [] := by
  intro es h
  cases es with
  | nil => rfl
  | cons e rest =>
    rw [allResolved, Bool.and_eq_true] at h
    rw [requestedAll, requested_of_isResolved e h.1, requestedAll_of_allResolved rest h.2]
    rfl

end

end Expr

namespace Eval

/-- An applied unary operator gives a number. -/
theorem applyUnary_cases {op : UnaryOp} {loc : Location} {e v : Expr}
    (h : applyUnary op loc e = .ok v) : ∃ n, v = .literal loc n := by
  cases op <;> simp only [applyUnary, Except.bind_eq_ok_iff] at h <;>
    obtain ⟨a, -, ha⟩ := h <;> cases ha <;> exact ⟨_, rfl⟩

/-- An applied binary operator gives a number or a string. -/
theorem applyBinary_cases {op : BinaryOp} {loc : Location} {left right v : Expr}
    (h : applyBinary op loc left right = .ok v) :
    (∃ n, v = .literal loc n) ∨ ∃ t, v = .quoted loc t := by
  cases op with
  | equal | notEqual =>
    cases h
    exact Or.inl ⟨_, rfl⟩
  | concat =>
    simp only [applyBinary, Except.bind_eq_ok_iff] at h
    obtain ⟨l, -, r, -, hv⟩ := h
    cases hv
    exact Or.inr ⟨_, rfl⟩
  | _ =>
    simp only [applyBinary, Except.bind_eq_ok_iff] at h
    obtain ⟨l, -, r, -, n, -, hv⟩ := h
    cases hv
    exact Or.inl ⟨_, rfl⟩

/-- A preorder of states, and what is known of a name for good once it is. -/
structure Retains (R : State → State → Prop) (Known : State → Text → Prop) : Prop
    extends Progress R where
  /-- What is known stays so. -/
  known : ∀ s s' name, R s s' → Known s name → Known s' name

/-- A preorder of states that contains what evaluation does, and what is known of a name from the moment
it is asked for. -/
structure Tracks (R : State → State → Prop) (Known : State → Text → Prop) : Prop
    extends Retains R Known where
  /-- A name is asked for. -/
  request : ∀ loc name s, R s ((request loc name).exec s).2 ∧
    Known ((request loc name).exec s).2 name
  /-- An expression that waits is counted. -/
  deferred : ∀ s : State, R s { s with deferred := s.deferred + 1 }

/-- What is known of the names that an evaluated expression waits for, if it was evaluated and not only
built. -/
def Awaits (Known : State → Text → Prop) (propagate : Bool) (e : Expr) (s : State) : Prop :=
  propagate = true → ∀ name ∈ e.requested, Known s name

section Yields

variable {R : State → State → Prop} {Known : State → Text → Prop} {u : Surroundings}
  {resolve : Location → Text → Act Expr} {s : State}

/-- An expression that waits for nothing. -/
theorem Awaits.of_requested_eq_nil {propagate : Bool} {e : Expr} (h : e.requested = []) :
    Awaits Known propagate e s := by
  intro _ name hname
  rw [h] at hname
  cases hname

theorem Retains.awaits (hR : Retains R Known) {propagate : Bool} {e : Expr} {s' : State} (h : R s s')
    (he : Awaits Known propagate e s) : Awaits Known propagate e s' :=
  fun hp name hname => hR.known s s' name h (he hp name hname)

/-- What a function gives waits for no name, or for those of an argument of the macro call. -/
theorem awaits_apply (hargs : ∀ a ∈ u.args, ∀ s, Awaits Known true a s) {f : Builtin} {loc : Location}
    {args : List Expr} {e : Expr} (h : f.apply u.args loc args = .ok e) (propagate : Bool) :
    Awaits Known propagate e s := by
  rcases Builtin.apply_cases h with ⟨v, rfl⟩ | ⟨t, rfl⟩ | hmem
  · exact .of_requested_eq_nil rfl
  · exact .of_requested_eq_nil rfl
  · exact fun _ => hargs e hmem s rfl

/-- A built name is resolved where that is asked for. -/
theorem spell_yields (hR : Retains R Known)
    (hres : ∀ loc name s, Act.Yields R (Awaits Known true) (resolve loc name) s) (propagate : Bool)
    (loc : Location) (name : Text) (s : State) :
    Act.Yields R (Awaits Known propagate)
      (if propagate then resolve loc name else return .identifier loc name : Act Expr) s := by
  cases propagate with
  | true => exact hres loc name s
  | false => exact .pure (hR.refl s) (fun h => by cases h)

/-- A number is appended to a name once it is known. -/
theorem join_yields (hR : Retains R Known)
    (hres : ∀ loc name s, Act.Yields R (Awaits Known true) (resolve loc name) s) (propagate : Bool)
    {op : BinaryOp} (hop : op.isJoin = true) (loc : Location) (l : Expr) (name : Text) {r : Expr}
    (hr : Awaits Known true r s) :
    Act.Yields R (Awaits Known propagate)
      (if r.isConcrete then do
        let name := name ++ suffix op (← Act.lift r.asNumber)
        if propagate then resolve loc name else return .identifier loc name
      else return .binary loc op l r) s := by
  split
  · refine (Act.Yields.lift (Q := fun _ _ => True) (hR.refl s) fun _ _ => trivial).bind hR.trans ?_
    exact fun n s' _ _ => spell_yields hR hres propagate loc _ s'
  · refine .pure (hR.refl s) fun _ name hname => ?_
    rw [Expr.requested, if_pos hop] at hname
    exact hr rfl name hname

mutual

/-- Evaluation leads on, and every name that the result waits for is known. -/
theorem flattenWith_yields (hR : Retains R Known) (hargs : ∀ a ∈ u.args, ∀ s, Awaits Known true a s)
    (hres : ∀ loc name s, Act.Yields R (Awaits Known true) (resolve loc name) s) :
    ∀ (e : Expr) (propagate : Bool) (s : State),
      Act.Yields R (Awaits Known propagate) (flattenWith u resolve e propagate) s := by
  intro e propagate s
  cases e with
  | numeral loc digits =>
    rw [flattenWith, readNumeral]
    refine (Act.Yields.pure (Q := fun _ _ => True) (hR.refl s) trivial :
      Act.Yields R (fun _ _ => True) Act.scope s).bind hR.trans fun scope s' _ _ => ?_
    dsimp only
    split
    · exact .pure (hR.refl s') (.of_requested_eq_nil rfl)
    · exact .raise (hR.refl s') _
  | identifier loc name =>
    rw [flattenWith]
    exact spell_yields hR hres propagate loc name s
  | unary loc op value =>
    by_cases hop : op = .macroLocal
    · subst hop
      rw [flattenWith]
      refine (flattenWith_yields hR hargs hres value false s).bind hR.trans fun v s' _ _ => ?_
      cases v with
      | identifier _ name => exact spell_yields hR hres propagate loc _ s'
      | _ => exact .raise (hR.refl s') _
    · rw [flattenWith]
      · refine (flattenWith_yields hR hargs hres value propagate s).bind hR.trans fun v s' _ hv => ?_
        split
        · refine .lift (hR.refl s') fun r hr => ?_
          obtain ⟨n, rfl⟩ := applyUnary_cases hr
          exact .of_requested_eq_nil rfl
        · exact .pure (hR.refl s') hv
      · exact hop
  | binary loc op left right =>
    have hleft := flattenWith_yields hR hargs hres left
    have hright := flattenWith_yields hR hargs hres right
    -- two operands that both wait wait for the names of both
    have hboth : ∀ {op : BinaryOp} {l r : Expr} {s' : State}, Awaits Known propagate l s' →
        Awaits Known propagate r s' → Awaits Known propagate (.binary loc op l r) s' := by
      intro op l r s' hl hr hp name hname
      rw [Expr.requested] at hname
      split at hname
      · exact hr hp name hname
      · rcases List.mem_append.1 hname with hname | hname
        · exact hl hp name hname
        · exact hr hp name hname
    cases op with
    | joinNames =>
      rw [flattenWith]
      refine (hleft false s).bind hR.trans fun l s1 _ _ => ?_
      cases l with
      | identifier _ l =>
        refine (hright false s1).bind hR.trans fun r s2 _ _ => ?_
        cases r with
        | identifier _ r => exact spell_yields hR hres propagate loc _ s2
        | _ => exact .raise (hR.refl s2) _
      | _ => exact .raise (hR.refl s1) _
    | joinDecimal =>
      rw [flattenWith]
      refine (hleft false s).bind hR.trans fun l s1 _ _ => ?_
      cases l with
      | identifier _ name =>
        refine (hright true s1).bind hR.trans fun r s2 _ hr => ?_
        exact join_yields hR hres propagate rfl loc _ name hr
      | _ => exact .raise (hR.refl s1) _
    | joinHex =>
      rw [flattenWith]
      refine (hleft false s).bind hR.trans fun l s1 _ _ => ?_
      cases l with
      | identifier _ name =>
        refine (hright true s1).bind hR.trans fun r s2 _ hr => ?_
        exact join_yields hR hres propagate rfl loc _ name hr
      | _ => exact .raise (hR.refl s1) _
    | or =>
      rw [flattenWith]
      refine (hleft propagate s).bind hR.trans fun l s1 _ hl => ?_
      split
      · refine (Act.Yields.lift (Q := fun _ _ => True) (hR.refl s1) fun _ _ => trivial).bind
          hR.trans fun t s2 h12 _ => ?_
        split
        · exact .pure (hR.refl s2) (hR.awaits h12 hl)
        · exact hright propagate s2
      · refine (hright propagate s1).bind hR.trans fun r s2 h12 hr => ?_
        exact .pure (hR.refl s2) (hboth (hR.awaits h12 hl) hr)
    | and =>
      rw [flattenWith]
      refine (hleft propagate s).bind hR.trans fun l s1 _ hl => ?_
      split
      · refine (Act.Yields.lift (Q := fun _ _ => True) (hR.refl s1) fun _ _ => trivial).bind
          hR.trans fun t s2 h12 _ => ?_
        split
        · exact hright propagate s2
        · exact .pure (hR.refl s2) (hR.awaits h12 hl)
      · refine (hright propagate s1).bind hR.trans fun r s2 h12 hr => ?_
        exact .pure (hR.refl s2) (hboth (hR.awaits h12 hl) hr)
    | _ =>
      rw [flattenWith]
      · refine (hleft propagate s).bind hR.trans fun l s1 _ hl => ?_
        refine (hright propagate s1).bind hR.trans fun r s2 h12 hr => ?_
        split
        · refine .lift (hR.refl s2) fun v hv => ?_
          obtain ⟨n, rfl⟩ | ⟨t, rfl⟩ := applyBinary_cases hv
          · exact .of_requested_eq_nil rfl
          · exact .of_requested_eq_nil rfl
        · exact .pure (hR.refl s2) (hboth (hR.awaits h12 hl) hr)
      all_goals simp
  | ternary loc test onTrue onFalse =>
    rw [flattenWith]
    refine (flattenWith_yields hR hargs hres test propagate s).bind hR.trans fun t s1 _ ht => ?_
    split
    · refine (Act.Yields.lift (Q := fun _ _ => True) (hR.refl s1) fun _ _ => trivial).bind
        hR.trans fun holds s2 _ _ => ?_
      split
      · exact flattenWith_yields hR hargs hres onTrue propagate s2
      · exact flattenWith_yields hR hargs hres onFalse propagate s2
    · refine (flattenWith_yields hR hargs hres onTrue propagate s1).bind hR.trans
        fun a s2 h12 ha => ?_
      refine (flattenWith_yields hR hargs hres onFalse propagate s2).bind hR.trans
        fun b s3 h23 hb => ?_
      refine .pure (hR.refl s3) fun hp name hname => ?_
      rw [Expr.requested, List.mem_append, List.mem_append] at hname
      rcases hname with hname | hname | hname
      · exact hR.awaits (hR.trans _ _ _ h12 h23) ht hp name hname
      · exact hR.awaits h23 ha hp name hname
      · exact hb hp name hname
  | call loc name params =>
    rw [flattenWith]
    cases Builtin.ofName? name with
    | none => exact .raise (hR.refl s) _
    | some f =>
      refine (flattenAll_yields hR hargs hres params propagate s).bind hR.trans fun args s1 _ ha => ?_
      split
      · exact .lift (hR.refl s1) fun e he => awaits_apply hargs he propagate
      · exact .pure (hR.refl s1) ha
  | absolute loc address =>
    rw [flattenWith]
    refine (flattenWith_yields hR hargs hres address propagate s).bind hR.trans fun v s1 _ hv => ?_
    exact .pure (hR.refl s1) hv
  | displaced loc base displace =>
    rw [flattenWith]
    refine (flattenWith_yields hR hargs hres displace propagate s).bind hR.trans fun v s1 _ hv => ?_
    exact .pure (hR.refl s1) hv
  | offset loc base value =>
    rw [flattenWith]
    refine (flattenWith_yields hR hargs hres value propagate s).bind hR.trans fun v s1 _ hv => ?_
    exact .pure (hR.refl s1) hv
  | _ =>
    rw [flattenWith]
    exact .pure (hR.refl s) (.of_requested_eq_nil rfl)

/-- Evaluating a list leads on, and every name that a result waits for is known. -/
theorem flattenAll_yields (hR : Retains R Known) (hargs : ∀ a ∈ u.args, ∀ s, Awaits Known true a s)
    (hres : ∀ loc name s, Act.Yields R (Awaits Known true) (resolve loc name) s) :
    ∀ (es : List Expr) (propagate : Bool) (s : State),
      Act.Yields R (fun vs s' => propagate = true → ∀ name ∈ Expr.requestedAll vs, Known s' name)
        (flattenAll u resolve es propagate) s := by
  intro es propagate s
  cases es with
  | nil =>
    rw [flattenAll]
    exact .pure (hR.refl s) fun _ name hname => by cases hname
  | cons e rest =>
    rw [flattenAll]
    refine (flattenWith_yields hR hargs hres e propagate s).bind hR.trans fun v s1 _ hv => ?_
    refine (flattenAll_yields hR hargs hres rest propagate s1).bind hR.trans fun vs s2 h12 hvs => ?_
    refine .pure (hR.refl s2) fun hp name hname => ?_
    rcases List.mem_append.1 hname with hname | hname
    · exact hR.awaits h12 hv hp name hname
    · exact hvs hp name hname

end

theorem requested_tag (name : Text) (e : Expr) : (tag name e).requested = e.requested := by
  cases e <;> rfl

/-- Resolving a name leads on, if evaluating the value it is bound to does. -/
theorem resolveOnce_yields (hR : Tracks R Known) {evaluate : Expr → Act Expr} {name : Text}
    (hevaluate : ∀ value s, Known s name → Act.Yields R (Awaits Known true) (evaluate value) s)
    (guard : List Text) (loc : Location) (s : State) :
    Act.Yields R (Awaits Known true) (resolveOnce evaluate guard loc name) s := by
  rw [resolveOnce]
  split
  · have hrequest : Act.Yields R (fun _ s' => Known s' name) (request loc name) s :=
      ⟨(hR.request loc name s).1, fun _ _ => (hR.request loc name s).2⟩
    refine hrequest.bind hR.trans fun sym s1 _ hknown => ?_
    split
    · exact .raise (hR.refl s1) _
    · split
      · rename_i value _
        refine (hevaluate value s1 hknown).bind hR.trans fun v s2 _ hv => .pure (hR.refl s2) ?_
        rwa [Awaits, requested_tag]
      · refine .pure (hR.refl s1) fun _ other hother => ?_
        rw [Expr.requested, List.mem_singleton] at hother
        rwa [hother]
  · exact .report (hR.refl s) _

/-- Resolving a name leads on. -/
theorem resolve_yields (hR : Tracks R Known) (hargs : ∀ a ∈ u.args, ∀ s, Awaits Known true a s)
    (fuel : Nat) (guard : List Text) (loc : Location) (name : Text) (s : State) :
    Act.Yields R (Awaits Known true) (Eval.resolve u fuel guard loc name) s := by
  induction fuel generalizing guard loc name s with
  | zero =>
    rw [Eval.resolve]
    refine resolveOnce_yields hR (fun value s' hknown => .pure (hR.refl s') ?_) guard loc s
    intro _ other hother
    rw [Expr.requested, List.mem_singleton] at hother
    rwa [hother]
  | succ fuel ih =>
    rw [Eval.resolve]
    refine resolveOnce_yields hR (fun value s' _ => ?_) guard loc s
    exact flattenWith_yields hR.toRetains hargs (fun loc name s => ih _ loc name s) value true s'

end Yields

/-- A preorder of states that contains every evaluation, and what is known of the names that an evaluated
expression waits for. -/
structure Evaluates (u : Surroundings) (R : State → State → Prop) (Known : State → Text → Prop) : Prop
    extends Retains R Known where
  /-- An expression is evaluated. -/
  value : ∀ e guard s, Act.Yields R (Awaits Known true) (flattenGuarded u e guard) s
  /-- The names in an expression are built. -/
  name : ∀ e s, Act.Yields R (fun _ _ => True) (nameOnly u e) s
  /-- An expression that waits is counted. -/
  deferred : ∀ s : State, R s { s with deferred := s.deferred + 1 }

section Evaluate

variable {R : State → State → Prop} {Known : State → Text → Prop} {u : Surroundings}

/-- What tracks the names that are asked for contains every evaluation. -/
theorem Tracks.evaluates (hR : Tracks R Known) (hargs : ∀ a ∈ u.args, ∀ s, Awaits Known true a s) :
    Evaluates u R Known := by
  have hscope : ∀ s, Act.Yields R (fun _ _ => True) Act.scope s :=
    fun s => ⟨hR.refl s, fun _ _ => trivial⟩
  refine ⟨hR.toRetains, fun e guard s => ?_, fun e s => ?_, hR.deferred⟩
  · refine (hscope s).bind hR.trans fun scope s1 _ _ => ?_
    exact flattenWith_yields hR.toRetains hargs (resolve_yields hR hargs _ guard) e true s1
  · refine (hscope s).bind hR.trans fun scope s1 _ _ => ?_
    exact (flattenWith_yields hR.toRetains hargs (resolve_yields hR hargs _ []) e false s1).imp
      fun _ _ _ => trivial

/-- Counting an expression that waits leads on. -/
theorem settle_yields (hR : Evaluates u R Known) (deferrable : Bool) {e : Expr} {s : State}
    (he : Awaits Known true e s) : Act.Yields R (Awaits Known true) (settle deferrable e) s := by
  rw [settle]
  split
  · exact .pure (hR.refl s) he
  · split
    · have hcount : Act.Yields R (fun _ _ => True)
          (modify fun s => { s with deferred := s.deferred + 1 } : Act PUnit) s :=
        ⟨hR.deferred s, fun _ _ => trivial⟩
      exact hcount.bind hR.trans fun _ s1 h01 _ => .pure (hR.refl s1) (hR.awaits h01 he)
    · exact .raise (hR.refl s) _

/-- Evaluating an expression leads on, and every name that the result waits for is known. -/
theorem evaluate_yields (hR : Evaluates u R Known) (deferrable : Bool) (e : Expr) (s : State) :
    Act.Yields R (Awaits Known true) (evaluate u deferrable e) s := by
  rw [evaluate, flatten]
  refine (hR.value e [] s).bind hR.trans fun v s1 _ hv => ?_
  exact settle_yields hR deferrable hv

/-- Evaluating the value of a definition leads on. -/
theorem evaluateDefinition_yields (hR : Evaluates u R Known) (name : Text) (e : Expr) (s : State) :
    Act.Yields R (Awaits Known true) (evaluateDefinition u name e) s := by
  rw [evaluateDefinition]
  refine (hR.value e [name] s).bind hR.trans fun v s1 _ hv => ?_
  exact settle_yields hR true hv

/-- Evaluating the expressions of a list leads on. -/
theorem evaluateAll_yields (hR : Evaluates u R Known) (deferrable : Bool) (es : List Expr)
    (s : State) :
    Act.Yields R (fun vs s' => ∀ name ∈ vs.flatMap Expr.requested, Known s' name)
      (evaluateAll u deferrable es) s := by
  induction es generalizing s with
  | nil => exact .pure (hR.refl s) fun name hname => by cases hname
  | cons e rest ih =>
    rw [evaluateAll]
    refine (evaluate_yields hR deferrable e s).bind hR.trans fun v s1 _ hv => ?_
    refine (ih s1).bind hR.trans fun vs s2 h12 hvs => .pure (hR.refl s2) fun name hname => ?_
    rcases List.mem_append.1 hname with hname | hname
    · exact hR.awaits h12 hv rfl name hname
    · exact hvs name hname

/-- Spelling a name leads on. -/
theorem nameOf_yields (hR : Evaluates u R Known) (e : Expr) (s : State) :
    Act.Yields R (fun _ _ => True) (nameOf u e) s := by
  rw [nameOf]
  refine (hR.name e s).bind hR.trans fun v s1 _ _ => ?_
  split
  · exact .pure (hR.refl s1) trivial
  · exact .raise (hR.refl s1) _

/-- Spelling the names of a list leads on. -/
theorem namesOf_yields (hR : Evaluates u R Known) (es : List Expr) (s : State) :
    Act.Yields R (fun _ _ => True) (namesOf u es) s := by
  induction es generalizing s with
  | nil => exact .pure (hR.refl s) trivial
  | cons e rest ih =>
    rw [namesOf]
    refine (nameOf_yields hR e s).bind hR.trans fun n s1 _ _ => ?_
    exact (ih s1).bind hR.trans fun ns s2 _ _ => .pure (hR.refl s2) trivial

/-- Building the names of a list leads on. -/
theorem nameOnlyAll_yields (hR : Evaluates u R Known) (es : List Expr) (s : State) :
    Act.Yields R (fun _ _ => True) (nameOnlyAll u es) s := by
  induction es generalizing s with
  | nil => exact .pure (hR.refl s) trivial
  | cons e rest ih =>
    rw [nameOnlyAll]
    refine (hR.name e s).bind hR.trans fun n s1 _ _ => ?_
    exact (ih s1).bind hR.trans fun ns s2 _ _ => .pure (hR.refl s2) trivial

end Evaluate

end Eval

end MacroAsm
