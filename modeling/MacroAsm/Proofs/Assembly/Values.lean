import MacroAsm.Proofs.Assembly.Encoding
import MacroAsm.Proofs.Assembly.Entry

/-!
# The values in tokens

The names that a statement declares or calls are only built, but its values are evaluated: elements, texts, operands,
targets, sizes, arguments, bounds and tests, and what is in the arms of an assembled IF (`Token.values`). A value is
resolved if there is no name left in it (`Expr.identifiers_eq_nil_iff`).

All values of a token are resolved if it was evaluated and no expression was counted that waits
(`Token.isResolved_of_rests`). If it is output, they also are if a look through the token says so
(`Token.isResolved_of_mem_values`), which passes over the bounds of a DUP. So the items that the second stage of a
block leaves are marked, to be evaluated again, if there is a name in one of their values (`Grammar.binds_retried`).
-/

namespace MacroAsm

namespace Expr

mutual

/-- There is no name in an expression exactly if it is resolved. -/
theorem identifiers_eq_nil_iff : ∀ e : Expr, e.identifiers = [] ↔ e.isResolved = true := by
  intro e
  cases e with
  | identifier => exact iff_of_false (List.cons_ne_nil _ _) Bool.false_ne_true
  | unary loc op value => exact identifiers_eq_nil_iff value
  | binary loc op left right =>
    rw [identifiers, isResolved, List.append_eq_nil_iff, Bool.and_eq_true, identifiers_eq_nil_iff left,
      identifiers_eq_nil_iff right]
  | ternary loc test onTrue onFalse =>
    rw [identifiers, isResolved, List.append_eq_nil_iff, List.append_eq_nil_iff, Bool.and_eq_true,
      Bool.and_eq_true, identifiers_eq_nil_iff test, identifiers_eq_nil_iff onTrue, identifiers_eq_nil_iff onFalse,
      and_assoc]
  | call loc name params => exact identifiersAll_eq_nil_iff params
  | absolute loc address => exact identifiers_eq_nil_iff address
  | displaced loc base displace => exact identifiers_eq_nil_iff displace
  | offset loc base value => exact identifiers_eq_nil_iff value
  | _ => exact iff_of_true rfl rfl

/-- There is no name in the expressions of a list exactly if they are resolved. -/
theorem identifiersAll_eq_nil_iff : ∀ es : List Expr, identifiersAll es = [] ↔ allResolved es = true := by
  intro es
  cases es with
  | nil => exact iff_of_true rfl rfl
  | cons e rest =>
    rw [identifiersAll, allResolved, List.append_eq_nil_iff, Bool.and_eq_true, identifiers_eq_nil_iff e,
      identifiersAll_eq_nil_iff rest]

end

/-- The expressions of a list are resolved if each of them is. -/
theorem allResolved_iff {es : List Expr} : allResolved es = true ↔ ∀ e ∈ es, e.isResolved = true := by
  induction es with
  | nil => simp [allResolved]
  | cons e rest ih => rw [allResolved, Bool.and_eq_true, ih, List.forall_mem_cons]

end Expr

/-- What the turns of a DUP depend on: a count, a list or bounds. -/
def Iteration.values : Iteration → List Expr
  | .count n => [n]
  | .list _ items => items
  | .characters _ strings => strings
  | .sequence _ first last step => first.toList ++ (last.toList ++ step.toList)

namespace Token

mutual

/-- The values in a token. Those in the arms of an IF belong to it if it is assembled. -/
def values : Token → List Expr
  | .data _ _ values => values
  | .display _ _ text => text
  | .immediate _ value _ _ => [value]
  | .branch b => [b.target]
  | .allocate _ size => [size]
  | .align _ value => [value]
  | .dispatch d => d.operands
  | .dup _ _ iteration _ => iteration.values
  | .cond _ clauses otherwise assembled => clauseValues assembled clauses ++ optionValues assembled otherwise
  | _ => []

/-- The values in the tokens of a list. -/
def allValues : List Token → List Expr
  | [] => []
  | t :: rest => values t ++ allValues rest

/-- The tests of a list of arms, and the values in their bodies if they are assembled. -/
def clauseValues (assembled : Bool) : List Clause → List Expr
  | [] => []
  | .mk test body :: rest => test :: ((if assembled then allValues body else []) ++ clauseValues assembled rest)

/-- The values in an optional body, if it is assembled. -/
def optionValues (assembled : Bool) : Option (List Token) → List Expr
  | none => []
  | some body => if assembled then allValues body else []

end

variable {f : Expr → List Text} {name : Text}

mutual

/-- The names that are read off a token are read off its values. -/
theorem exists_mem_values : ∀ t : Token, name ∈ t.names f → ∃ e ∈ t.values, name ∈ f e := by
  intro t ht
  cases t with
  | cond loc clauses otherwise assembled =>
    rw [names, List.mem_append] at ht
    rw [values]
    rcases ht with ht | ht
    · obtain ⟨e, he, hname⟩ := exists_mem_clauseValues assembled clauses ht
      exact ⟨e, List.mem_append_left _ he, hname⟩
    · obtain ⟨e, he, hname⟩ := exists_mem_optionValues assembled otherwise ht
      exact ⟨e, List.mem_append_right _ he, hname⟩
  | display | data | dispatch => exact List.mem_flatMap.1 ht
  | immediate | branch | allocate | align => exact ⟨_, List.mem_cons_self, ht⟩
  | _ => exact absurd ht List.not_mem_nil

/-- So are those that are read off the tokens of a list. -/
theorem exists_mem_allValues : ∀ ts : List Token, name ∈ allNames f ts → ∃ e ∈ allValues ts, name ∈ f e := by
  intro ts hts
  cases ts with
  | nil => exact absurd hts List.not_mem_nil
  | cons t rest =>
    rw [allNames, List.mem_append] at hts
    rw [allValues]
    rcases hts with ht | hrest
    · obtain ⟨e, he, hname⟩ := exists_mem_values t ht
      exact ⟨e, List.mem_append_left _ he, hname⟩
    · obtain ⟨e, he, hname⟩ := exists_mem_allValues rest hrest
      exact ⟨e, List.mem_append_right _ he, hname⟩

/-- So are those that are read off arms. -/
theorem exists_mem_clauseValues (assembled : Bool) :
    ∀ cs : List Clause, name ∈ clauseNames f assembled cs → ∃ e ∈ clauseValues assembled cs, name ∈ f e := by
  intro cs hcs
  cases cs with
  | nil => exact absurd hcs List.not_mem_nil
  | cons c rest =>
    obtain ⟨test, body⟩ := c
    rw [clauseNames, List.mem_append, List.mem_append] at hcs
    rw [clauseValues]
    rcases hcs with htest | hbody | hrest
    · exact ⟨test, List.mem_cons_self, htest⟩
    · cases assembled with
      | false => exact absurd hbody List.not_mem_nil
      | true =>
        obtain ⟨e, he, hname⟩ := exists_mem_allValues body hbody
        exact ⟨e, List.mem_cons_of_mem _ (List.mem_append_left _ he), hname⟩
    · obtain ⟨e, he, hname⟩ := exists_mem_clauseValues assembled rest hrest
      exact ⟨e, List.mem_cons_of_mem _ (List.mem_append_right _ he), hname⟩

/-- So are those that are read off an optional body. -/
theorem exists_mem_optionValues (assembled : Bool) :
    ∀ o : Option (List Token), name ∈ optionNames f assembled o → ∃ e ∈ optionValues assembled o, name ∈ f e := by
  intro o ho
  cases o with
  | none => exact absurd ho List.not_mem_nil
  | some body =>
    cases assembled with
    | false => exact absurd ho List.not_mem_nil
    | true => exact exists_mem_allValues body ho

end

/-- A token waits for no name if its values are resolved. -/
theorem requested_of_values {t : Token} (h : ∀ e ∈ t.values, e.isResolved = true) : t.requested = [] := by
  refine List.eq_nil_iff_forall_not_mem.2 fun name hname => ?_
  obtain ⟨e, he, hname⟩ := exists_mem_values t hname
  rw [Expr.requested_of_isResolved e (h e he)] at hname
  cases hname

mutual

/-- The values in a piece of output that is looked through are resolved. -/
theorem isResolved_of_mem_values : ∀ t : Token, t.isOutput = true → t.isResolved = true →
    ∀ e ∈ t.values, e.isResolved = true := by
  intro t houtput ht
  cases t with
  | cond loc clauses otherwise assembled =>
    rw [isResolved, Bool.and_eq_true] at ht
    have hnested := Bool.and_eq_true_iff.1 (Bool.and_eq_true_iff.1 houtput).2
    intro e he
    rcases List.mem_append.1 he with he | he
    · exact isResolved_of_mem_clauseValues assembled clauses hnested.1 ht.1 e he
    · exact isResolved_of_mem_optionValues assembled otherwise hnested.2 ht.2 e he
  | display | data | dispatch => exact Expr.allResolved_iff.1 ht
  | immediate | branch | allocate | align => exact List.forall_mem_singleton.2 ht
  | dup => rcases role_of_isOutput houtput with hrole | hrole <;> cases hrole
  | _ => exact fun e he => absurd he List.not_mem_nil

/-- So are those in the tokens of a list. -/
theorem isResolved_of_mem_allValues : ∀ ts : List Token,
    allEverywhere (fun t => t.role == .assembled || t.role == .plain) ts = true → allResolved ts = true →
    ∀ e ∈ allValues ts, e.isResolved = true := by
  intro ts houtput hts
  cases ts with
  | nil => exact fun e he => absurd he List.not_mem_nil
  | cons t rest =>
    rw [allResolved, Bool.and_eq_true] at hts
    rw [allEverywhere, Bool.and_eq_true] at houtput
    intro e he
    rcases List.mem_append.1 he with he | he
    · exact isResolved_of_mem_values t houtput.1 hts.1 e he
    · exact isResolved_of_mem_allValues rest houtput.2 hts.2 e he

/-- So are those in arms. -/
theorem isResolved_of_mem_clauseValues (assembled : Bool) : ∀ cs : List Clause,
    clausesEverywhere (fun t => t.role == .assembled || t.role == .plain) cs = true → clausesResolved cs = true →
    ∀ e ∈ clauseValues assembled cs, e.isResolved = true := by
  intro cs houtput hcs
  cases cs with
  | nil => exact fun e he => absurd he List.not_mem_nil
  | cons c rest =>
    obtain ⟨test, body⟩ := c
    rw [clausesResolved, Bool.and_eq_true, Bool.and_eq_true] at hcs
    rw [clausesEverywhere, Bool.and_eq_true] at houtput
    rw [clauseValues, List.forall_mem_cons]
    refine ⟨hcs.1.1, fun e he => ?_⟩
    rcases List.mem_append.1 he with he | he
    · cases assembled with
      | false => cases he
      | true => exact isResolved_of_mem_allValues body houtput.1 hcs.1.2 e he
    · exact isResolved_of_mem_clauseValues assembled rest houtput.2 hcs.2 e he

/-- So are those in an optional body. -/
theorem isResolved_of_mem_optionValues (assembled : Bool) : ∀ o : Option (List Token),
    optionEverywhere (fun t => t.role == .assembled || t.role == .plain) o = true → optionResolved o = true →
    ∀ e ∈ optionValues assembled o, e.isResolved = true := by
  intro o houtput ho
  cases o with
  | none => exact fun e he => absurd he List.not_mem_nil
  | some body =>
    cases assembled with
    | false => exact fun e he => absurd he List.not_mem_nil
    | true => exact isResolved_of_mem_allValues body houtput ho

end

section Reduce

variable {u : Surroundings} {s s' : State}

/-- Building a name counts nothing that it forgets. -/
theorem deferred_le_of_nameOnly {e v : Expr} (h : (Eval.nameOnly u e).exec s = (.ok v, s')) :
    s.deferred ≤ s'.deferred := by
  have hname := ((Eval.tracks_deferred.evaluates (u := u) fun _ _ _ _ _ _ => trivial).name e s).1
  rwa [h] at hname

/-- An expression that may be missing is counted if it waits. -/
theorem counts_reduce? {e v : Option Expr} (h : (reduce? u e).exec s = (.ok v, s')) :
    s.deferred ≤ s'.deferred ∧ (s'.deferred ≤ s.deferred → ∀ x ∈ v.toList, x.isResolved = true) := by
  cases e with
  | none =>
    cases h
    exact ⟨le_refl _, fun _ x hx => absurd hx List.not_mem_nil⟩
  | some e =>
    rw [reduce?, map_eq_pure_bind] at h
    obtain ⟨x, s1, hx, heq⟩ := Act.exists_of_exec_bind h
    cases heq
    obtain ⟨-, -, hle, hresolved⟩ := Eval.leaves_of_evaluate hx
    exact ⟨hle, fun hcount => List.forall_mem_singleton.2 (hresolved hcount)⟩

/-- What the turns of a DUP depend on is resolved if nothing was counted that waits. -/
theorem isResolved_of_reduceIteration {i i' : Iteration} (h : (reduceIteration u i).exec s = (.ok i', s'))
    (hcount : s'.deferred ≤ s.deferred) : ∀ e ∈ i'.values, e.isResolved = true := by
  cases i with
  | count n =>
    rw [reduceIteration] at h
    obtain ⟨v, s1, hv, heq⟩ := Act.exists_of_exec_bind h
    cases heq
    exact List.forall_mem_singleton.2 ((Eval.leaves_of_evaluate hv).2.2.2 hcount)
  | list element items | characters element items =>
    rw [reduceIteration] at h
    obtain ⟨_, s1, helement, h⟩ := Act.exists_of_exec_bind h
    obtain ⟨vs, s2, hvs, heq⟩ := Act.exists_of_exec_bind h
    cases heq
    exact (Eval.leaves_of_evaluateAll hvs).2.2.2 (hcount.trans (deferred_le_of_nameOnly helement))
  | sequence element first last step =>
    rw [reduceIteration] at h
    obtain ⟨_, s1, helement, h⟩ := Act.exists_of_exec_bind h
    obtain ⟨first', s2, hfirst, h⟩ := Act.exists_of_exec_bind h
    obtain ⟨last', s3, hlast, h⟩ := Act.exists_of_exec_bind h
    obtain ⟨step', s4, hstep, heq⟩ := Act.exists_of_exec_bind h
    cases heq
    -- the count stayed from one bound to the next
    have hle := deferred_le_of_nameOnly helement
    obtain ⟨hle1, hresolved1⟩ := counts_reduce? hfirst
    obtain ⟨hle2, hresolved2⟩ := counts_reduce? hlast
    obtain ⟨hle3, hresolved3⟩ := counts_reduce? hstep
    intro e he
    rcases List.mem_append.1 he with he | he
    · exact hresolved1 (by omega) e he
    · rcases List.mem_append.1 he with he | he
      · exact hresolved2 (by omega) e he
      · exact hresolved3 (by omega) e he

/-- The values of a statement that is evaluated and not marked are resolved, unless it is carried out when names are
bound. -/
theorem isResolved_of_rests {t t' : Token} (hrests : t.Rests u t') (hstatement : t.isStatement = true)
    (hrole : t.role ≠ .binding) : ∀ e ∈ t'.values, e.isResolved = true := by
  obtain ⟨s, s', hexec, hcount⟩ := hrests
  have hassembled := role_of_isStatement hstatement
  -- a token that evaluation does not touch
  have hsame : ∀ {t' : Token}, (pure t : Act Token).exec s = (.ok t', s') → t.values = [] →
      ∀ e ∈ t'.values, e.isResolved = true := by
    intro t' h ht
    cases h
    rw [ht]
    exact fun e he => absurd he List.not_mem_nil
  -- a token over expressions that are evaluated one after the other
  have hall : ∀ {es : List Expr} {make : List Expr → Token} {s : State},
      (do return make (← Eval.evaluateAll u true es) : Act Token).exec s = (.ok t', s') →
      s'.deferred ≤ s.deferred → (∀ vs, (make vs).values = vs) → ∀ e ∈ t'.values, e.isResolved = true := by
    intro es make s h hcount hmake
    obtain ⟨vs, s1, hvs, heq⟩ := Act.exists_of_exec_bind h
    cases heq
    rw [hmake]
    exact (Eval.leaves_of_evaluateAll hvs).2.2.2 hcount
  have hone : ∀ {e : Expr} {make : Expr → Token},
      (do return make (← Eval.evaluate u true e) : Act Token).exec s = (.ok t', s') →
      (∀ v, (make v).values = [v]) → ∀ e ∈ t'.values, e.isResolved = true := by
    intro e make h hmake
    obtain ⟨v, s1, hv, heq⟩ := Act.exists_of_exec_bind h
    cases heq
    rw [hmake]
    exact List.forall_mem_singleton.2 ((Eval.leaves_of_evaluate hv).2.2.2 hcount)
  cases t with
  | display loc kind text =>
    rw [reduce] at hexec
    exact hall hexec hcount fun _ => rfl
  | data loc kind values =>
    rw [reduce] at hexec
    exact hall hexec hcount fun _ => rfl
  | allocate loc size =>
    rw [reduce] at hexec
    exact hone hexec fun _ => rfl
  | align loc value =>
    rw [reduce] at hexec
    exact hone hexec fun _ => rfl
  | dispatch d =>
    rw [reduce] at hexec
    obtain ⟨callee, s1, hcallee, hexec⟩ := Act.exists_of_exec_bind hexec
    exact hall hexec (hcount.trans (deferred_le_of_nameOnly hcallee)) fun _ => rfl
  | dup loc counter iteration body =>
    rw [reduce] at hexec
    obtain ⟨_, s1, hcounter, hexec⟩ := Act.exists_of_exec_bind hexec
    obtain ⟨iteration', s2, hiteration, heq⟩ := Act.exists_of_exec_bind hexec
    cases heq
    refine isResolved_of_reduceIteration hiteration (hcount.trans ?_)
    cases counter with
    | none =>
      cases hcounter
      exact le_refl _
    | some e =>
      rw [nameOnly?, map_eq_pure_bind] at hcounter
      obtain ⟨_, s3, hname, heq⟩ := Act.exists_of_exec_bind hcounter
      cases heq
      exact deferred_le_of_nameOnly hname
  | immediate | branch => exact absurd rfl hassembled
  | inclusion | radix | assign | label | retract | macroDef => exact absurd rfl hrole
  | cond _ _ _ assembled =>
    cases assembled with
    | true => exact absurd rfl hassembled
    | false => exact absurd rfl hrole
  | declare _ how _ =>
    cases how with
    | locally => exact absurd rfl hrole
    | _ =>
      rw [reduce] at hexec
      · exact hsame hexec rfl
      all_goals simp
  | _ =>
    rw [reduce] at hexec
    · exact hsame hexec rfl
    all_goals simp

end Reduce

end Token

namespace Grammar

/-- A statement that was evaluated is marked unless its values are resolved. One that is carried out when names are
bound need not be. -/
def Reduced (item : Item) : Prop :=
  Declared item ∧
    (item.pending = false → item.token.role ≠ .binding → ∀ e ∈ item.token.values, e.isResolved = true)

/-- An item that is left when names are bound is marked unless its values are resolved. -/
def Retried (item : Item) : Prop :=
  item.token.IsCarried ∧ (item.pending = false → ∀ e ∈ item.token.values, e.isResolved = true)

/-- There are no values in diagnostics and fragments. -/
theorem retried_of_values {item : Item} (houtput : item.token.isOutput = true) (h : item.token.values = []) :
    Retried item := by
  refine ⟨Or.inl houtput, fun _ e he => ?_⟩
  rw [h] at he
  cases he

/-- What the second stage of a block emits beside its items is marked unless its values are resolved: what a nested
block gave is looked through when it is spliced in, and an IF that is left undecided is marked. -/
theorem admits_retried : (encoding false).Admits Retried where
  message := by
    rintro ⟨t, pending⟩ h
    cases t with
    | message d => exact retried_of_values rfl rfl
    | _ => cases h
  fragment _ _ _ := retried_of_values rfl rfl
  spliced t ht := ⟨Or.inl ht.1, fun hpending =>
    Token.isResolved_of_mem_values t ht.1 (by simpa [Item.spliced] using hpending)⟩

theorem admitsCond_retried (loc : Location) : (encoding false).AdmitsCond Retried loc :=
  fun _ _ hclauses hotherwise => ⟨Or.inl (output_cond (fun c hc t ht => (hclauses c hc t ht).1)
    fun body hbody t ht => (hotherwise body hbody t ht).1).1, nofun⟩

/-- The second stage of a block leaves items that are marked unless their values are resolved. -/
theorem binds_retried {w : Workbench} (hw : (encoding false).Equips w) : (encoding false).Binds w Retried := by
  refine ⟨Declared, .last maps_declare, .step ?_ ((encoding false).stable_knows Reduced) (.last ?_)⟩
  -- what the first evaluation does not mark is resolved, unless it binds names
  · refine maps_reduceFirst (fun item h => ⟨reports_declared item h, fun hpending _ =>
        (admits_retried.message item h).2 hpending⟩) fun item t' pending hitem hreduces hrests => ?_
    have hrole : t'.role = item.token.role := hreduces.rolesFrom.1
    refine ⟨⟨hreduces.rolesFrom.isStatement hitem.1, by rw [hrole]; exact hitem.2⟩, fun hpending hbinding => ?_⟩
    exact Token.isResolved_of_rests (hrests hpending) hitem.1 (by rwa [← hrole])
  -- what is left of the statements does not bind names, and is passed on
  · refine maps_localize admits_retried hw (fun loc _ _ _ _ => admitsCond_retried loc)
      (fun item hitem body hbody => Token.everywhere_of_mem_bodies hitem.1.1 hbody)
      (fun _ _ _ _ _ _ _ _ _ _ => trivial) ?_ ?_
    · intro item hitem ts hts
      exact absurd (Token.role_of_decision? hts) (Token.role_of_isStatement hitem.1.1)
    · intro item hitem hbinding _
      exact ⟨Token.isCarried_of_isStatement hitem.1.1 hitem.1.2 hbinding,
        fun hpending => hitem.2 hpending hbinding⟩

end Grammar

end MacroAsm
