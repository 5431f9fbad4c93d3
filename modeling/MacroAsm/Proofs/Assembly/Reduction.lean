import MacroAsm.Assembly.Reduce
import MacroAsm.Proofs.Eval.Requests

/-!
# Evaluating tokens

Evaluating the expressions of a token leads on as evaluation does, and every name that the evaluated token
waits for is known (`Token.reduce_yields`).
-/

namespace MacroAsm

namespace Token

section Names

variable (f : Expr → List Text)

mutual

/-- The names that `f` finds in the expressions of a piece of output. The bodies of an IF count once they
are assembled. -/
def names : Token → List Text
  | .immediate _ value _ _ => f value
  | .branch b => f b.target
  | .data _ _ values => values.flatMap f
  | .display _ _ text => text.flatMap f
  | .allocate _ size => f size
  | .align _ value => f value
  | .dispatch d => d.operands.flatMap f
  | .cond _ clauses otherwise assembled =>
    clauseNames assembled clauses ++ optionNames assembled otherwise
  | _ => []

/-- The names in the tokens of a list. -/
def allNames : List Token → List Text
  | [] => []
  | t :: rest => names t ++ allNames rest

/-- The names in the tests of a list of arms, and in their bodies if they are assembled. -/
def clauseNames (assembled : Bool) : List Clause → List Text
  | [] => []
  | .mk test body :: rest =>
    f test ++ ((if assembled then allNames body else []) ++ clauseNames assembled rest)

/-- The names in an optional body, if it is assembled. -/
def optionNames (assembled : Bool) : Option (List Token) → List Text
  | none => []
  | some body => if assembled then allNames body else []

end

end Names

/-- The names that the expressions of a piece of output wait for, apart from those that a number is to be
appended to. -/
def requested (t : Token) : List Text := t.names Expr.requested

section Reduce

variable {R : State → State → Prop} {Known : State → Text → Prop} {u : Surroundings}

/-- Evaluating an expression that may be missing leads on. -/
theorem reduce?_yields (hR : Eval.Evaluates u R Known) (e : Option Expr) (s : State) :
    Act.Yields R (fun _ _ => True) (reduce? u e) s := by
  cases e with
  | none => exact .pure (hR.refl s) trivial
  | some e =>
    rw [reduce?, map_eq_pure_bind]
    refine (Eval.evaluate_yields hR true e s).bind hR.trans fun v s1 _ _ => ?_
    exact .pure (hR.refl s1) trivial

/-- Building the name of an expression that may be missing leads on. -/
theorem nameOnly?_yields (hR : Eval.Evaluates u R Known) (e : Option Expr) (s : State) :
    Act.Yields R (fun _ _ => True) (nameOnly? u e) s := by
  cases e with
  | none => exact .pure (hR.refl s) trivial
  | some e =>
    rw [nameOnly?, map_eq_pure_bind]
    refine (hR.name e s).bind hR.trans fun v s1 _ _ => ?_
    exact .pure (hR.refl s1) trivial

/-- Evaluating the value of an assignment leads on. -/
theorem reduceValue_yields (hR : Eval.Evaluates u R Known) (how : Assignment) (name value : Expr)
    (s : State) : Act.Yields R (fun _ _ => True) (reduceValue u how name value) s := by
  rw [reduceValue.eq_def]
  split
  · exact (Eval.evaluateDefinition_yields hR _ value s).imp fun _ _ _ => trivial
  · exact (Eval.evaluateDefinition_yields hR _ value s).imp fun _ _ _ => trivial
  · exact (Eval.evaluate_yields hR true value s).imp fun _ _ _ => trivial

/-- Evaluating what a body is replayed for leads on. -/
theorem reduceIteration_yields (hR : Eval.Evaluates u R Known) (i : Iteration) (s : State) :
    Act.Yields R (fun _ _ => True) (reduceIteration u i) s := by
  cases i with
  | count n =>
    refine (Eval.evaluate_yields hR true n s).bind hR.trans fun v s1 _ _ => ?_
    exact .pure (hR.refl s1) trivial
  | list element items =>
    refine (hR.name element s).bind hR.trans fun v s1 _ _ => ?_
    refine (Eval.evaluateAll_yields hR true items s1).bind hR.trans fun vs s2 _ _ => ?_
    exact .pure (hR.refl s2) trivial
  | characters element strings =>
    refine (hR.name element s).bind hR.trans fun v s1 _ _ => ?_
    refine (Eval.evaluateAll_yields hR true strings s1).bind hR.trans fun vs s2 _ _ => ?_
    exact .pure (hR.refl s2) trivial
  | sequence element first last step =>
    refine (hR.name element s).bind hR.trans fun v s1 _ _ => ?_
    refine (reduce?_yields hR first s1).bind hR.trans fun v s2 _ _ => ?_
    refine (reduce?_yields hR last s2).bind hR.trans fun v s3 _ _ => ?_
    refine (reduce?_yields hR step s3).bind hR.trans fun v s4 _ _ => ?_
    exact .pure (hR.refl s4) trivial

theorem known_of_rel (hR : Eval.Evaluates u R Known) {names : List Text} {s s' : State} (h : R s s')
    (hnames : ∀ name ∈ names, Known s name) : ∀ name ∈ names, Known s' name :=
  fun name hname => hR.known s s' name h (hnames name hname)

mutual

/-- Evaluating a token leads on, and every name that the result waits for is known. -/
theorem reduce_yields (hR : Eval.Evaluates u R Known) :
    ∀ (t : Token) (s : State),
      Act.Yields R (fun t' s' => ∀ name ∈ t'.requested, Known s' name) (reduce u t) s := by
  intro t s
  -- a token without names that wait is known as soon as it is there
  have hpure : ∀ {t : Token} {s : State}, t.requested = [] →
      Act.Yields R (fun t' s' => ∀ name ∈ t'.requested, Known s' name) (pure t) s := by
    intro t s ht
    refine .pure (hR.refl s) fun name hname => ?_
    rw [ht] at hname
    cases hname
  cases t with
  | inclusion loc path loader =>
    rw [reduce]
    refine (Eval.evaluate_yields hR true path s).bind hR.trans fun v s1 _ _ => ?_
    exact (reduce?_yields hR loader s1).bind hR.trans fun v s2 _ _ => hpure rfl
  | radix loc value =>
    rw [reduce]
    exact (Eval.evaluate_yields hR true value s).bind hR.trans fun v s1 _ _ => hpure rfl
  | align loc value =>
    rw [reduce]
    refine (Eval.evaluate_yields hR true value s).bind hR.trans fun v s1 _ hv => ?_
    exact .pure (hR.refl s1) (hv rfl)
  | allocate loc size =>
    rw [reduce]
    refine (Eval.evaluate_yields hR true size s).bind hR.trans fun v s1 _ hv => ?_
    exact .pure (hR.refl s1) (hv rfl)
  | declare loc how names =>
    cases how with
    | locally =>
      rw [reduce]
      exact (Eval.nameOnlyAll_yields hR names s).bind hR.trans fun v s1 _ _ => hpure rfl
    | globally weak =>
      rw [reduce]
      · exact hpure rfl
      all_goals simp
    | externally attributes =>
      rw [reduce]
      · exact hpure rfl
      all_goals simp
  | retract loc what names =>
    rw [reduce]
    exact (Eval.nameOnlyAll_yields hR names s).bind hR.trans fun v s1 _ _ => hpure rfl
  | assign loc how name value =>
    rw [reduce]
    refine (hR.name name s).bind hR.trans fun v s1 _ _ => ?_
    exact (reduceValue_yields hR how v value s1).bind hR.trans fun v s2 _ _ => hpure rfl
  | label loc name =>
    rw [reduce]
    exact (hR.name name s).bind hR.trans fun v s1 _ _ => hpure rfl
  | cond loc clauses otherwise assembled =>
    rw [reduce]
    refine (reduceClauses_yields hR assembled clauses s).bind hR.trans fun cs s1 _ hcs => ?_
    refine (reduceBody_yields hR assembled otherwise s1).bind hR.trans fun b s2 h12 hb => ?_
    refine .pure (hR.refl s2) fun name hname => ?_
    rcases List.mem_append.1 hname with hname | hname
    · exact known_of_rel hR h12 hcs name hname
    · exact hb name hname
  | display loc kind text =>
    rw [reduce]
    refine (Eval.evaluateAll_yields hR true text s).bind hR.trans fun v s1 _ hv => ?_
    exact .pure (hR.refl s1) hv
  | data loc kind values =>
    rw [reduce]
    refine (Eval.evaluateAll_yields hR true values s).bind hR.trans fun v s1 _ hv => ?_
    exact .pure (hR.refl s1) hv
  | dup loc counter iteration body =>
    rw [reduce]
    refine (nameOnly?_yields hR counter s).bind hR.trans fun v s1 _ _ => ?_
    exact (reduceIteration_yields hR iteration s1).bind hR.trans fun v s2 _ _ => hpure rfl
  | macroDef loc name parameters body =>
    rw [reduce]
    refine (hR.name name s).bind hR.trans fun v s1 _ _ => ?_
    exact (Eval.nameOnlyAll_yields hR parameters s1).bind hR.trans fun v s2 _ _ => hpure rfl
  | dispatch d =>
    rw [reduce]
    refine (hR.name d.callee s).bind hR.trans fun v s1 _ _ => ?_
    refine (Eval.evaluateAll_yields hR true d.operands s1).bind hR.trans fun v s2 _ hv => ?_
    exact .pure (hR.refl s2) hv
  | immediate loc value size signed =>
    rw [reduce]
    refine (Eval.evaluate_yields hR true value s).bind hR.trans fun v s1 _ hv => ?_
    exact .pure (hR.refl s1) (hv rfl)
  | branch b =>
    rw [reduce]
    refine (Eval.evaluate_yields hR true b.target s).bind hR.trans fun v s1 _ hv => ?_
    exact .pure (hR.refl s1) (hv rfl)
  | _ =>
    rw [reduce]
    · exact hpure rfl
    all_goals simp

/-- Evaluating the arms of an IF leads on. -/
theorem reduceClauses_yields (hR : Eval.Evaluates u R Known) (assembled : Bool) :
    ∀ (cs : List Clause) (s : State),
      Act.Yields R (fun cs' s' => ∀ name ∈ clauseNames Expr.requested assembled cs', Known s' name)
        (reduceClauses u assembled cs) s := by
  intro cs s
  cases cs with
  | nil =>
    rw [reduceClauses]
    exact .pure (hR.refl s) fun name hname => by cases hname
  | cons c rest =>
    cases c with
    | mk test body =>
      rw [reduceClauses]
      refine (Eval.evaluate_yields hR true test s).bind hR.trans fun v s1 _ hv => ?_
      have hrest : ∀ (ts : List Token) (s2 : State), R s1 s2 →
          (assembled = true → ∀ name ∈ allNames Expr.requested ts, Known s2 name) →
          Act.Yields R (fun cs' s' => ∀ name ∈ clauseNames Expr.requested assembled cs', Known s' name)
            (do return .mk v ts :: (← reduceClauses u assembled rest)) s2 := by
        intro ts s2 h12 hts
        refine (reduceClauses_yields hR assembled rest s2).bind hR.trans
          fun cs s3 h23 hcs => .pure (hR.refl s3) fun name hname => ?_
        rw [clauseNames, List.mem_append, List.mem_append] at hname
        rcases hname with hname | hname | hname
        · exact hR.awaits (hR.trans _ _ _ h12 h23) hv rfl name hname
        · split at hname
          · exact known_of_rel hR h23 (hts ‹_›) name hname
          · cases hname
        · exact hcs name hname
      -- the body is evaluated only where it is assembled
      cases assembled with
      | false => exact hrest body s1 (hR.refl s1) fun h => by cases h
      | true =>
        refine (reduceAll_yields hR body s1).bind hR.trans fun ts s2 h12 hts => ?_
        exact hrest ts s2 h12 fun _ => hts

/-- Evaluating an optional body leads on. -/
theorem reduceBody_yields (hR : Eval.Evaluates u R Known) (assembled : Bool) :
    ∀ (body : Option (List Token)) (s : State),
      Act.Yields R (fun b s' => ∀ name ∈ optionNames Expr.requested assembled b, Known s' name)
        (reduceBody u assembled body) s := by
  intro body s
  cases body with
  | none =>
    rw [reduceBody]
    exact .pure (hR.refl s) fun name hname => by cases hname
  | some body =>
    rw [reduceBody]
    cases assembled with
    | false => exact .pure (hR.refl s) fun name hname => by cases hname
    | true =>
      rw [if_pos rfl, map_eq_pure_bind]
      refine (reduceAll_yields hR body s).bind hR.trans fun ts s1 _ hts => ?_
      exact .pure (hR.refl s1) hts

/-- Evaluating the tokens of a list leads on. -/
theorem reduceAll_yields (hR : Eval.Evaluates u R Known) :
    ∀ (ts : List Token) (s : State),
      Act.Yields R (fun ts' s' => ∀ name ∈ allNames Expr.requested ts', Known s' name) (reduceAll u ts) s := by
  intro ts s
  cases ts with
  | nil =>
    rw [reduceAll]
    exact .pure (hR.refl s) fun name hname => by cases hname
  | cons t rest =>
    rw [reduceAll]
    refine (reduce_yields hR t s).bind hR.trans fun v s1 _ hv => ?_
    refine (reduceAll_yields hR rest s1).bind hR.trans fun vs s2 h12 hvs => ?_
    refine .pure (hR.refl s2) fun name hname => ?_
    rcases List.mem_append.1 hname with hname | hname
    · exact known_of_rel hR h12 hv name hname
    · exact hvs name hname

end

end Reduce

end Token

end MacroAsm
