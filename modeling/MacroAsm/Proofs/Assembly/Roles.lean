import MacroAsm.Assembly.Output
import MacroAsm.Assembly.Reduce
import MacroAsm.Proofs.Eval.Action

/-!
# The roles of tokens

The role of a token tells which step of a block carries it out. Programs are made of statements, which no
block has assembled (`Token.isStatement`), and assembling a block gives output, in which nothing is left to
be carried out (`Token.isOutput`). Both are properties of a token and of all tokens in its bodies, read off
their roles. Evaluating a token keeps its role, and those of the tokens in its bodies
(`Token.gives_reduce`). Neither does it make a diagnostic or a terminal token of another one, or the other
way round, so these belong to the traits that it keeps (`Token.traits`).
-/

namespace MacroAsm

/-- Which step of a block carries a token out. -/
inductive Role where
  /-- GLOBAL and EXTERN, ahead of every other statement. -/
  | sharing
  /-- The statements that are carried out when names are bound, an IF among them. -/
  | binding
  /-- DUP, DUPA, DUPC and DUPF. -/
  | replaying
  /-- An instruction or a macro call. -/
  | calling
  /-- What only assembling a block makes: operands and jumps for the linker, and assembled IFs. -/
  | assembled
  /-- Everything else, which is passed on up to the last step. -/
  | plain
deriving DecidableEq, Repr

namespace Token

/-- Which step of a block carries a token out. -/
def role : Token → Role
  | .declare _ .locally _ => .binding
  | .declare _ (.globally _) _ | .declare _ (.externally _) _ => .sharing
  | .inclusion .. | .radix .. | .assign .. | .label .. | .retract .. | .macroDef .. => .binding
  | .cond _ _ _ assembled => if assembled then .assembled else .binding
  | .dup .. => .replaying
  | .dispatch _ => .calling
  | .immediate .. | .branch _ => .assembled
  | _ => .plain

/-- The bodies in a statement that blocks are still to be assembled from. -/
def bodies : Token → List (List Token)
  | .dup _ _ _ body => [body]
  | .macroDef _ _ _ body => [body]
  | .cond _ clauses otherwise false => clauses.map Clause.body ++ otherwise.toList
  | _ => []

/-- The bodies in a token, whether they were assembled or not. -/
def nested : Token → List (List Token)
  | .cond _ clauses otherwise _ => clauses.map Clause.body ++ otherwise.toList
  | .dup _ _ _ body | .macroDef _ _ _ body => [body]
  | _ => []

mutual

/-- Whether a property holds of a token and of every token in its bodies. -/
def everywhere (p : Token → Bool) : Token → Bool
  | .cond loc clauses otherwise assembled =>
    p (.cond loc clauses otherwise assembled) &&
      (clausesEverywhere p clauses && optionEverywhere p otherwise)
  | .dup loc counter iteration body => p (.dup loc counter iteration body) && allEverywhere p body
  | .macroDef loc name parameters body =>
    p (.macroDef loc name parameters body) && allEverywhere p body
  | t => p t

/-- Whether a property holds everywhere in the tokens of a list. -/
def allEverywhere (p : Token → Bool) : List Token → Bool
  | [] => true
  | t :: rest => everywhere p t && allEverywhere p rest

/-- Whether a property holds everywhere in the bodies of arms. -/
def clausesEverywhere (p : Token → Bool) : List Clause → Bool
  | [] => true
  | .mk _ body :: rest => allEverywhere p body && clausesEverywhere p rest

/-- Whether a property holds everywhere in an optional body. -/
def optionEverywhere (p : Token → Bool) : Option (List Token) → Bool
  | none => true
  | some body => allEverywhere p body

end

variable {p : Token → Bool}

/-- A property holds everywhere in a list if it does in each token. -/
theorem allEverywhere_iff {ts : List Token} :
    allEverywhere p ts = true ↔ ∀ t ∈ ts, everywhere p t = true := by
  induction ts with
  | nil => simp [allEverywhere]
  | cons t rest ih => rw [allEverywhere, Bool.and_eq_true, ih, List.forall_mem_cons]

/-- A property holds everywhere in arms if it does in each token of their bodies. -/
theorem clausesEverywhere_iff {clauses : List Clause} :
    clausesEverywhere p clauses = true ↔ ∀ c ∈ clauses, ∀ t ∈ c.body, everywhere p t = true := by
  induction clauses with
  | nil => simp [clausesEverywhere]
  | cons c rest ih =>
    obtain ⟨test, body⟩ := c
    rw [clausesEverywhere, Bool.and_eq_true, ih, List.forall_mem_cons, allEverywhere_iff]
    rfl

/-- A property holds everywhere in an optional body if it does in each token of it. -/
theorem optionEverywhere_iff {otherwise : Option (List Token)} :
    optionEverywhere p otherwise = true ↔ ∀ body ∈ otherwise, ∀ t ∈ body, everywhere p t = true := by
  cases otherwise with
  | none => simp [optionEverywhere]
  | some body => simp [optionEverywhere, allEverywhere_iff]

/-- A property holds everywhere in an IF if it holds of the IF and everywhere in its arms. -/
theorem everywhere_cond {loc : Location} {clauses : List Clause} {otherwise : Option (List Token)}
    {assembled : Bool} :
    everywhere p (.cond loc clauses otherwise assembled) = true ↔
      p (.cond loc clauses otherwise assembled) = true ∧
      (∀ c ∈ clauses, ∀ t ∈ c.body, everywhere p t = true) ∧
      ∀ body ∈ otherwise, ∀ t ∈ body, everywhere p t = true := by
  rw [everywhere, Bool.and_eq_true, Bool.and_eq_true, clausesEverywhere_iff, optionEverywhere_iff]

/-- A property holds everywhere in a token if it holds of the token and everywhere in its bodies. -/
theorem everywhere_iff {t : Token} : t.everywhere p = true ↔
    p t = true ∧ ∀ body ∈ t.nested, ∀ t' ∈ body, t'.everywhere p = true := by
  cases t with
  | cond loc clauses otherwise assembled =>
    rw [everywhere_cond, nested]
    simp only [List.mem_append, List.mem_map, Option.mem_toList, Option.mem_def, or_imp, forall_and,
      forall_exists_index, and_imp, forall_apply_eq_imp_iff₂]
  | dup => simp only [everywhere, Bool.and_eq_true, allEverywhere_iff, nested, List.forall_mem_singleton]
  | macroDef => simp only [everywhere, Bool.and_eq_true, allEverywhere_iff, nested, List.forall_mem_singleton]
  | _ => exact ⟨fun h => ⟨h, fun _ hbody => absurd hbody List.not_mem_nil⟩, And.left⟩

/-- The tokens in the bodies of a token are smaller. -/
theorem sizeOf_lt_of_mem_nested {t : Token} {body : List Token} (hbody : body ∈ t.nested) {t' : Token}
    (ht' : t' ∈ body) : sizeOf t' < sizeOf t := by
  have hlt := List.sizeOf_lt_of_mem ht'
  cases t with
  | cond loc clauses otherwise assembled =>
    rcases List.mem_append.1 hbody with hbody | hbody
    · obtain ⟨c, hc, rfl⟩ := List.mem_map.1 hbody
      have hc' := List.sizeOf_lt_of_mem hc
      obtain ⟨test, body⟩ := c
      simp only [Clause.body, Token.cond.sizeOf_spec, Clause.mk.sizeOf_spec] at *
      omega
    · cases otherwise with
      | none => cases hbody
      | some b =>
        simp at hbody
        subst hbody
        simp only [Token.cond.sizeOf_spec, Option.some.sizeOf_spec]
        omega
  | dup =>
    rw [List.mem_singleton.1 hbody] at hlt
    simp only [Token.dup.sizeOf_spec]
    omega
  | macroDef =>
    rw [List.mem_singleton.1 hbody] at hlt
    simp only [Token.macroDef.sizeOf_spec]
    omega
  | _ => exact absurd hbody List.not_mem_nil

/-- What holds of a token if it holds of the tokens in its bodies holds of every token. -/
theorem nested_induction {P : Token → Prop}
    (h : ∀ t : Token, (∀ body ∈ t.nested, ∀ t' ∈ body, P t') → P t) (t : Token) : P t :=
  h t fun _ hbody t' ht' =>
    have := sizeOf_lt_of_mem_nested hbody ht'
    nested_induction h t'
termination_by sizeOf t

/-- A weaker property holds everywhere as well. -/
theorem everywhere_imp {q : Token → Bool} (h : ∀ t, p t = true → q t = true) (t : Token) :
    t.everywhere p = true → t.everywhere q = true := by
  induction t using nested_induction with
  | h t ih =>
    rw [everywhere_iff, everywhere_iff]
    exact fun ⟨ht, hnested⟩ =>
      ⟨h t ht, fun body hbody t' ht' => ih body hbody t' ht' (hnested body hbody t' ht')⟩

/-- What holds everywhere in a token holds of it. -/
theorem of_everywhere {t : Token} (h : t.everywhere p = true) : p t = true := by
  cases t with
  | cond => exact (everywhere_cond.1 h).1
  | dup => exact (Bool.and_eq_true_iff.1 h).1
  | macroDef => exact (Bool.and_eq_true_iff.1 h).1
  | _ => exact h

/-- What holds everywhere in a statement holds everywhere in the tokens of its bodies. -/
theorem everywhere_of_mem_bodies {t : Token} (h : t.everywhere p = true) {body : List Token}
    (hbody : body ∈ t.bodies) : ∀ t' ∈ body, t'.everywhere p = true := by
  cases t with
  | dup =>
    rw [List.mem_singleton.1 hbody]
    exact allEverywhere_iff.1 (Bool.and_eq_true_iff.1 h).2
  | macroDef =>
    rw [List.mem_singleton.1 hbody]
    exact allEverywhere_iff.1 (Bool.and_eq_true_iff.1 h).2
  | cond loc clauses otherwise assembled =>
    obtain ⟨-, hclauses, hotherwise⟩ := everywhere_cond.1 h
    cases assembled with
    | true => exact absurd hbody List.not_mem_nil
    | false =>
      rcases List.mem_append.1 hbody with hbody | hbody
      · obtain ⟨c, hc, rfl⟩ := List.mem_map.1 hbody
        exact hclauses c hc
      · exact hotherwise body (Option.mem_toList.1 hbody)
  | _ => exact absurd hbody List.not_mem_nil

/-- Whether a token is a statement that no block has assembled. -/
def isStatement (t : Token) : Bool := t.everywhere fun t => t.role != .assembled

/-- Whether nothing is left to be carried out in a token. -/
def isOutput (t : Token) : Bool := t.everywhere fun t => t.role == .assembled || t.role == .plain

/-- Whether there is a diagnostic in one of the arms. -/
def clausesLoud (clauses : List Clause) : Bool := clauses.any fun c => c.body.any isMessage

/-- Whether there is a diagnostic in an optional body. -/
def optionLoud (otherwise : Option (List Token)) : Bool := otherwise.any fun body => body.any isMessage

/-- Whether a token is an IF with a diagnostic in one of its arms. -/
def isLoud : Token → Bool
  | .cond _ clauses otherwise _ => clausesLoud clauses || optionLoud otherwise
  | _ => false

/-- Whether a token is an IF, assembled or not. -/
def isCond : Token → Bool
  | .cond .. => true
  | _ => false

/-- Whether a token is SET or RADIX, which may bind a symbol again. -/
def isRebinding : Token → Bool
  | .assign _ .set _ _ | .radix .. => true
  | _ => false

/-- What evaluating a token leaves as it is. -/
structure Traits where
  /-- Which step of a block carries it out. -/
  role : Role
  /-- Whether it is a diagnostic. -/
  isMessage : Bool
  /-- Whether nothing follows it in a macro. -/
  isTerminal : Bool
  /-- Whether there is a diagnostic in one of its arms. -/
  isLoud : Bool
  /-- Whether it is an IF. -/
  isCond : Bool
  /-- Whether it is SET or RADIX. -/
  isRebinding : Bool

/-- The traits of a token. -/
def traits (t : Token) : Traits :=
  ⟨t.role, t.isMessage, t.isTerminal true, t.isLoud, t.isCond, t.isRebinding⟩

/-- Where all tokens have some of the traits, so have those of another token. -/
def RolesFrom (t t' : Token) : Prop :=
  t'.role = t.role ∧ t'.isMessage = t.isMessage ∧
    ∀ q : Traits → Bool, t.everywhere (fun t => q t.traits) = true →
      t'.everywhere (fun t => q t.traits) = true

theorem RolesFrom.isStatement {t t' : Token} (h : t.RolesFrom t') (ht : t.isStatement = true) :
    t'.isStatement = true :=
  h.2.2 (fun traits => traits.role != .assembled) ht

theorem RolesFrom.isOutput {t t' : Token} (h : t.RolesFrom t') (ht : t.isOutput = true) :
    t'.isOutput = true :=
  h.2.2 (fun traits => traits.role == .assembled || traits.role == .plain) ht

/-- A list has the traits of another one. -/
def AllRolesFrom (ts ts' : List Token) : Prop :=
  ts'.any isMessage = ts.any isMessage ∧
    ∀ q : Traits → Bool, allEverywhere (fun t => q t.traits) ts = true →
      allEverywhere (fun t => q t.traits) ts' = true

/-- Arms have the traits of others. -/
def ClauseRolesFrom (cs cs' : List Clause) : Prop :=
  clausesLoud cs' = clausesLoud cs ∧
    ∀ q : Traits → Bool, clausesEverywhere (fun t => q t.traits) cs = true →
      clausesEverywhere (fun t => q t.traits) cs' = true

/-- An optional body has the traits of another one. -/
def OptionRolesFrom (o o' : Option (List Token)) : Prop :=
  optionLoud o' = optionLoud o ∧
    ∀ q : Traits → Bool, optionEverywhere (fun t => q t.traits) o = true →
      optionEverywhere (fun t => q t.traits) o' = true

variable {u : Surroundings}

mutual

/-- Evaluating a token keeps its traits and those of the tokens in its bodies. -/
theorem gives_reduce : ∀ t : Token, Act.Gives (RolesFrom t) (reduce u t) := by
  intro t
  -- the same kind of token over the same bodies
  have hsame : ∀ {t' : Token}, t'.role = t.role → t'.isMessage = t.isMessage → (∀ q : Traits → Bool,
      t'.everywhere (fun t => q t.traits) = t.everywhere fun t => q t.traits) →
      Act.Gives (RolesFrom t) (pure t') :=
    fun hrole hmessage heq => .pure ⟨hrole, hmessage, fun q h => (heq q).trans h⟩
  cases t with
  | inclusion loc path loader =>
    rw [reduce]
    exact .andThen fun _ => .andThen fun _ => hsame rfl rfl fun _ => rfl
  | declare loc how names =>
    cases how with
    | locally =>
      rw [reduce]
      exact .andThen fun _ => hsame rfl rfl fun _ => rfl
    | globally weak =>
      rw [reduce]
      · exact hsame rfl rfl fun _ => rfl
      all_goals simp
    | externally attributes =>
      rw [reduce]
      · exact hsame rfl rfl fun _ => rfl
      all_goals simp
  | radix | align | allocate | retract | label | display | data | immediate | branch =>
    rw [reduce]
    exact .andThen fun _ => hsame rfl rfl fun _ => rfl
  | assign _ how _ _ =>
    rw [reduce]
    exact .andThen fun _ => .andThen fun _ => hsame rfl rfl fun _ => by cases how <;> rfl
  | dup | macroDef | dispatch =>
    rw [reduce]
    exact .andThen fun _ => .andThen fun _ => hsame rfl rfl fun _ => rfl
  | cond loc clauses otherwise assembled =>
    rw [reduce]
    refine (gives_reduceClauses assembled clauses).bind fun cs hcs => ?_
    refine (gives_reduceBody assembled otherwise).bind fun body hbody => .pure ⟨rfl, rfl, fun q h => ?_⟩
    have htraits : (cond loc cs body assembled).traits = (cond loc clauses otherwise assembled).traits := by
      simp only [traits, isLoud, hcs.1, hbody.1, role, isMessage, isTerminal, isCond, isRebinding]
    rw [everywhere, Bool.and_eq_true, Bool.and_eq_true] at h ⊢
    rw [htraits]
    exact ⟨h.1, hcs.2 q h.2.1, hbody.2 q h.2.2⟩
  | _ =>
    rw [reduce]
    · exact hsame rfl rfl fun _ => rfl
    all_goals simp

/-- Evaluating arms keeps the traits in their bodies. -/
theorem gives_reduceClauses (assembled : Bool) :
    ∀ cs : List Clause, Act.Gives (ClauseRolesFrom cs) (reduceClauses u assembled cs) := by
  intro cs
  cases cs with
  | nil =>
    rw [reduceClauses]
    exact .pure ⟨rfl, fun q h => h⟩
  | cons c rest =>
    cases c with
    | mk test body =>
      rw [reduceClauses]
      refine .andThen fun test' => ?_
      have hrest : ∀ {body' : List Token}, AllRolesFrom body body' →
          Act.Gives (ClauseRolesFrom (.mk test body :: rest))
            (do return .mk test' body' :: (← reduceClauses u assembled rest)) := by
        intro body' hbody
        refine (gives_reduceClauses assembled rest).bind fun cs hcs => .pure ⟨?_, fun q h => ?_⟩
        · rw [clausesLoud, clausesLoud, List.any_cons, List.any_cons]
          exact congr (congrArg or hbody.1) hcs.1
        · rw [clausesEverywhere, Bool.and_eq_true] at h ⊢
          exact ⟨hbody.2 q h.1, hcs.2 q h.2⟩
      -- the body is evaluated only where it is assembled
      cases assembled with
      | false => exact hrest ⟨rfl, fun q h => h⟩
      | true => exact (gives_reduceAll body).bind fun body' hbody => hrest hbody

/-- Evaluating an optional body keeps the traits in it. -/
theorem gives_reduceBody (assembled : Bool) :
    ∀ o : Option (List Token), Act.Gives (OptionRolesFrom o) (reduceBody u assembled o) := by
  intro o
  cases o with
  | none =>
    rw [reduceBody]
    exact .pure ⟨rfl, fun q h => h⟩
  | some body =>
    rw [reduceBody]
    cases assembled with
    | false => exact .pure ⟨rfl, fun q h => h⟩
    | true =>
      rw [if_pos rfl, map_eq_pure_bind]
      exact (gives_reduceAll body).bind fun body' hbody => .pure ⟨hbody.1, fun q h => hbody.2 q h⟩

/-- Evaluating the tokens of a list keeps the traits in them. -/
theorem gives_reduceAll : ∀ ts : List Token, Act.Gives (AllRolesFrom ts) (reduceAll u ts) := by
  intro ts
  cases ts with
  | nil =>
    rw [reduceAll]
    exact .pure ⟨rfl, fun q h => h⟩
  | cons t rest =>
    rw [reduceAll]
    refine (gives_reduce t).bind fun t' ht' => ?_
    refine (gives_reduceAll rest).bind fun rest' hrest => .pure ⟨?_, fun q h => ?_⟩
    · rw [List.any_cons, List.any_cons, ht'.2.1, hrest.1]
    · rw [allEverywhere, Bool.and_eq_true] at h ⊢
      exact ⟨ht'.2.2 q h.1, hrest.2 q h.2⟩

end

end Token

end MacroAsm
