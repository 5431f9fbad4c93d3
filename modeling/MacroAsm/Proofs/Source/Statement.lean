import MacroAsm.Loader.Basic
import MacroAsm.Proofs.Assembly.Roles

/-!
# Programs are made of statements

Whatever is read from a syntax tree is a statement that no block has assembled, and so are all statements in
its bodies (`Source.gives_readToken`). So programs are made of statements (`Source.gives_parseProgram`), and
so are the files that an INCLUDE finds (`Files.isStatement_of_includer`).
-/

namespace MacroAsm

/-- Every result that a computation gives satisfies `Q`. -/
def Except.Gives {ε α : Type} (Q : α → Prop) (x : Except ε α) : Prop := ∀ a, x = .ok a → Q a

namespace Except.Gives

variable {ε α β : Type} {Q : α → Prop}

/-- A result that is there already. -/
theorem ok {a : α} (ha : Q a) : Except.Gives Q (.ok a : Except ε α) := by
  intro b hb
  cases hb
  exact ha

theorem error (e : ε) : Except.Gives Q (.error e : Except ε α) := fun _ h => by cases h

/-- A computation that goes on with the result of another. -/
theorem bind {x : Except ε α} {k : α → Except ε β} {Q' : β → Prop} (hx : Except.Gives Q x)
    (hk : ∀ a, Q a → Except.Gives Q' (k a)) : Except.Gives Q' (x >>= k) := by
  cases x with
  | ok a => exact hk a (hx a rfl)
  | error e => exact error e

theorem andThen {x : Except ε α} {k : α → Except ε β} {Q' : β → Prop}
    (hk : ∀ a, Except.Gives Q' (k a)) : Except.Gives Q' (x >>= k) :=
  bind (Q := fun _ => True) (fun _ _ => trivial) fun a _ => hk a

/-- The results for the elements of a list. -/
theorem mapM {f : α → Except ε β} {Q : β → Prop} {xs : List α} (hf : ∀ x ∈ xs, Except.Gives Q (f x)) :
    Except.Gives (fun ys : List β => ∀ y ∈ ys, Q y) (xs.mapM f) := by
  induction xs with
  | nil => exact ok fun y hy => absurd hy List.not_mem_nil
  | cons x rest ih =>
    rw [List.forall_mem_cons] at hf
    rw [List.mapM_cons]
    refine hf.1.bind fun y hy => (ih hf.2).bind fun ys hys => ok ?_
    exact List.forall_mem_cons.2 ⟨hy, hys⟩

/-- The result for an element that may be missing. -/
theorem optionMapM {f : α → Except ε β} {Q : β → Prop} {o : Option α}
    (hf : ∀ x ∈ o, Except.Gives Q (f x)) :
    Except.Gives (fun o' : Option β => ∀ y ∈ o', Q y) (o.mapM f) := by
  cases o with
  | none => exact ok fun y hy => by cases hy
  | some x =>
    rw [Option.mapM_some]
    refine (hf x rfl).bind fun y hy => ok fun y' hy' => ?_
    cases hy'
    exact hy

end Except.Gives

namespace Source

/-- Tokens that are all statements. -/
abbrev AreStatements (ts : List Token) : Prop := ∀ t ∈ ts, t.isStatement = true

/-- A body that is replayed is made of statements. -/
theorem isStatement_dup {loc : Location} {counter : Option Expr} {iteration : Iteration}
    {body : List Token} (h : AreStatements body) :
    (Token.dup loc counter iteration body).isStatement = true :=
  Token.allEverywhere_iff.2 h

/-- The body of a macro is made of statements. -/
theorem isStatement_macroDef {loc : Location} {name : Expr} {parameters : List Expr}
    {body : List Token} (h : AreStatements body) :
    (Token.macroDef loc name parameters body).isStatement = true :=
  Token.allEverywhere_iff.2 h

/-- The arms of an IF are made of statements. -/
theorem isStatement_cond {loc : Location} {clauses : List Clause} {otherwise : Option (List Token)}
    (hclauses : ∀ c ∈ clauses, AreStatements c.body) (hotherwise : ∀ body ∈ otherwise, AreStatements body) :
    (Token.cond loc clauses otherwise false).isStatement = true :=
  Token.everywhere_cond.2 ⟨rfl, hclauses, hotherwise⟩

/-- A statement that is read is one that no block has assembled. -/
theorem gives_readToken (fuel : Nat) (s : Setting) (j : Json) :
    Except.Gives (fun t => t.isStatement = true) (readToken fuel s j) := by
  induction fuel generalizing s j with
  | zero =>
    rw [readToken]
    exact .error _
  | succ fuel ih =>
    have hstatements : ∀ (s : Setting) (items : List Json),
        Except.Gives AreStatements ((items.filter fun j => !j.isNull).mapM (readToken fuel s)) :=
      fun s items => .mapM fun j _ => ih s j
    have hbody : ∀ {items : Except SourceError (List Json)} {k : List Token → Token},
        (∀ body, AreStatements body → (k body).isStatement = true) →
        Except.Gives (fun t => t.isStatement = true) (do
          let body ← (do (((← items).filter fun j => !j.isNull).mapM (readToken fuel s)))
          return k body) := by
      intro items k hk
      refine Except.Gives.bind (Q := AreStatements) ?_ fun body hbody => .ok (hk body hbody)
      exact .andThen fun items => hstatements s items
    cases j with
    | object _ node =>
      rw [readToken]
      refine .andThen fun type => .andThen fun loc => ?_
      dsimp only
      split
      · exact .error _
      -- label, dispatch, align, radix, allocate, assign, retract
      · exact .andThen fun _ => .ok rfl
      · exact .andThen fun _ => .andThen fun _ => .ok rfl
      · exact .andThen fun _ => .ok rfl
      · exact .andThen fun _ => .ok rfl
      · exact .andThen fun _ => .ok rfl
      · exact .andThen fun _ => .andThen fun _ => .ok rfl
      · exact .andThen fun _ => .ok rfl
      -- locally, globally, externally, display, data, inclusion, stop, exitMacro
      · exact .andThen fun _ => .ok rfl
      · exact .andThen fun _ => .andThen fun _ => .ok rfl
      · exact .andThen fun _ => .andThen fun _ => .ok rfl
      · exact .andThen fun _ => .ok rfl
      · exact .andThen fun _ => .ok rfl
      · exact .andThen fun _ => .andThen fun _ => .ok rfl
      · exact .ok rfl
      · exact .ok rfl
      -- the four kinds of dup, macroDef
      · exact .andThen fun _ => .andThen fun _ => hbody fun body h => isStatement_dup h
      · exact .andThen fun _ => .andThen fun _ => .andThen fun _ => hbody fun body h => isStatement_dup h
      · exact .andThen fun _ => .andThen fun _ => .andThen fun _ => hbody fun body h => isStatement_dup h
      · exact .andThen fun _ => .andThen fun _ => .andThen fun _ => .andThen fun _ => .andThen fun _ =>
          hbody fun body h => isStatement_dup h
      · exact .andThen fun _ => .andThen fun _ => hbody fun body h => isStatement_macroDef h
      · refine .andThen fun tree => ?_
        have hotherwise : Except.Gives (fun o => ∀ body ∈ o, AreStatements body)
            (tree.otherwise.mapM fun items => (items.filter fun j => !j.isNull).mapM
              (readToken fuel { s with tidy := true })) :=
          .optionMapM fun items _ => hstatements _ items
        refine Except.Gives.bind (Q := fun cs => ∀ c ∈ cs, AreStatements c.body)
          (.mapM fun arm _ => .andThen fun test => ?_) fun cs hcs =>
            hotherwise.bind fun o ho => .ok (isStatement_cond hcs ho)
        cases test with
        | none => exact .error _
        | some test => exact (hstatements _ arm.body).bind fun body hbody => .ok hbody
      · exact .ok rfl
    | _ =>
      rw [readToken]
      · exact .error _
      all_goals simp

theorem gives_readTokens (s : Setting) (items : List Json) :
    Except.Gives AreStatements (readTokens s items) :=
  .mapM fun j _ => gives_readToken (j.depth + 1) s j

/-- A program that is read is made of statements. -/
theorem gives_parseProgram (origin : Location) (text : Text) :
    Except.Gives AreStatements (parseProgram origin text) := by
  rw [parseProgram]
  split
  · rename_i j _
    rw [readProgram.eq_def]
    split
    · exact .ok fun t ht => absurd ht List.not_mem_nil
    · exact gives_readTokens _ _
    · exact gives_readTokens _ _
    · exact .error _
  · exact .error _

end Source

/-- The tokens of a file are statements. -/
theorem Loader.gives_load (l : Loader) (q : Query) (origin : Location) (content : Text) :
    Except.Gives Source.AreStatements (l.load q origin content) := by
  cases l with
  | program =>
    rw [Loader.load]
    have hprogram := Source.gives_parseProgram origin content
    split
    · rename_i tokens heq
      exact .ok (hprogram tokens heq)
    · exact .error _
  | binary =>
    refine .andThen fun bytes => .ok fun t ht => ?_
    split at ht
    · cases ht
    · rw [List.mem_singleton.1 ht]
      rfl

/-- The files that an INCLUDE finds are made of statements. -/
theorem Files.isStatement_of_includer {files : Files} {directories : List Text} {loc : Location}
    {path choice : Text} {body : List Token} (h : files.includer directories loc path choice = .ok body) :
    Source.AreStatements body := by
  rw [Files.includer] at h
  split at h
  · cases h
  · split at h
    · cases h
    · rename_i loader _
      dsimp only at h
      split at h
      · cases h
      · cases h
      · rename_i found _
        split at h
        · cases h
        · rename_i tokens hload
          cases h
          obtain ⟨content, -, htokens⟩ := Except.bind_eq_ok_iff.1 hload
          refine List.forall_mem_cons.2 ⟨rfl, ?_⟩
          exact Loader.gives_load loader _ _ content tokens htokens

end MacroAsm
