import Mathlib.Data.List.Flatten
import MacroAsm.Proofs.Assembly.Outstanding

/-!
# Labels in tokens

A label is known by an identity. An expression refers to a label by holding its address, and a piece of output
is the place of a label. `Token.places` and `Token.references` list the identities of the labels that a token is
the place of and refers to. Programs are written without identities (`Token.isOriginal`), so all of them are
handed out while a program is assembled.

`D` is a property of identities throughout, and `Within D` says that all references are to labels with it.
-/

namespace MacroAsm

variable {D : Text → Prop}

namespace Expr

mutual

/-- The identities of the labels that an expression refers to. -/
def references : Expr → List Text
  | .fragment _ id _ => [id]
  | .unary _ _ value => value.references
  | .binary _ _ left right => left.references ++ right.references
  | .ternary _ test onTrue onFalse =>
    test.references ++ (onTrue.references ++ onFalse.references)
  | .call _ _ params => referencesAll params
  | .absolute _ address => address.references
  | .displaced _ _ displace => displace.references
  | .offset _ _ value => value.references
  | _ => []

/-- The identities of the labels that the expressions of a list refer to. -/
def referencesAll : List Expr → List Text
  | [] => []
  | e :: rest => e.references ++ referencesAll rest

end

mutual

@[simp]
theorem references_erase : ∀ e : Expr, e.erase.references = e.references := by
  intro e
  cases e <;> simp [erase, references, references_erase, referencesAll_eraseAll]

@[simp]
theorem referencesAll_eraseAll : ∀ es : List Expr, referencesAll (eraseAll es) = referencesAll es := by
  intro es
  cases es <;> simp [eraseAll, referencesAll, references_erase, referencesAll_eraseAll]

end

/-- An expression refers only to labels whose identities have a property. -/
def Within (D : Text → Prop) (e : Expr) : Prop := ∀ id ∈ e.references, D id

/-- An expression that refers to no label. -/
theorem within_of_references_eq_nil {e : Expr} (h : e.references = []) : e.Within D := by
  intro id hid
  rw [h] at hid
  cases hid

/-- The expressions of a list refer to what each of them refers to. -/
theorem forall_mem_referencesAll {es : List Expr} :
    (∀ id ∈ referencesAll es, D id) ↔ ∀ e ∈ es, e.Within D := by
  induction es with
  | nil => simp [referencesAll]
  | cons e rest ih =>
    rw [referencesAll, List.forall_mem_append, List.forall_mem_cons, ih]
    rfl

/-- The same for references that are listed one expression after the other. -/
theorem forall_mem_flatMap_references {es : List Expr} :
    (∀ id ∈ es.flatMap references, D id) ↔ ∀ e ∈ es, e.Within D := by
  simp only [List.mem_flatMap, forall_exists_index, and_imp]
  exact ⟨fun h e he id hid => h id e he hid, fun h id e he hid => h e he id hid⟩

/-- A binary operation refers to what its operands refer to. -/
theorem within_binary {loc : Location} {op : BinaryOp} {left right : Expr} :
    (Expr.binary loc op left right).Within D ↔ left.Within D ∧ right.Within D := by
  rw [Within, references, List.forall_mem_append]
  rfl

/-- A choice refers to what its test and its two expressions refer to. -/
theorem within_ternary {loc : Location} {test onTrue onFalse : Expr} :
    (Expr.ternary loc test onTrue onFalse).Within D ↔
      test.Within D ∧ onTrue.Within D ∧ onFalse.Within D := by
  rw [Within, references, List.forall_mem_append, List.forall_mem_append]
  rfl

end Expr

namespace Token

mutual

/-- The identities of the labels that a token is the place of. The bodies of an IF count once they are
assembled. -/
def places : Token → List Text
  | .fragment _ id _ => [id]
  | .cond _ clauses otherwise assembled =>
    if assembled then clausePlaces clauses ++ optionPlaces otherwise else []
  | _ => []

/-- The places in the tokens of a list. -/
def allPlaces : List Token → List Text
  | [] => []
  | t :: rest => places t ++ allPlaces rest

/-- The places in the bodies of arms. -/
def clausePlaces : List Clause → List Text
  | [] => []
  | .mk _ body :: rest => allPlaces body ++ clausePlaces rest

/-- The places in an optional body. -/
def optionPlaces : Option (List Token) → List Text
  | none => []
  | some body => allPlaces body

end

/-- The places in a list of tokens, one token after the other. -/
theorem allPlaces_eq_flatMap (ts : List Token) : allPlaces ts = ts.flatMap places := by
  induction ts with
  | nil => rfl
  | cons t rest ih => rw [allPlaces, ih, List.flatMap_cons]

@[simp]
theorem allPlaces_append (ts ts' : List Token) : allPlaces (ts ++ ts') = allPlaces ts ++ allPlaces ts' := by
  rw [allPlaces_eq_flatMap, allPlaces_eq_flatMap, allPlaces_eq_flatMap, List.flatMap_append]

theorem mem_allPlaces_iff {id : Text} {ts : List Token} :
    id ∈ allPlaces ts ↔ ∃ t ∈ ts, id ∈ t.places := by
  rw [allPlaces_eq_flatMap, List.mem_flatMap]

/-- The places in the bodies of arms, one arm after the other. -/
theorem clausePlaces_eq_flatMap (clauses : List Clause) :
    clausePlaces clauses = clauses.flatMap fun c => allPlaces c.body := by
  induction clauses with
  | nil => rfl
  | cons c rest ih =>
    obtain ⟨test, body⟩ := c
    rw [clausePlaces, ih, List.flatMap_cons]
    rfl

/-- A diagnostic is no place. -/
theorem places_of_isMessage {t : Token} (h : t.isMessage = true) : t.places = [] := by
  cases t with
  | message d => rfl
  | _ => cases h

theorem allPlaces_of_isMessage {ts : List Token} (h : ∀ t ∈ ts, t.isMessage = true) : allPlaces ts = [] := by
  rw [allPlaces_eq_flatMap, List.flatMap_eq_nil_iff]
  exact fun t ht => places_of_isMessage (h t ht)

theorem allPlaces_sublist {ts ts' : List Token} (h : ts.Sublist ts') : (allPlaces ts).Sublist (allPlaces ts') := by
  rw [allPlaces_eq_flatMap, allPlaces_eq_flatMap]
  exact h.flatMap places

mutual

/-- The identities of the labels that a token refers to in what it binds, replays or outputs. The bodies of an
IF count once they are assembled. -/
def references : Token → List Text
  | .assign _ _ _ value => value.references
  | .dup _ _ (.list _ items) _ => items.flatMap Expr.references
  | .dispatch d => d.operands.flatMap Expr.references
  | .data _ _ values => values.flatMap Expr.references
  | .display _ _ text => text.flatMap Expr.references
  | .immediate _ value _ _ => value.references
  | .branch b => b.target.references
  | .allocate _ size => size.references
  | .align _ value => value.references
  | .cond _ clauses otherwise assembled =>
    clauseReferences assembled clauses ++ (if assembled then optionReferences otherwise else [])
  | _ => []

/-- The references of the tokens of a list. -/
def allReferences : List Token → List Text
  | [] => []
  | t :: rest => references t ++ allReferences rest

/-- The references of the tests of arms, and of their bodies if they are assembled. -/
def clauseReferences (assembled : Bool) : List Clause → List Text
  | [] => []
  | .mk test body :: rest =>
    test.references ++ ((if assembled then allReferences body else []) ++ clauseReferences assembled rest)

/-- The references of an optional body. -/
def optionReferences : Option (List Token) → List Text
  | none => []
  | some body => allReferences body

end

mutual

/-- What the expressions of a piece of output refer to, the token refers to. -/
theorem names_subset_references : ∀ t : Token, t.names Expr.references ⊆ t.references := by
  intro t
  cases t with
  | cond loc clauses otherwise assembled =>
    rw [names, references]
    refine List.append_subset.2 ⟨List.subset_append_of_subset_left _ (clauseNames_subset_references assembled clauses),
      List.subset_append_of_subset_right _ ?_⟩
    cases otherwise with
    | none => exact List.nil_subset _
    | some body =>
      rw [optionNames, optionReferences]
      split
      · exact allNames_subset_references body
      · exact List.nil_subset _
  | immediate | branch | data | display | allocate | align | dispatch => exact fun id hid => hid
  | _ => exact List.nil_subset _

/-- What the expressions in a list of output refer to, the tokens refer to. -/
theorem allNames_subset_references : ∀ ts : List Token,
    allNames Expr.references ts ⊆ allReferences ts := by
  intro ts
  cases ts with
  | nil => exact List.nil_subset _
  | cons t rest =>
    rw [allNames, allReferences]
    exact List.append_subset.2 ⟨List.subset_append_of_subset_left _ (names_subset_references t),
      List.subset_append_of_subset_right _ (allNames_subset_references rest)⟩

/-- What the expressions in arms refer to, the arms refer to. -/
theorem clauseNames_subset_references (assembled : Bool) : ∀ cs : List Clause,
    clauseNames Expr.references assembled cs ⊆ clauseReferences assembled cs := by
  intro cs
  cases cs with
  | nil => exact List.nil_subset _
  | cons c rest =>
    cases c with
    | mk test body =>
      rw [clauseNames, clauseReferences]
      have hrest := clauseNames_subset_references assembled rest
      have hbody := allNames_subset_references body
      grind

end

/-- Whether a statement has no identity of a label in it, those in its bodies apart. -/
def isUnlabelled (t : Token) : Bool := t.places.isEmpty && t.references.isEmpty

/-- Whether a token is a statement as it is written: no block has assembled it, and there is no identity of a
label in it. -/
def isOriginal (t : Token) : Bool := t.everywhere fun t => t.role != .assembled && t.isUnlabelled

/-- Whether the bodies that blocks are still to be assembled from are made of statements as they are written. -/
def opensOriginal (t : Token) : Bool := t.bodies.all fun body => body.all isOriginal

/-- Whether blocks are still to be assembled only from statements as they are written. -/
def isProper (t : Token) : Bool := t.everywhere opensOriginal

/-- A token refers only to labels whose identities have a property, and blocks are still to be assembled only
from statements as they are written. -/
structure Within (D : Text → Prop) (t : Token) : Prop where
  /-- The labels that it refers to. -/
  references : ∀ id ∈ t.references, D id
  /-- The bodies in it. -/
  proper : t.isProper = true

theorem places_of_isOriginal {t : Token} (h : t.isOriginal = true) : t.places = [] := by
  have hown := (Bool.and_eq_true_iff.1 (of_everywhere h)).2
  exact List.isEmpty_iff.1 (Bool.and_eq_true_iff.1 hown).1

theorem opensOriginal_iff {t : Token} :
    t.opensOriginal = true ↔ ∀ body ∈ t.bodies, ∀ t' ∈ body, t'.isOriginal = true := by
  simp only [opensOriginal, List.all_eq_true]

mutual

/-- A written statement has only written statements in it. -/
theorem isProper_of_isOriginal : ∀ t : Token, t.isOriginal = true → t.isProper = true := by
  intro t h
  have hbodies : t.opensOriginal = true :=
    opensOriginal_iff.2 fun body hbody => everywhere_of_mem_bodies h hbody
  cases t with
  | cond loc clauses otherwise assembled =>
    obtain ⟨-, hclauses, hotherwise⟩ := everywhere_cond.1 h
    rw [isProper, everywhere, Bool.and_eq_true, Bool.and_eq_true]
    exact ⟨hbodies, clausesEverywhere_of_isOriginal clauses (clausesEverywhere_iff.2 hclauses),
      optionEverywhere_of_isOriginal otherwise (optionEverywhere_iff.2 hotherwise)⟩
  | dup loc counter iteration body =>
    rw [isOriginal, everywhere, Bool.and_eq_true] at h
    rw [isProper, everywhere, Bool.and_eq_true]
    exact ⟨hbodies, allEverywhere_of_isOriginal body h.2⟩
  | macroDef loc name parameters body =>
    rw [isOriginal, everywhere, Bool.and_eq_true] at h
    rw [isProper, everywhere, Bool.and_eq_true]
    exact ⟨hbodies, allEverywhere_of_isOriginal body h.2⟩
  | _ => exact hbodies

/-- Written statements have only written statements in them. -/
theorem allEverywhere_of_isOriginal : ∀ ts : List Token,
    allEverywhere (fun t => t.role != .assembled && t.isUnlabelled) ts = true →
      allEverywhere opensOriginal ts = true := by
  intro ts h
  cases ts with
  | nil => rfl
  | cons t rest =>
    rw [allEverywhere, Bool.and_eq_true] at h ⊢
    exact ⟨isProper_of_isOriginal t h.1, allEverywhere_of_isOriginal rest h.2⟩

/-- Written arms have only written statements in them. -/
theorem clausesEverywhere_of_isOriginal : ∀ cs : List Clause,
    clausesEverywhere (fun t => t.role != .assembled && t.isUnlabelled) cs = true →
      clausesEverywhere opensOriginal cs = true := by
  intro cs h
  cases cs with
  | nil => rfl
  | cons c rest =>
    cases c with
    | mk test body =>
      rw [clausesEverywhere, Bool.and_eq_true] at h ⊢
      exact ⟨allEverywhere_of_isOriginal body h.1, clausesEverywhere_of_isOriginal rest h.2⟩

/-- A written optional body has only written statements in it. -/
theorem optionEverywhere_of_isOriginal : ∀ o : Option (List Token),
    optionEverywhere (fun t => t.role != .assembled && t.isUnlabelled) o = true →
      optionEverywhere opensOriginal o = true := by
  intro o h
  cases o with
  | none => rfl
  | some body => exact allEverywhere_of_isOriginal body h

end

/-- A written statement refers to no label. -/
theorem within_of_isOriginal {t : Token} (h : t.isOriginal = true) : t.Within D := by
  have hown := (Bool.and_eq_true_iff.1 (of_everywhere h)).2
  have hnil : t.references = [] := List.isEmpty_iff.1 (Bool.and_eq_true_iff.1 hown).2
  refine ⟨fun id hid => ?_, isProper_of_isOriginal t h⟩
  rw [hnil] at hid
  cases hid

/-- A token without bodies and without references. -/
theorem within_of_references_eq_nil {t : Token} (hreferences : t.references = []) (hproper : t.isProper = true) :
    t.Within D := by
  refine ⟨fun id hid => ?_, hproper⟩
  rw [hreferences] at hid
  cases hid

/-- A diagnostic refers to no label. -/
theorem within_of_isMessage {t : Token} (h : t.isMessage = true) : t.Within D := by
  cases t with
  | message d => exact within_of_references_eq_nil rfl rfl
  | _ => cases h

theorem Within.isOriginal_of_mem_bodies {t : Token} (h : t.Within D) :
    ∀ body ∈ t.bodies, ∀ t' ∈ body, t'.isOriginal = true :=
  opensOriginal_iff.1 (of_everywhere h.proper)

/-- The references of a list are those of each token. -/
theorem mem_allReferences_iff {id : Text} {ts : List Token} :
    id ∈ allReferences ts ↔ ∃ t ∈ ts, id ∈ t.references := by
  induction ts with
  | nil => simp [allReferences]
  | cons t rest ih => simp [allReferences, ih]

/-- The tests of an IF are among what it refers to. -/
theorem Within.test {loc : Location} {clauses : List Clause} {otherwise : Option (List Token)} {assembled : Bool}
    (h : (Token.cond loc clauses otherwise assembled).Within D) : ∀ c ∈ clauses, c.test.Within D := by
  have hclauses := (List.forall_mem_append.1 h.references).1
  clear h
  induction clauses with
  | nil => exact fun c hc => absurd hc List.not_mem_nil
  | cons c rest ih =>
    obtain ⟨test, body⟩ := c
    rw [clauseReferences, List.forall_mem_append, List.forall_mem_append] at hclauses
    exact List.forall_mem_cons.2 ⟨hclauses.1, ih hclauses.2.2⟩

/-- The references of assembled arms are those of their tests and of the tokens in them. -/
theorem mem_clauseReferences_iff {id : Text} {clauses : List Clause} :
    id ∈ clauseReferences true clauses ↔
      ∃ c ∈ clauses, id ∈ c.test.references ∨ ∃ t ∈ c.body, id ∈ t.references := by
  induction clauses with
  | nil => simp [clauseReferences]
  | cons c rest ih =>
    obtain ⟨test, body⟩ := c
    simp only [clauseReferences, if_true, List.mem_append, ih, mem_allReferences_iff, List.exists_mem_cons_iff,
      Clause.test, Clause.body, or_assoc]

/-- An assembled IF refers to what its tests and the tokens in its bodies refer to. -/
theorem within_cond {loc : Location} {clauses : List Clause} {otherwise : Option (List Token)} :
    (Token.cond loc clauses otherwise true).Within D ↔
      (∀ c ∈ clauses, c.test.Within D ∧ ∀ t ∈ c.body, t.Within D) ∧
        ∀ body ∈ otherwise, ∀ t ∈ body, t.Within D := by
  constructor
  · rintro ⟨hreferences, hproper⟩
    obtain ⟨-, hclauses, hotherwise⟩ := everywhere_cond.1 hproper
    rw [references, List.forall_mem_append] at hreferences
    refine ⟨fun c hc => ⟨fun id hid => ?_, fun t ht => ⟨fun id hid => ?_, hclauses c hc t ht⟩⟩,
      fun body hbody t ht => ⟨fun id hid => ?_, hotherwise body hbody t ht⟩⟩
    · exact hreferences.1 id (mem_clauseReferences_iff.2 ⟨c, hc, Or.inl hid⟩)
    · exact hreferences.1 id (mem_clauseReferences_iff.2 ⟨c, hc, Or.inr ⟨t, ht, hid⟩⟩)
    · cases hbody
      exact hreferences.2 id (mem_allReferences_iff.2 ⟨t, ht, hid⟩)
  · rintro ⟨hclauses, hotherwise⟩
    refine ⟨?_, everywhere_cond.2 ⟨rfl, fun c hc t ht => ((hclauses c hc).2 t ht).proper,
      fun body hbody t ht => (hotherwise body hbody t ht).proper⟩⟩
    rw [references, List.forall_mem_append]
    refine ⟨fun id hid => ?_, fun id hid => ?_⟩
    · obtain ⟨c, hc, hid | ⟨t, ht, hid⟩⟩ := mem_clauseReferences_iff.1 hid
      · exact (hclauses c hc).1 id hid
      · exact ((hclauses c hc).2 t ht).references id hid
    · cases otherwise with
      | none => cases hid
      | some body =>
        obtain ⟨t, ht, hid⟩ := mem_allReferences_iff.1 hid
        exact (hotherwise body rfl t ht).references id hid

end Token

end MacroAsm
