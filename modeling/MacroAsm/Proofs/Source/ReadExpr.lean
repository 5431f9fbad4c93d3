import MacroAsm.Proofs.Source.Spelling

/-!
# Expressions are recovered from their spelling

Single fields of a node are read from what spells them (`Source.SpellsNode.text`, `Source.boolField_of_spells`,
`Source.attributesField_of_spells`), and by induction on the fuel, which bounds the nesting, so is an expression
(`Source.readExpr_of_spells`). Its operators and its type are found by their names.
-/

namespace MacroAsm

/-- What a table has under a name is found, if its names are distinct. -/
theorem lookup_of_mem {β : Type} {table : List (Text × β)} (hnodup : (table.map Prod.fst).Nodup) (name : Text) (b : β)
    (h : (name, b) ∈ table) : table.lookup name = some b := by
  obtain ⟨before, after, rfl⟩ := List.append_of_mem h
  rw [List.map_append, List.map_cons, List.nodup_append] at hnodup
  refine List.lookup_eq_some_iff.2 ⟨before, after, rfl, fun p hp => bne_iff_ne.2 fun heq => ?_⟩
  exact hnodup.2.2 _ (List.mem_map_of_mem hp) _ List.mem_cons_self heq.symm

theorem UnaryOp.ofName?_name (op : UnaryOp) : UnaryOp.ofName? op.name = some op := by
  refine lookup_of_mem (by decide) op.name op ?_
  cases op <;> simp [spellings, name]

theorem BinaryOp.nodup_names : (all.map name).Nodup := by decide +kernel

/-- Each binary operator is found by its spelling. -/
theorem BinaryOp.ofName?_name (op : BinaryOp) : BinaryOp.ofName? op.name = some op := by
  have hmem : op ∈ all := by cases op <;> decide
  obtain ⟨before, after, hall⟩ := List.append_of_mem hmem
  have hnodup := nodup_names
  rw [hall, List.map_append, List.map_cons, List.nodup_append] at hnodup
  refine List.find?_eq_some_iff_append.2 ⟨beq_self_eq_true _, before, after, hall, fun op' hop' => ?_⟩
  rw [Bool.not_eq_true', beq_eq_false_iff_ne]
  exact hnodup.2.2 _ (List.mem_map_of_mem hop') _ List.mem_cons_self

namespace Source

theorem nodup_exprTypes : (exprTypes.map Prod.fst).Nodup := by decide +kernel

theorem nodup_statementTypes : (statementTypes.map Prod.fst).Nodup := by decide +kernel

/-- No node of an expression is without a type. -/
theorem isEmpty_type_ofExpr {e : Expr} {node : Node} (h : Node.ofExpr e = some node) :
    node.type.isEmpty = false := by
  cases e with
  | fragment => cases h
  | _ => cases h; rfl

/-- No node of a statement is without a type. -/
theorem isEmpty_type_ofToken {t : Token} {node : Node} (h : Node.ofToken t = some node) :
    node.type.isEmpty = false := by
  cases t with
  | declare _ how => cases how <;> (cases h; rfl)
  | assign _ how => cases how <;> (cases h; rfl)
  | retract _ what => cases what <;> (cases h; rfl)
  | cond _ _ _ assembled =>
    cases assembled with
    | true => cases h
    | false => cases h; rfl
  | display _ kind => cases kind <;> (cases h; rfl)
  | data _ kind => cases kind <;> (cases h; rfl)
  | dup _ _ iteration => cases iteration <;> (cases h; rfl)
  | message | fragment | bytes | immediate | branch | dependency => cases h
  | _ => cases h; rfl

variable {origin : Location} {s : Setting} {fuel : Nat} {node : Node} {loc : Location} {members : List Member}
  {key : Text} {o : Option Json}

/-- Only a string spells a text. -/
theorem SpellsPart.eq_text {t : Text} (h : SpellsPart o (.text t)) : o = some (.string t) := by
  cases h with
  | missing _ hp => cases hp
  | text => rfl

/-- Only a number spells an integer. -/
theorem SpellsPart.eq_integer {v : Int64} (h : SpellsPart o (.integer v)) : o = some (.number (Text.ofInt64 v)) := by
  cases h with
  | missing _ hp => cases hp
  | integer => rfl

/-- A truth value is read from what spells it. -/
theorem boolField_of_spells {b : Bool} (h : SpellsPart (Json.lookup key members) (.flag b)) :
    boolField key members = .ok b := by
  generalize ho : Json.lookup key members = o at h
  cases h with
  | missing hmissing hp =>
    cases b with
    | true => cases hp
    | false => rw [boolField, field?_of_isMissing (ho ▸ hmissing)]
  | flag => rw [boolField, field?_of_lookup ho rfl]

/-- Attributes are read from what spells them. -/
theorem attributesField_of_spells {a : Option Attributes}
    (h : SpellsPart (Json.lookup key members) (.attributes a)) (ha : ∀ a' ∈ a, a'.IsOrdered) :
    attributesField key members = .ok a := by
  generalize ho : Json.lookup key members = o at h
  cases h with
  | missing hmissing hp =>
    cases a with
    | some => cases hp
    | none => rw [attributesField, field?_of_isMissing (ho ▸ hmissing)]
  | attributes hperm => exact attributesField_eq ho (ha _ rfl) hperm

/-- The type of a node is read from what spells it. -/
theorem SpellsNode.typeOf (h : SpellsNode node loc members) (hne : node.type.isEmpty = false) :
    typeOf members = .ok node.type := by
  obtain ⟨-, htype, -, -, -⟩ := h
  rw [Source.typeOf, textField, field?_of_lookup htype rfl]
  simp [bind, Except.bind, hne, pure, Except.pure]

/-- The location of a node is read from what spells it. -/
theorem SpellsNode.locationOf (h : SpellsNode node loc members) (hloc : origin.isFrom loc = true) :
    locationOf origin members = .ok loc := by
  obtain ⟨-, -, hlocation, hposition, -⟩ := h
  simp only [Location.isFrom, Bool.and_eq_true, beq_iff_eq, decide_eq_true_eq] at hloc
  obtain ⟨heq, hline, hcol⟩ := hloc
  rw [locationOf_eq origin hlocation hposition hline hcol, ← heq]

/-- The parts of a node are spelled under their keys. -/
theorem SpellsNode.part (h : SpellsNode node loc members) (key : Text) (p : Part) (hp : (key, p) ∈ node.parts) :
    SpellsPart (Json.lookup key members) p := by
  obtain ⟨-, -, -, -, hparts⟩ := h
  exact hparts _ hp

theorem SpellsNode.text (h : SpellsNode node loc members) (key t : Text) (hp : (key, .text t) ∈ node.parts) :
    textField key members = .ok t := by
  rw [textField, field?_of_lookup (h.part _ _ hp).eq_text rfl]

/-- What stands for an expression spells it. -/
theorem SpellsPart.exists_child {e : Expr} (h : SpellsPart o (.child e)) : ∃ j, o = some j ∧ SpellsExpr j e := by
  cases h with
  | missing _ hp => cases hp
  | child h => exact ⟨_, rfl, h⟩

/-- The values of a list of expressions spell them. -/
theorem SpellsPart.children_items {es : List Expr} (h : SpellsPart o (.children es)) :
    IsList o ∧ List.Forall₂ SpellsExpr (present ((itemsOf? o).getD [])) es := by
  cases h with
  | missing hmissing hp =>
    cases es with
    | nil => exact ⟨Or.inl hmissing, hmissing.itemsOf? ▸ .nil⟩
    | cons => cases hp
  | children h => exact ⟨Or.inr ⟨_, _, rfl⟩, h⟩

/-- The values of a list are nested less deep than the object that holds it. -/
theorem depth_lt_of_mem_items {j : Json} (h : j ∈ (itemsOf? (Json.lookup key members)).getD []) :
    j.depth < Json.depthOfMembers members := by
  cases hlist : Json.lookup key members with
  | none =>
    rw [hlist] at h
    cases h
  | some list =>
    rw [hlist] at h
    cases list with
    | array src items =>
      have hdepth := Json.depth_lookup_le hlist
      rw [Json.depth] at hdepth
      exact Nat.lt_of_le_of_lt (Json.depth_le_depthOfItems h) hdepth
    | _ => cases h

/-- Results for the values of a list that stand for something are the results for all of them. -/
theorem mapM_filterMap_present {ε α : Type} {f : Json → Except ε (Option α)} (hnull : f .null = .ok none)
    {items : List Json} {as : List α}
    (h : List.Forall₂ (fun j a => f j = .ok (some a)) (present items) as) :
    ∃ os, items.mapM f = .ok os ∧ os.filterMap id = as := by
  induction items generalizing as with
  | nil =>
    cases h
    exact ⟨[], rfl, rfl⟩
  | cons j rest ih =>
    by_cases hj : j.isNull = true
    · have hnull' : j = .null := by
        cases j with
        | null => rfl
        | _ => cases hj
      subst hnull'
      obtain ⟨os, hos, has⟩ := ih h
      exact ⟨none :: os, by simp [hnull, hos, bind, Except.bind, pure, Except.pure], by simpa using has⟩
    · rw [present, List.filter_cons_of_pos (by simpa using hj)] at h
      obtain ⟨a, as', ha, hrest, rfl⟩ := List.forall₂_cons_left_iff.1 h
      obtain ⟨os, hos, has⟩ := ih hrest
      exact ⟨some a :: os, by simp [ha, hos, bind, Except.bind, pure, Except.pure], by simpa using has⟩

theorem readExpr_null (s : Setting) (fuel : Nat) : readExpr s fuel .null = .ok none := by
  cases fuel <;> rw [readExpr]

/-- Reading with a given fuel recovers the expressions that are nested no deeper. -/
def RecoversExprs (s : Setting) (fuel : Nat) : Prop :=
  ∀ j e, SpellsExpr j e → e.isSource s.origin = true → j.depth ≤ fuel → readExpr s fuel j = .ok (some e)

section Children

variable (h : SpellsNode node loc members) (hexprs : RecoversExprs s fuel)
  (hdepth : Json.depthOfMembers members ≤ fuel)
include h hexprs hdepth

/-- An expression that is required under a key is recovered, whatever its absence would be reported as. -/
theorem SpellsNode.required (key : Text) {e : Expr} (he : e.isSource s.origin = true)
    (hp : (key, .child e) ∈ node.parts) (missing : SourceError) :
    (do
      match ← (match Json.lookup key members with
        | none => Except.ok none
        | some j => readExpr s fuel j) with
      | some e => return e
      | none => .error missing) = .ok e := by
  obtain ⟨j, hj, hspells⟩ := (h.part _ _ hp).exists_child
  have hread := hexprs j e hspells he (Nat.le_trans (Json.depth_lookup_le hj) hdepth)
  simp [hj, hread, bind, Except.bind, pure, Except.pure]

/-- An expression that may be missing under a key is recovered. -/
theorem SpellsNode.optional (key : Text) {e : Option Expr} (he : e.all (Expr.isSource s.origin) = true)
    (hp : (key, .optional e) ∈ node.parts) :
    (match Json.lookup key members with
      | none => Except.ok none
      | some j => readExpr s fuel j) = .ok e := by
  have hpart := h.part _ _ hp
  generalize ho : Json.lookup key members = o at hpart
  cases hpart with
  | missing hmissing hnone =>
    cases e with
    | some => cases hnone
    | none =>
      rcases hmissing.cases with rfl | rfl
      · rfl
      · exact readExpr_null s fuel
  | optional hspells => exact hexprs _ _ hspells he (Nat.le_trans (Json.depth_lookup_le ho) hdepth)

/-- A list of expressions under a key is recovered. -/
theorem SpellsNode.children (key : Text) {es : List Expr} (hes : Expr.allSource s.origin es = true)
    (hp : (key, .children es) ∈ node.parts) : listField key members >>= readExprs s fuel = .ok es := by
  obtain ⟨hlist, hitems⟩ := (h.part _ _ hp).children_items
  have hread : List.Forall₂ (fun j e => readExpr s fuel j = .ok (some e))
      (present ((itemsOf? (Json.lookup key members)).getD [])) es := by
    refine forall₂_imp_of_mem hitems fun j hj e he hspells => ?_
    have hlt := depth_lt_of_mem_items (List.mem_of_mem_filter hj)
    exact hexprs j e hspells (Expr.allSource_iff.1 hes e he) (by omega)
  obtain ⟨os, hos, heq⟩ := mapM_filterMap_present (readExpr_null s fuel) hread
  refine Except.bind_ok (listField_of_isList hlist) ?_
  rw [readExprs, hos, ← heq]
  rfl

end Children

/-- An expression is recovered from what spells it. -/
theorem readExpr_of_spells (s : Setting) (fuel : Nat) : RecoversExprs s fuel := by
  induction fuel with
  | zero =>
    intro j e h _ hdepth
    cases h with
    | node => cases hdepth
  | succ fuel ih =>
    intro j e h hsource hdepth
    cases h with
    | @node src members e node hnode h =>
    have hmembers : Json.depthOfMembers members ≤ fuel := Nat.le_of_succ_le_succ hdepth
    rw [readExpr, h.typeOf (isEmpty_type_ofExpr hnode), h.locationOf (Expr.isFrom_of_isSource hsource)]
    refine Except.bind_ok rfl (Except.bind_ok rfl ?_)
    dsimp only
    cases e with
    | number loc value via =>
      cases hnode
      rw [lookup_of_mem nodup_exprTypes "Number" .number (by simp [exprTypes])]
      have hvia : via = Text.empty := eq_of_beq (Bool.and_eq_true_iff.1 hsource).2
      have hvalue := (h.part _ _ (List.mem_singleton_self _)).eq_integer
      have hread : readNumber s loc members = .ok (.literal loc value) := by
        simp [readNumber, hvalue, Text.toInt64?_ofInt64]
      rw [Expr.loc, hread, hvia]
      rfl
    | numeral loc digits =>
      cases hnode
      rw [lookup_of_mem nodup_exprTypes "Number" .number (by simp [exprTypes])]
      have hdigits := (Bool.and_eq_true_iff.1 hsource).2
      have hvalue := (h.part _ _ (List.mem_singleton_self _)).eq_text
      have hread : readNumber s loc members = .ok (.numeral loc digits) := by
        simp only [Bool.not_eq_true'] at hdigits
        simp [readNumber, hvalue, hdigits]
      rw [Expr.loc, hread]
      rfl
    | string loc value via =>
      cases hnode
      rw [lookup_of_mem nodup_exprTypes "String" .string (by simp [exprTypes])]
      have hvia : via = Text.empty := eq_of_beq (Bool.and_eq_true_iff.1 hsource).2
      rw [hvia]
      exact Except.bind_ok (h.text "value" value (by simp)) rfl
    | identifier loc name =>
      cases hnode
      rw [lookup_of_mem nodup_exprTypes "Identifier" .identifier (by simp [exprTypes])]
      exact Except.bind_ok (h.text "name" name (by simp)) rfl
    | fragment => cases hnode
    | here loc =>
      cases hnode
      rw [lookup_of_mem nodup_exprTypes "InstructionLocation" .here (by simp [exprTypes])]
      rfl
    | unary loc op value =>
      cases hnode
      rw [lookup_of_mem nodup_exprTypes "UnaryOperation" .unary (by simp [exprTypes])]
      obtain ⟨-, hvalue⟩ := Bool.and_eq_true_iff.1 hsource
      refine Except.bind_ok (h.text "op" op.name (by simp)) ?_
      dsimp only
      rw [UnaryOp.ofName?_name]
      exact Except.bind_ok (h.required ih hmembers "value" hvalue (by simp) _) rfl
    | binary loc op left right =>
      cases hnode
      rw [lookup_of_mem nodup_exprTypes "BinaryOperation" .binary (by simp [exprTypes])]
      simp only [Expr.isSource, Bool.and_eq_true] at hsource
      obtain ⟨-, hleft, hright⟩ := hsource
      refine Except.bind_ok (h.text "op" op.name (by simp)) ?_
      dsimp only
      rw [BinaryOp.ofName?_name]
      refine Except.bind_ok (h.required ih hmembers "left" hleft (by simp) _) ?_
      exact Except.bind_ok (h.required ih hmembers "right" hright (by simp) _) rfl
    | ternary loc test onTrue onFalse =>
      cases hnode
      rw [lookup_of_mem nodup_exprTypes "TernaryOperation" .ternary (by simp [exprTypes])]
      simp only [Expr.isSource, Bool.and_eq_true] at hsource
      obtain ⟨-, htest, honTrue, honFalse⟩ := hsource
      refine Except.bind_ok (h.required ih hmembers "test" htest (by simp) _) ?_
      refine Except.bind_ok (h.required ih hmembers "onTrue" honTrue (by simp) _) ?_
      exact Except.bind_ok (h.required ih hmembers "onFalse" honFalse (by simp) _) rfl
    | call loc name params =>
      cases hnode
      rw [lookup_of_mem nodup_exprTypes "FunctionCall" .call (by simp [exprTypes])]
      obtain ⟨-, hparams⟩ := Bool.and_eq_true_iff.1 hsource
      refine Except.bind_ok (h.text "name" name (by simp)) ?_
      obtain ⟨items, hlist, hitems⟩ :=
        Except.bind_eq_ok_iff.1 (h.children ih hmembers "parameters" hparams (by simp))
      obtain ⟨os, hos, heq⟩ := Except.bind_eq_ok_iff.1 hitems
      refine Except.bind_ok hlist (Except.bind_ok hos ?_)
      cases heq
      rfl
    | register r =>
      cases hnode
      rw [lookup_of_mem nodup_exprTypes "Register" .register (by simp [exprTypes])]
      have hupper : r.name.upper = r.name := eq_of_beq (Bool.and_eq_true_iff.1 hsource).2
      refine Except.bind_ok (h.text "name" r.name (by simp)) ?_
      rw [hupper]
      rfl
    | condition c =>
      cases hnode
      rw [lookup_of_mem nodup_exprTypes "Condition" .condition (by simp [exprTypes])]
      have hupper : c.name.upper = c.name := eq_of_beq (Bool.and_eq_true_iff.1 hsource).2
      refine Except.bind_ok (h.text "name" c.name (by simp)) ?_
      rw [hupper]
      rfl
    | absolute loc address =>
      cases hnode
      rw [lookup_of_mem nodup_exprTypes "IndirectAbsolute" .absolute (by simp [exprTypes])]
      obtain ⟨-, haddress⟩ := Bool.and_eq_true_iff.1 hsource
      exact Except.bind_ok (h.required ih hmembers "address" haddress (by simp) _) rfl
    | indirect loc base =>
      cases hnode
      rw [lookup_of_mem nodup_exprTypes "IndirectRegister" .indirect (by simp [exprTypes])]
      obtain ⟨-, hbase⟩ := Bool.and_eq_true_iff.1 hsource
      have hread := h.required ih hmembers "register" (e := .register base) hbase (by simp)
      exact Except.bind_ok (Except.bind_ok (hread _) rfl) rfl
    | indexed loc base index =>
      cases hnode
      rw [lookup_of_mem nodup_exprTypes "IndirectRegisterIndex" .indexed (by simp [exprTypes])]
      simp only [Expr.isSource, Bool.and_eq_true] at hsource
      obtain ⟨-, hbase, hindex⟩ := hsource
      have hread1 := h.required ih hmembers "register" (e := .register base) hbase (by simp)
      have hread2 := h.required ih hmembers "index" (e := .register index) hindex (by simp)
      exact Except.bind_ok (Except.bind_ok (hread1 _) rfl) (Except.bind_ok (Except.bind_ok (hread2 _) rfl) rfl)
    | displaced loc base displace =>
      cases hnode
      rw [lookup_of_mem nodup_exprTypes "IndirectRegisterDisplace" .displaced (by simp [exprTypes])]
      simp only [Expr.isSource, Bool.and_eq_true] at hsource
      obtain ⟨-, hbase, hdisplace⟩ := hsource
      have hread := h.required ih hmembers "register" (e := .register base) hbase (by simp)
      refine Except.bind_ok (Except.bind_ok (hread _) rfl) ?_
      exact Except.bind_ok (h.required ih hmembers "displace" hdisplace (by simp) _) rfl
    | offset loc base value =>
      cases hnode
      rw [lookup_of_mem nodup_exprTypes "IndirectRegisterOffset" .offset (by simp [exprTypes])]
      simp only [Expr.isSource, Bool.and_eq_true] at hsource
      obtain ⟨-, hbase, hvalue⟩ := hsource
      have hread := h.required ih hmembers "register" (e := .register base) hbase (by simp)
      refine Except.bind_ok (Except.bind_ok (hread _) rfl) ?_
      exact Except.bind_ok (h.required ih hmembers "offset" hvalue (by simp) _) rfl

end Source

end MacroAsm
