import MacroAsm.Proofs.Source.ReadExpr

/-!
# Programs are recovered from their spelling

Reading what spells a statement gives it back, by induction on the fuel, which bounds the nesting
(`Source.readToken_of_spells`). So a program is read from each of its spellings, also from a list of parses that
begins with one (`Source.program_recovered`).
-/

namespace MacroAsm

namespace Source

variable {origin : Location} {s : Setting} {fuel : Nat} {node : Node} {loc : Location} {members : List Member}
  {key : Text} {o : Option Json}

/-- The values of a list of statements spell them. -/
theorem SpellsPart.body_items {ts : List Token} (h : SpellsPart o (.body ts)) :
    IsList o ∧ List.Forall₂ SpellsToken (present ((itemsOf? o).getD [])) ts := by
  cases h with
  | missing hmissing hp =>
    cases ts with
    | nil => exact ⟨Or.inl hmissing, hmissing.itemsOf? ▸ .nil⟩
    | cons => cases hp
  | body h => exact ⟨Or.inr ⟨_, _, rfl⟩, h⟩

/-- The values of a list of arms spell them. -/
theorem SpellsPart.arms_items {cs : List Clause} (h : SpellsPart o (.arms cs)) :
    IsList o ∧ List.Forall₂ SpellsArm ((itemsOf? o).getD []) cs := by
  cases h with
  | missing hmissing hp =>
    cases cs with
    | nil => exact ⟨Or.inl hmissing, hmissing.itemsOf? ▸ .nil⟩
    | cons => cases hp
  | arms h => exact ⟨Or.inr ⟨_, _, rfl⟩, h⟩

/-- An ELSE is a list of what spells its statements, and none is none at all. -/
theorem SpellsPart.otherwise_items {body : Option (List Token)} (h : SpellsPart o (.otherwise body)) :
    IsList o ∧ Option.Rel (fun items ts => List.Forall₂ SpellsToken (present items) ts) (itemsOf? o) body := by
  cases h with
  | missing hmissing hp =>
    cases body with
    | none => exact ⟨Or.inl hmissing, hmissing.itemsOf? ▸ .none⟩
    | some => cases hp
  | otherwise h => exact ⟨Or.inr ⟨_, _, rfl⟩, .some h⟩

/-- Reading with a given fuel recovers the statements that are nested no deeper. -/
def RecoversTokens (s : Setting) (fuel : Nat) : Prop :=
  ∀ j t, SpellsToken j t → t.isSource s.origin = true → j.depth ≤ fuel → readToken fuel s j = .ok t

/-- Reading with a given fuel recovers the test and the body of an arm. -/
structure RecoversArm (s : Setting) (fuel : Nat) (arm : ArmNode) (c : Clause) : Prop where
  /-- The test is read. -/
  test : readExpr s fuel (arm.test.getD .null) = .ok (some c.test)
  /-- The statements of the body are read. -/
  body : (present arm.body).mapM (readToken fuel s) = .ok c.body

section Bodies

variable (htokens : RecoversTokens s fuel)
include htokens

/-- The statements of a list are recovered. -/
theorem mapM_present {items : List Json} {ts : List Token} (h : List.Forall₂ SpellsToken (present items) ts)
    (hdepth : ∀ j ∈ items, j.depth ≤ fuel) (hts : ∀ t ∈ ts, t.isSource s.origin = true) :
    (present items).mapM (readToken fuel s) = .ok ts := by
  refine Except.mapM_eq_ok_iff.2 (forall₂_imp_of_mem h fun j hj t ht hspells => ?_)
  exact htokens j t hspells (hts t ht) (hdepth j (List.mem_of_mem_filter hj))

/-- A body under a key is recovered. -/
theorem SpellsNode.body (h : SpellsNode node loc members) (hdepth : Json.depthOfMembers members ≤ fuel) (key : Text)
    {ts : List Token} (hts : ∀ t ∈ ts, t.isSource s.origin = true) (hp : (key, .body ts) ∈ node.parts) :
    (listField key members >>= fun items => (present items).mapM (readToken fuel s)) = .ok ts := by
  obtain ⟨hlist, hitems⟩ := (h.part _ _ hp).body_items
  refine Except.bind_ok (listField_of_isList hlist) (mapM_present htokens hitems (fun j hj => ?_) hts)
  have hlt := depth_lt_of_mem_items hj
  omega

/-- An arm is read as a test and a list of statements, from which its parts are recovered. -/
theorem exists_readArm {j : Json} {c : Clause} (h : SpellsArm j c) (hdepth : j.depth ≤ fuel)
    (htest : c.test.isSource s.origin = true) (hbody : ∀ t ∈ c.body, t.isSource s.origin = true) :
    ∃ arm, readArm ⟨none, []⟩ j = .ok arm ∧ RecoversArm s fuel arm c := by
  cases h with
  | @arm src members c hkeys hspellsTest hspellsBody =>
    have hmembers : Json.depthOfMembers members ≤ fuel := Nat.le_of_succ_le hdepth
    obtain ⟨j, hj, hspells⟩ := hspellsTest.exists_child
    obtain ⟨hlist, hitems⟩ := hspellsBody.body_items
    refine ⟨_, readArm_eq hkeys hlist, ?_, mapM_present htokens hitems (fun j hj => ?_) hbody⟩
    · rw [hj, Option.getD_some]
      exact readExpr_of_spells s fuel j _ hspells htest (Nat.le_trans (Json.depth_lookup_le hj) hmembers)
    · have hlt := depth_lt_of_mem_items hj
      omega

/-- The arms of a list are read one by one. -/
theorem exists_readArms {items : List Json} {cs : List Clause} (h : List.Forall₂ SpellsArm items cs)
    (hdepth : ∀ j ∈ items, j.depth ≤ fuel) (htests : ∀ c ∈ cs, c.test.isSource s.origin = true)
    (hbodies : ∀ c ∈ cs, ∀ t ∈ c.body, t.isSource s.origin = true) :
    ∃ arms, items.mapM (readArm ⟨none, []⟩) = .ok arms ∧ List.Forall₂ (RecoversArm s fuel) arms cs := by
  induction h with
  | nil => exact ⟨[], rfl, .nil⟩
  | cons hspells _ ih =>
    rw [List.forall_mem_cons] at hdepth htests hbodies
    obtain ⟨arm, harm, hread⟩ := exists_readArm htokens hspells hdepth.1 htests.1 hbodies.1
    obtain ⟨arms, harms, hreads⟩ := ih hdepth.2 htests.2 hbodies.2
    refine ⟨arm :: arms, ?_, .cons hread hreads⟩
    rw [List.mapM_cons]
    exact Except.bind_ok harm (Except.bind_ok harms rfl)

/-- The arms and the ELSE of an IF are recovered. -/
theorem SpellsNode.exists_readIf {clauses : List Clause} {otherwise : Option (List Token)}
    (h : SpellsNode ⟨"IfDirective", [("conditions", .arms clauses), ("otherwise", .otherwise otherwise)]⟩ loc members)
    (hdepth : Json.depthOfMembers members ≤ fuel)
    (htests : ∀ c ∈ clauses, c.test.isSource s.origin = true)
    (hbodies : ∀ c ∈ clauses, ∀ t ∈ c.body, t.isSource s.origin = true)
    (hotherwise : ∀ body ∈ otherwise, ∀ t ∈ body, t.isSource s.origin = true) :
    ∃ tree, readIf members = .ok tree ∧ List.Forall₂ (RecoversArm s fuel) (tree.slots.take tree.count) clauses ∧
      tree.otherwise.mapM (fun items => (present items).mapM (readToken fuel s)) = .ok otherwise := by
  have hkeys : HasKeys ["type", "location", "conditions", "otherwise"] members := by
    obtain ⟨hkeys, -, -, -, -⟩ := h
    exact hkeys
  obtain ⟨hconditions, hclauses⟩ := (h.part "conditions" (.arms clauses) (by simp)).arms_items
  obtain ⟨helse, hrel⟩ := (h.part "otherwise" (.otherwise otherwise) (by simp)).otherwise_items
  have hlt : ∀ key, ∀ j ∈ (itemsOf? (Json.lookup key members)).getD [], j.depth ≤ fuel := by
    intro key j hj
    have hlt := depth_lt_of_mem_items hj
    omega
  obtain ⟨arms, harms, hreads⟩ := exists_readArms htokens hclauses (hlt _) htests hbodies
  refine ⟨_, readIf_eq hkeys hconditions helse harms, ?_, ?_⟩
  · rwa [List.take_length]
  · have hitems := hlt "otherwise"
    generalize itemsOf? (Json.lookup "otherwise" members) = found at hrel hitems
    cases hrel with
    | none => rfl
    | some hspells =>
      rw [Option.mapM_some]
      exact Except.bind_ok (mapM_present htokens hspells hitems (hotherwise _ rfl)) rfl

end Bodies

/-- A statement is recovered from what spells it. -/
theorem readToken_of_spells (fuel : Nat) (s : Setting) : RecoversTokens s fuel := by
  induction fuel generalizing s with
  | zero =>
    intro j t h _ hdepth
    cases h with
    | node => cases hdepth
  | succ fuel ih =>
    intro j t h hsource hdepth
    cases h with
    | @node src members t node hnode h =>
    have hmembers : Json.depthOfMembers members ≤ fuel := Nat.le_of_succ_le_succ hdepth
    have hexprs := readExpr_of_spells s fuel
    obtain ⟨hnodeSource, hnested⟩ := Token.everywhere_iff.1 hsource
    obtain ⟨hloc, hparts⟩ := Bool.and_eq_true_iff.1 hnodeSource
    rw [readToken, h.typeOf (isEmpty_type_ofToken hnode), h.locationOf hloc]
    refine Except.bind_ok rfl (Except.bind_ok rfl ?_)
    dsimp only
    cases t with
    | inclusion loc path loader =>
      cases hnode
      rw [lookup_of_mem nodup_statementTypes "IncludeDirective" .inclusion (by simp [statementTypes])]
      obtain ⟨hpath, hloader⟩ := Bool.and_eq_true_iff.1 hparts
      refine Except.bind_ok (h.required hexprs hmembers "path" hpath (by simp) _) ?_
      exact Except.bind_ok (h.optional hexprs hmembers "transform" hloader (by simp)) rfl
    | radix loc value =>
      cases hnode
      rw [lookup_of_mem nodup_statementTypes "RadixDirective" .radix (by simp [statementTypes])]
      exact Except.bind_ok (h.required hexprs hmembers "value" hparts (by simp) _) rfl
    | align loc value =>
      cases hnode
      rw [lookup_of_mem nodup_statementTypes "AlignDirective" .align (by simp [statementTypes])]
      exact Except.bind_ok (h.required hexprs hmembers "value" hparts (by simp) _) rfl
    | allocate loc size =>
      cases hnode
      rw [lookup_of_mem nodup_statementTypes "DataAllocateDirective" .allocate (by simp [statementTypes])]
      exact Except.bind_ok (h.required hexprs hmembers "size" hparts (by simp) _) rfl
    | declare loc how names =>
      obtain ⟨hhow, hnames⟩ := Bool.and_eq_true_iff.1 hparts
      cases how with
      | locally =>
        cases hnode
        rw [Node.ofDeclaration, lookup_of_mem nodup_statementTypes "LocalDirective" .locally
          (by simp [statementTypes])]
        exact Except.bind_ok (h.children hexprs hmembers "names" hnames (by simp [Node.ofDeclaration])) rfl
      | globally weak =>
        cases hnode
        rw [Node.ofDeclaration, lookup_of_mem nodup_statementTypes "GlobalDirective" .globally
          (by simp [statementTypes])]
        have hweak := boolField_of_spells (h.part "weak" (.flag weak) (by simp [Node.ofDeclaration]))
        refine Except.bind_ok (h.children hexprs hmembers "names" hnames (by simp [Node.ofDeclaration])) ?_
        exact Except.bind_ok hweak rfl
      | externally attributes =>
        cases hnode
        rw [Node.ofDeclaration, lookup_of_mem nodup_statementTypes "ExternDirective" .externally
          (by simp [statementTypes])]
        have hordered : ∀ a ∈ attributes, Attributes.IsOrdered a := by
          rintro a rfl
          exact of_decide_eq_true hhow
        have hattributes := attributesField_of_spells
          (h.part "attributes" (.attributes attributes) (by simp [Node.ofDeclaration])) hordered
        refine Except.bind_ok (h.children hexprs hmembers "names" hnames (by simp [Node.ofDeclaration])) ?_
        exact Except.bind_ok hattributes rfl
    | assign loc how name value =>
      obtain ⟨hname, hvalue⟩ := Bool.and_eq_true_iff.1 hparts
      have htype : statementTypes.lookup (assignmentType how) = some (.assign how) := by
        refine lookup_of_mem nodup_statementTypes _ _ ?_
        cases how <;> simp [statementTypes, assignmentType]
      cases hnode
      rw [htype]
      refine Except.bind_ok (h.required hexprs hmembers "name" hname (by simp) _) ?_
      exact Except.bind_ok (h.required hexprs hmembers "value" hvalue (by simp) _) rfl
    | label loc name =>
      cases hnode
      rw [lookup_of_mem nodup_statementTypes "LabelDirective" .label (by simp [statementTypes])]
      exact Except.bind_ok (h.required hexprs hmembers "name" hparts (by simp) _) rfl
    | retract loc what names =>
      have htype : statementTypes.lookup (retractionType what) = some (.retract what) := by
        refine lookup_of_mem nodup_statementTypes _ _ ?_
        cases what <;> simp [statementTypes, retractionType]
      cases hnode
      rw [htype]
      exact Except.bind_ok (h.children hexprs hmembers "names" hparts (by simp)) rfl
    | cond loc clauses otherwise assembled =>
      cases assembled with
      | true => cases hnode
      | false =>
        cases hnode
        rw [lookup_of_mem nodup_statementTypes "IfDirective" .cond (by simp [statementTypes])]
        have htests : ∀ c ∈ clauses, c.test.isSource s.origin = true := by
          simpa [Token.hasSourceParts] using hparts
        obtain ⟨-, hbodies, hotherwise⟩ := Token.everywhere_cond.1 hsource
        obtain ⟨tree, htree, harms, helse⟩ := SpellsNode.exists_readIf (s := { s with tidy := true }) (ih _) h
          hmembers htests hbodies hotherwise
        refine Except.bind_ok htree (Except.bind_ok ?_ (Except.bind_ok helse rfl))
        refine Except.mapM_eq_ok_iff.2 (harms.imp fun arm c hread => ?_)
        obtain ⟨test, body⟩ := c
        exact Except.bind_ok hread.test (Except.bind_ok hread.body rfl)
    | display loc kind text =>
      have htype : statementTypes.lookup (displayType kind) = some (.display kind) := by
        refine lookup_of_mem nodup_statementTypes _ _ ?_
        cases kind <;> simp [statementTypes, displayType]
      cases hnode
      rw [htype]
      exact Except.bind_ok (h.children hexprs hmembers "message" hparts (by simp)) rfl
    | data loc kind values =>
      have htype : statementTypes.lookup (dataType kind) = some (.data kind) := by
        refine lookup_of_mem nodup_statementTypes _ _ ?_
        cases kind <;> simp [statementTypes, dataType]
      cases hnode
      rw [htype]
      exact Except.bind_ok (h.children hexprs hmembers "data" hparts (by simp)) rfl
    | stop loc =>
      cases hnode
      rw [lookup_of_mem nodup_statementTypes "EndDirective" .stop (by simp [statementTypes])]
      rfl
    | exitMacro loc =>
      cases hnode
      rw [lookup_of_mem nodup_statementTypes "ExitMacroDirective" .exitMacro (by simp [statementTypes])]
      rfl
    | dup loc counter iteration body =>
      obtain ⟨hcounter, hiteration⟩ := Bool.and_eq_true_iff.1 hparts
      have hts := hnested body (List.mem_singleton_self _)
      cases iteration with
      | count n =>
        cases hnode
        rw [Node.ofDup, lookup_of_mem nodup_statementTypes "CountDupDirective" .countDup (by simp [statementTypes])]
        refine Except.bind_ok (h.optional hexprs hmembers "counter" hcounter (by simp [Node.ofDup])) ?_
        refine Except.bind_ok (h.required hexprs hmembers "count" hiteration (by simp [Node.ofDup]) _) ?_
        exact Except.bind_ok (h.body (ih s) hmembers "body" hts (by simp [Node.ofDup])) rfl
      | list element items =>
        obtain ⟨helement, hitems⟩ := Bool.and_eq_true_iff.1 hiteration
        cases hnode
        rw [Node.ofDup, lookup_of_mem nodup_statementTypes "ListDupDirective" .listDup (by simp [statementTypes])]
        refine Except.bind_ok (h.optional hexprs hmembers "counter" hcounter (by simp [Node.ofDup])) ?_
        refine Except.bind_ok (h.required hexprs hmembers "variable" helement (by simp [Node.ofDup]) _) ?_
        refine Except.bind_ok (h.children hexprs hmembers "list" hitems (by simp [Node.ofDup])) ?_
        exact Except.bind_ok (h.body (ih s) hmembers "body" hts (by simp [Node.ofDup])) rfl
      | characters element strings =>
        obtain ⟨helement, hstrings⟩ := Bool.and_eq_true_iff.1 hiteration
        cases hnode
        rw [Node.ofDup, lookup_of_mem nodup_statementTypes "CharacterDupDirective" .characterDup
          (by simp [statementTypes])]
        refine Except.bind_ok (h.optional hexprs hmembers "counter" hcounter (by simp [Node.ofDup])) ?_
        refine Except.bind_ok (h.required hexprs hmembers "variable" helement (by simp [Node.ofDup]) _) ?_
        refine Except.bind_ok (h.children hexprs hmembers "strings" hstrings (by simp [Node.ofDup])) ?_
        exact Except.bind_ok (h.body (ih s) hmembers "body" hts (by simp [Node.ofDup])) rfl
      | sequence element start stop step =>
        simp only [Iteration.isSource, Bool.and_eq_true] at hiteration
        obtain ⟨helement, hstart, hstop, hstep⟩ := hiteration
        cases hnode
        rw [Node.ofDup, lookup_of_mem nodup_statementTypes "SequenceDupDirective" .sequenceDup
          (by simp [statementTypes])]
        refine Except.bind_ok (h.optional hexprs hmembers "counter" hcounter (by simp [Node.ofDup])) ?_
        refine Except.bind_ok (h.required hexprs hmembers "variable" helement (by simp [Node.ofDup]) _) ?_
        refine Except.bind_ok (h.optional hexprs hmembers "start" hstart (by simp [Node.ofDup])) ?_
        refine Except.bind_ok (h.optional hexprs hmembers "end" hstop (by simp [Node.ofDup])) ?_
        refine Except.bind_ok (h.optional hexprs hmembers "step" hstep (by simp [Node.ofDup])) ?_
        exact Except.bind_ok (h.body (ih s) hmembers "body" hts (by simp [Node.ofDup])) rfl
    | macroDef loc name parameters body =>
      obtain ⟨hname, hparameters⟩ := Bool.and_eq_true_iff.1 hparts
      have hts := hnested body (List.mem_singleton_self _)
      cases hnode
      rw [lookup_of_mem nodup_statementTypes "MacroDefinitionDirective" .macroDef (by simp [statementTypes])]
      refine Except.bind_ok (h.required hexprs hmembers "name" hname (by simp) _) ?_
      refine Except.bind_ok (h.children hexprs hmembers "parameters" hparameters (by simp)) ?_
      exact Except.bind_ok (h.body (ih s) hmembers "body" hts (by simp)) rfl
    | dispatch d =>
      obtain ⟨hcallee, hoperands⟩ := Bool.and_eq_true_iff.1 hparts
      cases hnode
      rw [lookup_of_mem nodup_statementTypes "DispatchDirective" .dispatch (by simp [statementTypes])]
      refine Except.bind_ok (h.required hexprs hmembers "call" hcallee (by simp) _) ?_
      exact Except.bind_ok (h.children hexprs hmembers "parameters" hoperands (by simp)) rfl
    | message | fragment | bytes | immediate | branch | dependency => cases hnode

/-- A program is recovered from what spells it. -/
theorem readProgram_of_spells {j : Json} {ts : List Token} (h : SpellsProgram j ts)
    (hts : ∀ t ∈ ts, t.isSource origin = true) :
    readProgram origin j = .ok ts ∧ ∀ src rest, readProgram origin (.array src (j :: rest)) = .ok ts := by
  obtain ⟨src, items, rfl, hitems⟩ := h
  have hread : readTokens ⟨origin, false⟩ items = .ok ts := by
    refine Except.mapM_eq_ok_iff.2 (forall₂_imp_of_mem hitems fun j _ t ht hspells => ?_)
    exact readToken_of_spells (j.depth + 1) ⟨origin, false⟩ j t hspells (hts t ht) (Nat.le_succ _)
  refine ⟨?_, fun _ _ => hread⟩
  cases items with
  | nil => exact hread
  | cons j rest =>
    cases j with
    | array src' items' =>
      -- no statement is spelled by an array
      obtain ⟨t, _, hspells, -, -⟩ := List.forall₂_cons_left_iff.1 hitems
      cases hspells
    | _ => exact hread

/-- Every program of a source has a spelling, and from each of its spellings it is recovered, also from a list of
parses that begins with the spelling. -/
theorem program_recovered {origin : Location} {ts : List Token} (hts : ∀ t ∈ ts, t.isSource origin = true) :
    (∃ j, SpellsProgram j ts) ∧ ∀ j, SpellsProgram j ts → ∀ document,
      (document = j ∨ ∃ src rest, document = .array src (j :: rest)) →
        readProgram origin document = .ok ts ∧
          ∀ text, Json.parse text.trim = .ok document → parseProgram origin text = .ok ts := by
  refine ⟨exists_spellsProgram hts, fun j hj document hdocument => ?_⟩
  have hread : readProgram origin document = .ok ts := by
    obtain ⟨halone, hwrapped⟩ := readProgram_of_spells hj hts
    rcases hdocument with rfl | ⟨src, rest, rfl⟩
    · exact halone
    · exact hwrapped src rest
  refine ⟨hread, fun text htext => ?_⟩
  rw [parseProgram, htext]
  exact hread

/-- A place on the first line of a file. -/
def firstLine (col : Nat) : Location := ⟨⟨1, col, "main.asm"⟩, Text.empty, []⟩

/-- `IF 1`, `ELSE` and `ENDIF`, with nothing in between. -/
def emptyElse : Token := .cond (firstLine 1) [.mk (.literal (firstLine 4) 1) []] (some []) false

/-- The members that spell the number one. -/
def oneMembers : List Member :=
  [.mk "value" (.number (Text.ofInt64 1)), .mk "type" (.string "Number"),
    .mk "location" (.object Span.none (positionOf 1 4))]

/-- The members that spell `emptyElse`. The ELSE is there and empty, and the body of the arm is absent. -/
def emptyElseMembers : List Member :=
  [.mk "otherwise" (.array Span.none []),
    .mk "conditions" (.array Span.none [.object Span.none [.mk "test" (.object Span.none oneMembers)]]),
    .mk "type" (.string "IfDirective"), .mk "location" (.object Span.none (positionOf 1 1))]

/-- An IF with an empty ELSE is recovered from a list of parses. -/
theorem program_recovered_emptyElse :
    emptyElse.isSource (Location.ofPath "main.asm") = true ∧
      SpellsProgram (.array Span.none [.null, .object Span.none emptyElseMembers]) [emptyElse] ∧
      readProgram (Location.ofPath "main.asm")
        (.array Span.none [.array Span.none [.null, .object Span.none emptyElseMembers]]) = .ok [emptyElse] := by
  have hsource : emptyElse.isSource (Location.ofPath "main.asm") = true := by decide
  have hone : SpellsExpr (.object Span.none oneMembers) (.literal (firstLine 4) 1) := by
    refine .node rfl (.node ⟨by decide, by simp [oneMembers, Node.keys, Member.key]⟩ rfl rfl (.refl _) ?_)
    exact List.forall_mem_singleton.2 (.integer 1)
  have harm : SpellsArm (.object Span.none [.mk "test" (.object Span.none oneMembers)])
      (.mk (.literal (firstLine 4) 1) []) := by
    refine .arm ⟨by decide, by simp [Member.key]⟩ (.child hone) (.missing (fun j hj => ?_) rfl)
    cases hj
  have hprogram : SpellsProgram (.array Span.none [.null, .object Span.none emptyElseMembers]) [emptyElse] := by
    refine ⟨_, _, rfl, .cons (.node rfl (.node ⟨by decide, ?_⟩ rfl rfl (.refl _) ?_)) .nil⟩
    · simp [emptyElseMembers, Node.keys, Member.key]
    · refine List.forall_mem_cons.2 ⟨.arms (.cons harm .nil), List.forall_mem_singleton.2 ?_⟩
      exact .otherwise .nil
  refine ⟨hsource, hprogram, ?_⟩
  have hrecovered := program_recovered (List.forall_mem_singleton.2 hsource)
  exact (hrecovered.2 _ hprogram _ (Or.inr ⟨Span.none, [], rfl⟩)).1

end Source

end MacroAsm
