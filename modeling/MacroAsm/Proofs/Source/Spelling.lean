import MacroAsm.Proofs.Assembly.Roles
import MacroAsm.Proofs.Source.Node

/-!
# How programs are spelled

Every expression and every statement of a source is a node: an object with a type, a location and parts under keys
that depend on the type (`Source.Node.ofExpr`, `Source.Node.ofToken`). `Source.SpellsExpr` and `Source.SpellsToken`
tell which objects spell a node: their members are in any order, a part that may be missing is absent or `null`, and
`null` stands anywhere in a list. What a source consists of (`Expr.isSource`, `Token.isSource`) has a spelling
(`Source.exists_spellsExpr`, `Source.exists_spellsToken`).
-/

namespace MacroAsm

/-- Whether a location is a line and a column of 32 bits, in the file and below the directives of `origin`. -/
def Location.isFrom (origin loc : Location) : Bool :=
  loc == { origin with line := loc.line, col := loc.col } &&
    (decide (loc.line < 0x100000000) && decide (loc.col < 0x100000000))

/-- Whether a register is one of a source: its name is in upper case. -/
def Register.isSource (origin : Location) (r : Register) : Bool :=
  origin.isFrom r.loc && r.name.upper == r.name

/-- Whether a condition is one of a source: its name is in upper case. -/
def Condition.isSource (origin : Location) (c : Condition) : Bool :=
  origin.isFrom c.loc && c.name.upper == c.name

namespace Expr

mutual

/-- Whether an expression is one of a source: numbers and strings were not resolved through a name, numerals have
digits, and there are no addresses of labels. -/
def isSource (origin : Location) : Expr → Bool
  | .number loc _ via | .string loc _ via => origin.isFrom loc && via == Text.empty
  | .numeral loc digits => origin.isFrom loc && !digits.isEmpty
  | .identifier loc _ | .here loc => origin.isFrom loc
  | .fragment .. => false
  | .unary loc _ value => origin.isFrom loc && value.isSource origin
  | .binary loc _ left right => origin.isFrom loc && (left.isSource origin && right.isSource origin)
  | .ternary loc test onTrue onFalse =>
    origin.isFrom loc && (test.isSource origin && (onTrue.isSource origin && onFalse.isSource origin))
  | .call loc _ params => origin.isFrom loc && allSource origin params
  | .register r => r.isSource origin
  | .condition c => c.isSource origin
  | .absolute loc address => origin.isFrom loc && address.isSource origin
  | .indirect loc base => origin.isFrom loc && base.isSource origin
  | .indexed loc base index => origin.isFrom loc && (base.isSource origin && index.isSource origin)
  | .displaced loc base displace => origin.isFrom loc && (base.isSource origin && displace.isSource origin)
  | .offset loc base value => origin.isFrom loc && (base.isSource origin && value.isSource origin)

/-- Whether the expressions of a list are those of a source. -/
def allSource (origin : Location) : List Expr → Bool
  | [] => true
  | e :: rest => e.isSource origin && allSource origin rest

end

variable {origin : Location}

/-- The expressions of a list are those of a source if each of them is. -/
theorem allSource_iff {es : List Expr} : allSource origin es = true ↔ ∀ e ∈ es, e.isSource origin = true := by
  induction es with
  | nil => simp [allSource]
  | cons e rest ih => rw [allSource, Bool.and_eq_true, ih, List.forall_mem_cons]

/-- An expression of a source was read from a place in it. -/
theorem isFrom_of_isSource {e : Expr} (h : e.isSource origin = true) : origin.isFrom e.loc = true := by
  cases e with
  | fragment => cases h
  | identifier | here => exact h
  | _ => exact (Bool.and_eq_true_iff.1 h).1

end Expr

/-- Whether a declaration is one of a source: its attributes are ordered. -/
def Declaration.isSource : Declaration → Bool
  | .externally (some attributes) => decide attributes.IsOrdered
  | _ => true

/-- Whether what a body is replayed for is that of a source. -/
def Iteration.isSource (origin : Location) : Iteration → Bool
  | .count n => n.isSource origin
  | .list element items | .characters element items => element.isSource origin && Expr.allSource origin items
  | .sequence element start stop step =>
    element.isSource origin &&
      (start.all (Expr.isSource origin) && (stop.all (Expr.isSource origin) && step.all (Expr.isSource origin)))

namespace Token

/-- Whether the parts of a statement are those of a source, bodies apart. -/
def hasSourceParts (origin : Location) : Token → Bool
  | .inclusion _ path loader => path.isSource origin && loader.all (Expr.isSource origin)
  | .radix _ value | .align _ value | .allocate _ value | .label _ value => value.isSource origin
  | .declare _ how names => how.isSource && Expr.allSource origin names
  | .assign _ _ name value => name.isSource origin && value.isSource origin
  | .retract _ _ es | .display _ _ es | .data _ _ es => Expr.allSource origin es
  | .cond _ clauses _ assembled => !assembled && clauses.all fun c => c.test.isSource origin
  | .stop _ | .exitMacro _ => true
  | .dup _ counter iteration _ => counter.all (Expr.isSource origin) && iteration.isSource origin
  | .macroDef _ name parameters _ => name.isSource origin && Expr.allSource origin parameters
  | .dispatch d => d.callee.isSource origin && Expr.allSource origin d.operands
  | .message _ | .fragment .. | .bytes .. | .immediate .. | .branch _ | .dependency .. => false

/-- Whether a token is a statement of a source, and so are those in its bodies. -/
def isSource (origin : Location) (t : Token) : Bool :=
  t.everywhere fun t => origin.isFrom t.loc && t.hasSourceParts origin

end Token

namespace Source

/-- What stands under a key of a node. -/
inductive Part where
  /-- A text. -/
  | text (s : Text)
  /-- An integer. -/
  | integer (v : Int64)
  /-- A truth value. -/
  | flag (b : Bool)
  /-- Attributes. -/
  | attributes (a : Option Attributes)
  /-- An expression. -/
  | child (e : Expr)
  /-- An expression that may be missing. -/
  | optional (e : Option Expr)
  /-- A list of expressions. -/
  | children (es : List Expr)
  /-- A list of statements. -/
  | body (ts : List Token)
  /-- The arms of an IF. -/
  | arms (cs : List Clause)
  /-- The statements of an ELSE, of which there may be none at all. -/
  | otherwise (ts : Option (List Token))

/-- Whether a part says the same when it is missing. -/
def Part.mayBeMissing : Part → Bool
  | .flag false | .attributes none | .optional none | .children [] | .body [] | .arms [] | .otherwise none => true
  | _ => false

/-- The type of a node and its parts by key. -/
structure Node where
  /-- What kind of node it is. -/
  type : Text
  /-- What stands under its keys. -/
  parts : List (Text × Part)

/-- The keys of a node. -/
def Node.keys (node : Node) : List Text := "type" :: "location" :: node.parts.map Prod.fst

/-- The node of an expression. No source has the address of a label in it. -/
def Node.ofExpr : Expr → Option Node
  | .number _ value _ => some ⟨"Number", [("value", .integer value)]⟩
  | .numeral _ digits => some ⟨"Number", [("value", .text digits)]⟩
  | .string _ value _ => some ⟨"String", [("value", .text value)]⟩
  | .identifier _ name => some ⟨"Identifier", [("name", .text name)]⟩
  | .fragment .. => none
  | .here _ => some ⟨"InstructionLocation", []⟩
  | .unary _ op value => some ⟨"UnaryOperation", [("op", .text op.name), ("value", .child value)]⟩
  | .binary _ op left right =>
    some ⟨"BinaryOperation", [("op", .text op.name), ("left", .child left), ("right", .child right)]⟩
  | .ternary _ test onTrue onFalse =>
    some ⟨"TernaryOperation", [("test", .child test), ("onTrue", .child onTrue), ("onFalse", .child onFalse)]⟩
  | .call _ name params => some ⟨"FunctionCall", [("name", .text name), ("parameters", .children params)]⟩
  | .register r => some ⟨"Register", [("name", .text r.name)]⟩
  | .condition c => some ⟨"Condition", [("name", .text c.name)]⟩
  | .absolute _ address => some ⟨"IndirectAbsolute", [("address", .child address)]⟩
  | .indirect _ base => some ⟨"IndirectRegister", [("register", .child (.register base))]⟩
  | .indexed _ base index =>
    some ⟨"IndirectRegisterIndex", [("register", .child (.register base)), ("index", .child (.register index))]⟩
  | .displaced _ base displace =>
    some ⟨"IndirectRegisterDisplace", [("register", .child (.register base)), ("displace", .child displace)]⟩
  | .offset _ base value =>
    some ⟨"IndirectRegisterOffset", [("register", .child (.register base)), ("offset", .child value)]⟩

/-- The type of a statement that binds a name. -/
def assignmentType : Assignment → Text
  | .set => "SetDirective"
  | .equate => "EquateDirective"
  | .define => "DefineDirective"

/-- The type of a statement that removes names. -/
def retractionType : Retraction → Text
  | .defines => "UndefineDirective"
  | .macros => "PurgeMacrosDirective"

/-- The type of a display statement. -/
def displayType : DisplayKind → Text
  | .message => "MessageDirective"
  | .warning => "WarningDirective"
  | .failure => "FailureDirective"

/-- The type of a data statement. -/
def dataType : DataKind → Text
  | .ascii => "AsciiBlockDirective"
  | .asciz => "TerminatedAsciiBlockDirective"
  | .bytes => "DataBytesDirective"
  | .words => "DataWordsDirective"

/-- The node of a declaration of names. -/
def Node.ofDeclaration (names : List Expr) : Declaration → Node
  | .locally => ⟨"LocalDirective", [("names", .children names)]⟩
  | .globally weak => ⟨"GlobalDirective", [("names", .children names), ("weak", .flag weak)]⟩
  | .externally attributes =>
    ⟨"ExternDirective", [("names", .children names), ("attributes", .attributes attributes)]⟩

/-- The node of a replayed body. -/
def Node.ofDup (counter : Option Expr) (body : List Token) : Iteration → Node
  | .count count =>
    ⟨"CountDupDirective", [("counter", .optional counter), ("count", .child count), ("body", .body body)]⟩
  | .list element items =>
    ⟨"ListDupDirective", [("counter", .optional counter), ("variable", .child element), ("list", .children items),
      ("body", .body body)]⟩
  | .characters element strings =>
    ⟨"CharacterDupDirective", [("counter", .optional counter), ("variable", .child element),
      ("strings", .children strings), ("body", .body body)]⟩
  | .sequence element start stop step =>
    ⟨"SequenceDupDirective", [("counter", .optional counter), ("variable", .child element),
      ("start", .optional start), ("end", .optional stop), ("step", .optional step), ("body", .body body)]⟩

/-- The node of a statement. No source has a diagnostic, output, or an IF of assembled bodies in it. -/
def Node.ofToken : Token → Option Node
  | .inclusion _ path loader => some ⟨"IncludeDirective", [("path", .child path), ("transform", .optional loader)]⟩
  | .radix _ value => some ⟨"RadixDirective", [("value", .child value)]⟩
  | .align _ value => some ⟨"AlignDirective", [("value", .child value)]⟩
  | .allocate _ size => some ⟨"DataAllocateDirective", [("size", .child size)]⟩
  | .declare _ how names => some (Node.ofDeclaration names how)
  | .assign _ how name value => some ⟨assignmentType how, [("name", .child name), ("value", .child value)]⟩
  | .label _ name => some ⟨"LabelDirective", [("name", .child name)]⟩
  | .retract _ what names => some ⟨retractionType what, [("names", .children names)]⟩
  | .cond _ clauses otherwise false =>
    some ⟨"IfDirective", [("conditions", .arms clauses), ("otherwise", .otherwise otherwise)]⟩
  | .display _ kind text => some ⟨displayType kind, [("message", .children text)]⟩
  | .data _ kind values => some ⟨dataType kind, [("data", .children values)]⟩
  | .stop _ => some ⟨"EndDirective", []⟩
  | .exitMacro _ => some ⟨"ExitMacroDirective", []⟩
  | .dup _ counter iteration body => some (Node.ofDup counter body iteration)
  | .macroDef _ name parameters body =>
    some ⟨"MacroDefinitionDirective", [("name", .child name), ("parameters", .children parameters),
      ("body", .body body)]⟩
  | .dispatch d => some ⟨"DispatchDirective", [("call", .child d.callee), ("parameters", .children d.operands)]⟩
  | .cond _ _ _ true | .message _ | .fragment .. | .bytes .. | .immediate .. | .branch _ | .dependency .. => none

/-- The values of a list that stand for something. -/
def present (items : List Json) : List Json := items.filter fun j => !j.isNull

mutual

/-- An object spells an expression. -/
inductive SpellsExpr : Json → Expr → Prop
  | node {src : Span} {members : List Member} {e : Expr} {node : Node} (hnode : Node.ofExpr e = some node)
      (h : SpellsNode node e.loc members) : SpellsExpr (.object src members) e

/-- An object spells a statement. -/
inductive SpellsToken : Json → Token → Prop
  | node {src : Span} {members : List Member} {t : Token} {node : Node} (hnode : Node.ofToken t = some node)
      (h : SpellsNode node t.loc members) : SpellsToken (.object src members) t

/-- An object spells an arm of an IF. -/
inductive SpellsArm : Json → Clause → Prop
  | arm {src : Span} {members : List Member} {c : Clause} (hkeys : HasKeys ["test", "body"] members)
      (htest : SpellsPart (Json.lookup "test" members) (.child c.test))
      (hbody : SpellsPart (Json.lookup "body" members) (.body c.body)) : SpellsArm (.object src members) c

/-- The members of an object spell a node at a location: its type, a line and a column, and its parts. -/
inductive SpellsNode : Node → Location → List Member → Prop
  | node {node : Node} {loc : Location} {members position : List Member} {src : Span}
      (hkeys : HasKeys node.keys members) (htype : Json.lookup "type" members = some (.string node.type))
      (hlocation : Json.lookup "location" members = some (.object src position))
      (hposition : position.Perm (positionOf loc.line loc.col))
      (hparts : ∀ p ∈ node.parts, SpellsPart (Json.lookup p.1 members) p.2) : SpellsNode node loc members

/-- A value, if there is one, spells a part. -/
inductive SpellsPart : Option Json → Part → Prop
  | missing {o : Option Json} {p : Part} (ho : IsMissing o) (hp : p.mayBeMissing = true) : SpellsPart o p
  | text (s : Text) : SpellsPart (some (.string s)) (.text s)
  | integer (v : Int64) : SpellsPart (some (.number (Text.ofInt64 v))) (.integer v)
  | flag (b : Bool) : SpellsPart (some (.bool b)) (.flag b)
  | attributes {src : Span} {members : List Member} {a : Attributes}
      (h : members.Perm (a.map fun p => .mk p.1 (.string p.2))) :
      SpellsPart (some (.object src members)) (.attributes (some a))
  | child {j : Json} {e : Expr} (h : SpellsExpr j e) : SpellsPart (some j) (.child e)
  | optional {j : Json} {e : Expr} (h : SpellsExpr j e) : SpellsPart (some j) (.optional (some e))
  | children {src : Span} {items : List Json} {es : List Expr} (h : List.Forall₂ SpellsExpr (present items) es) :
      SpellsPart (some (.array src items)) (.children es)
  | body {src : Span} {items : List Json} {ts : List Token} (h : List.Forall₂ SpellsToken (present items) ts) :
      SpellsPart (some (.array src items)) (.body ts)
  | arms {src : Span} {items : List Json} {cs : List Clause} (h : List.Forall₂ SpellsArm items cs) :
      SpellsPart (some (.array src items)) (.arms cs)
  | otherwise {src : Span} {items : List Json} {ts : List Token}
      (h : List.Forall₂ SpellsToken (present items) ts) :
      SpellsPart (some (.array src items)) (.otherwise (some ts))

end

/-- An array spells a program: its values other than `null` spell the statements one by one. -/
def SpellsProgram (j : Json) (ts : List Token) : Prop :=
  ∃ src items, j = .array src items ∧ List.Forall₂ SpellsToken (present items) ts

theorem SpellsExpr.isNull_eq_false {j : Json} {e : Expr} (h : SpellsExpr j e) : j.isNull = false := by
  cases h with
  | node => rfl

theorem SpellsToken.isNull_eq_false {j : Json} {t : Token} (h : SpellsToken j t) : j.isNull = false := by
  cases h with
  | node => rfl

section Existence

variable {origin : Location} {node : Node}

/-- The expressions of a part, those in bodies apart. -/
def Part.exprs : Part → List Expr
  | .child e => [e]
  | .optional e => e.toList
  | .children es => es
  | .arms cs => cs.map Clause.test
  | .text _ | .integer _ | .flag _ | .attributes _ | .body _ | .otherwise _ => []

/-- The statements of a part. -/
def Part.tokens : Part → List Token
  | .body ts => ts
  | .arms cs => cs.flatMap Clause.body
  | .otherwise ts => ts.getD []
  | .text _ | .integer _ | .flag _ | .attributes _ | .child _ | .optional _ | .children _ => []

/-- Elements that are spelled each have a list that spells them. -/
theorem exists_items {α : Type} {R : Json → α → Prop} {as : List α} (h : ∀ a ∈ as, ∃ j, R j a) :
    ∃ items, List.Forall₂ R items as := by
  induction as with
  | nil => exact ⟨[], .nil⟩
  | cons a rest ih =>
    rw [List.forall_mem_cons] at h
    obtain ⟨j, hj⟩ := h.1
    obtain ⟨items, hitems⟩ := ih h.2
    exact ⟨j :: items, .cons hj hitems⟩

/-- Elements that are spelled each, none of them as `null`, have a list whose values other than `null` spell them. -/
theorem exists_present {α : Type} {R : Json → α → Prop} (hR : ∀ j a, R j a → j.isNull = false) {as : List α}
    (h : ∀ a ∈ as, ∃ j, R j a) : ∃ items, List.Forall₂ R (present items) as := by
  obtain ⟨items, hitems⟩ := exists_items h
  have hpresent : present items = items := by
    obtain ⟨hnull, -⟩ := (List.forall₂_and_left _ _).1 (hitems.imp fun j a hspells => ⟨hR j a hspells, hspells⟩)
    exact List.filter_eq_self.2 fun j hj => congrArg not (hnull j hj)
  exact ⟨items, hpresent.symm ▸ hitems⟩

/-- Parts that are spelled each have members that spell them under their keys. -/
theorem exists_members {parts : List (Text × Part)} (hnodup : (parts.map Prod.fst).Nodup)
    (h : ∀ p ∈ parts, ∃ j, SpellsPart (some j) p.2) :
    ∃ members : List Member, members.map Member.key = parts.map Prod.fst ∧
      ∀ p ∈ parts, SpellsPart (Json.lookup p.1 members) p.2 := by
  induction parts with
  | nil => exact ⟨[], rfl, fun p hp => by cases hp⟩
  | cons p rest ih =>
    rw [List.forall_mem_cons] at h
    rw [List.map_cons, List.nodup_cons] at hnodup
    obtain ⟨j, hj⟩ := h.1
    obtain ⟨members, hkeys, hmembers⟩ := ih hnodup.2 h.2
    refine ⟨.mk p.1 j :: members, by rw [List.map_cons, hkeys]; rfl, List.forall_mem_cons.2 ⟨?_, fun q hq => ?_⟩⟩
    · rw [Json.lookup_cons, Json.lookup_eq_none (hkeys ▸ hnodup.1)]
      simpa [Member.key, Member.value] using hj
    · have hne : (Member.mk p.1 j).key ≠ q.1 :=
        fun heq => hnodup.1 (List.mem_map.2 ⟨q, hq, heq.symm⟩)
      rw [Json.lookup_cons_of_ne hne]
      exact hmembers q hq

/-- A node is spelled if its parts are. -/
theorem exists_spellsNode (loc : Location) (hkeys : node.keys.Nodup)
    (hparts : ∀ p ∈ node.parts, ∃ j, SpellsPart (some j) p.2) : ∃ members, SpellsNode node loc members := by
  have hnodup := hkeys
  rw [Node.keys, List.nodup_cons, List.nodup_cons, List.mem_cons, not_or] at hnodup
  obtain ⟨⟨hne, htype⟩, hlocation, hnodup⟩ := hnodup
  obtain ⟨members, hmembers, hspells⟩ := exists_members hnodup hparts
  let all : List Member := .mk "type" (.string node.type) ::
    .mk "location" (.object Span.none (positionOf loc.line loc.col)) :: members
  have hall : all.map Member.key = node.keys := by
    simp [all, Node.keys, Member.key, hmembers]
  have hdistinct : (all.map Member.key).Nodup := hall ▸ hkeys
  have hlookupType : Json.lookup "type" all = some (.string node.type) :=
    (Json.lookup_eq_some_iff hdistinct).2 List.mem_cons_self
  have hlookupLocation : Json.lookup "location" all =
      some (.object Span.none (positionOf loc.line loc.col)) :=
    (Json.lookup_eq_some_iff hdistinct).2 (List.mem_cons_of_mem _ List.mem_cons_self)
  refine ⟨all, .node ⟨hdistinct, fun m hm => hall ▸ List.mem_map_of_mem hm⟩ hlookupType hlookupLocation (.refl _) ?_⟩
  intro p hp
  have hne1 : (Member.mk "type" (.string node.type)).key ≠ p.1 :=
    fun heq => htype (List.mem_map.2 ⟨p, hp, heq.symm⟩)
  have hne2 : (Member.mk "location" (.object Span.none (positionOf loc.line loc.col))).key ≠ p.1 :=
    fun heq => hlocation (List.mem_map.2 ⟨p, hp, heq.symm⟩)
  rw [Json.lookup_cons_of_ne hne1, Json.lookup_cons_of_ne hne2]
  exact hspells p hp

/-- A part is spelled if the expressions and the statements in it are. -/
theorem exists_spellsPart (p : Part) (hexprs : ∀ e ∈ p.exprs, ∃ j, SpellsExpr j e)
    (htokens : ∀ t ∈ p.tokens, ∃ j, SpellsToken j t) : ∃ j, SpellsPart (some j) p := by
  have hnull : IsMissing (some .null) := fun j hj => by cases hj; rfl
  cases p with
  | text s => exact ⟨_, .text s⟩
  | integer v => exact ⟨_, .integer v⟩
  | flag b => exact ⟨_, .flag b⟩
  | attributes a =>
    cases a with
    | none => exact ⟨.null, .missing hnull rfl⟩
    | some a => exact ⟨.object Span.none _, .attributes (.refl _)⟩
  | child e =>
    obtain ⟨j, hj⟩ := hexprs e (List.mem_singleton_self _)
    exact ⟨j, .child hj⟩
  | optional e =>
    cases e with
    | none => exact ⟨.null, .missing hnull rfl⟩
    | some e =>
      obtain ⟨j, hj⟩ := hexprs e (List.mem_singleton_self _)
      exact ⟨j, .optional hj⟩
  | children es =>
    obtain ⟨items, hitems⟩ := exists_present (fun _ _ h => h.isNull_eq_false) hexprs
    exact ⟨.array Span.none items, .children hitems⟩
  | body ts =>
    obtain ⟨items, hitems⟩ := exists_present (fun _ _ h => h.isNull_eq_false) htokens
    exact ⟨.array Span.none items, .body hitems⟩
  | arms cs =>
    have harms : ∀ c ∈ cs, ∃ j, SpellsArm j c := by
      intro c hc
      obtain ⟨test, htest⟩ := hexprs c.test (List.mem_map_of_mem hc)
      obtain ⟨items, hitems⟩ := exists_present (fun _ _ h => SpellsToken.isNull_eq_false h)
        fun t ht => htokens t (List.mem_flatMap.2 ⟨c, hc, ht⟩)
      refine ⟨.object Span.none [.mk "test" test, .mk "body" (.array Span.none items)], .arm ⟨?_, ?_⟩ ?_ ?_⟩
      · exact (by decide : List.Nodup [("test" : Text), "body"])
      · simp [Member.key]
      · exact .child htest
      · exact .body hitems
    obtain ⟨items, hitems⟩ := exists_items harms
    exact ⟨.array Span.none items, .arms hitems⟩
  | otherwise ts =>
    cases ts with
    | none => exact ⟨.null, .missing hnull rfl⟩
    | some ts =>
      obtain ⟨items, hitems⟩ := exists_present (fun _ _ h => h.isNull_eq_false) htokens
      exact ⟨.array Span.none items, .otherwise hitems⟩

/-- The expressions in the node of an expression are smaller, and those of a source if it is. -/
theorem exprs_ofExpr {e : Expr} (h : Node.ofExpr e = some node) (he : e.isSource origin = true) :
    ∀ p ∈ node.parts, p.2.tokens = [] ∧ ∀ e' ∈ p.2.exprs, sizeOf e' < sizeOf e ∧ e'.isSource origin = true := by
  -- a register is smaller than what it stands in only because of its location
  have hloc : ∀ loc : Location, 0 < sizeOf loc := by
    rintro ⟨⟩
    simp only [Location.mk.sizeOf_spec]
    omega
  cases e with
  | fragment => cases h
  | number | numeral | string | identifier | here | register | condition =>
    cases h
    simp [Part.exprs, Part.tokens]
  | call loc name params =>
    cases h
    obtain ⟨-, hparams⟩ := Bool.and_eq_true_iff.1 he
    have hlt : ∀ e' ∈ params, sizeOf e' < 1 + sizeOf loc + sizeOf name + sizeOf params := by
      intro e' he'
      have hsize := List.sizeOf_lt_of_mem he'
      omega
    simpa [Part.exprs, Part.tokens] using fun e' he' => ⟨hlt e' he', Expr.allSource_iff.1 hparams e' he'⟩
  | unary | absolute =>
    cases h
    simp only [Expr.isSource, Bool.and_eq_true] at he
    simp [Part.exprs, Part.tokens, he]
  | binary loc | ternary loc | indirect loc | indexed loc | displaced loc | offset loc =>
    cases h
    have hpos := hloc loc
    simp only [Expr.isSource, Bool.and_eq_true] at he
    simp [Part.exprs, Part.tokens, he, Expr.isSource]
    omega

/-- The keys of the node of an expression are distinct. -/
theorem nodup_keys_ofExpr {e : Expr} (h : Node.ofExpr e = some node) : node.keys.Nodup := by
  cases e with
  | fragment => cases h
  | _ =>
    cases h
    simp only [Node.keys, List.map_cons, List.map_nil]
    decide

/-- An expression of a source is spelled. -/
theorem exists_spellsExpr {e : Expr} (he : e.isSource origin = true) : ∃ j, SpellsExpr j e := by
  induction hsize : sizeOf e using Nat.strongRecOn generalizing e with
  | ind n ih =>
    subst hsize
    cases hnode : Node.ofExpr e with
    | none =>
      cases e with
      | fragment => cases he
      | _ => cases hnode
    | some node =>
      have hparts : ∀ p ∈ node.parts, ∃ j, SpellsPart (some j) p.2 := by
        intro p hp
        obtain ⟨htokens, hexprs⟩ := exprs_ofExpr hnode he p hp
        refine exists_spellsPart p.2 (fun e' he' => ?_) fun t ht => by rw [htokens] at ht; cases ht
        exact ih _ (hexprs e' he').1 (hexprs e' he').2 rfl
      obtain ⟨members, hmembers⟩ := exists_spellsNode e.loc (nodup_keys_ofExpr hnode) hparts
      exact ⟨.object Span.none members, .node hnode hmembers⟩

/-- The expressions in the node of a statement of a source are those of a source. -/
theorem exprs_ofToken {t : Token} (h : Node.ofToken t = some node) (ht : t.hasSourceParts origin = true) :
    ∀ p ∈ node.parts, ∀ e ∈ p.2.exprs, e.isSource origin = true := by
  cases t with
  | declare loc how names =>
    obtain ⟨-, hnames⟩ := Bool.and_eq_true_iff.1 ht
    cases how <;> (cases h; simpa [Node.ofDeclaration, Part.exprs] using Expr.allSource_iff.1 hnames)
  | dup loc counter iteration body =>
    cases iteration <;>
      (cases h
       simp only [Token.hasSourceParts, Iteration.isSource, Bool.and_eq_true, Option.all_eq_true,
         Expr.allSource_iff] at ht
       simpa [Node.ofDup, Part.exprs] using ht)
  | cond loc clauses otherwise assembled =>
    cases assembled with
    | true => cases h
    | false =>
      cases h
      simpa [Token.hasSourceParts, Part.exprs] using ht
  | message | fragment | bytes | immediate | branch | dependency => cases h
  | stop | exitMacro =>
    cases h
    simp
  | _ =>
    cases h
    simp only [Token.hasSourceParts, Bool.and_eq_true, Option.all_eq_true, Expr.allSource_iff] at ht
    simpa [Part.exprs] using ht

/-- The statements in the node of a statement are those of its bodies. -/
theorem tokens_ofToken {t : Token} (h : Node.ofToken t = some node) :
    ∀ p ∈ node.parts, ∀ t' ∈ p.2.tokens, ∃ body ∈ t.nested, t' ∈ body := by
  cases t with
  | declare loc how names => cases how <;> (cases h; simp [Node.ofDeclaration, Part.tokens])
  | dup loc counter iteration body =>
    cases iteration <;> (cases h; simp [Node.ofDup, Part.tokens, Token.nested])
  | cond loc clauses otherwise assembled =>
    cases assembled with
    | true => cases h
    | false =>
      cases h
      refine List.forall_mem_cons.2 ⟨fun t' ht' => ?_, List.forall_mem_singleton.2 fun t' ht' => ?_⟩
      · obtain ⟨c, hc, ht'⟩ := List.mem_flatMap.1 ht'
        exact ⟨c.body, List.mem_append_left _ (List.mem_map_of_mem hc), ht'⟩
      · cases otherwise with
        | none => cases ht'
        | some body => exact ⟨body, List.mem_append_right _ (List.mem_singleton_self _), ht'⟩
  | message | fragment | bytes | immediate | branch | dependency => cases h
  | _ =>
    cases h
    simp [Part.tokens, Token.nested]

/-- The keys of the node of a statement are distinct. -/
theorem nodup_keys_ofToken {t : Token} (h : Node.ofToken t = some node) : node.keys.Nodup := by
  cases t with
  | declare loc how names =>
    cases how <;>
      (cases h
       simp only [Node.keys, Node.ofDeclaration, List.map_cons, List.map_nil]
       decide)
  | dup loc counter iteration body =>
    cases iteration <;>
      (cases h
       simp only [Node.keys, Node.ofDup, List.map_cons, List.map_nil]
       decide)
  | cond loc clauses otherwise assembled =>
    cases assembled with
    | true => cases h
    | false =>
      cases h
      simp only [Node.keys, List.map_cons, List.map_nil]
      decide
  | message | fragment | bytes | immediate | branch | dependency => cases h
  | _ =>
    cases h
    simp only [Node.keys, List.map_cons, List.map_nil]
    decide

/-- A statement of a source is spelled. -/
theorem exists_spellsToken {t : Token} (ht : t.isSource origin = true) : ∃ j, SpellsToken j t := by
  induction t using Token.nested_induction with
  | h t ih =>
    obtain ⟨hnodeSource, hnested⟩ := Token.everywhere_iff.1 ht
    obtain ⟨-, hsource⟩ := Bool.and_eq_true_iff.1 hnodeSource
    cases hnode : Node.ofToken t with
    | none =>
      cases t with
      | cond _ _ _ assembled =>
        cases assembled with
        | true => cases hsource
        | false => cases hnode
      | message | fragment | bytes | immediate | branch | dependency => cases hsource
      | _ => cases hnode
    | some node =>
      have hparts : ∀ p ∈ node.parts, ∃ j, SpellsPart (some j) p.2 := by
        intro p hp
        refine exists_spellsPart p.2 (fun e he => exists_spellsExpr (exprs_ofToken hnode hsource p hp e he)) ?_
        intro t' ht'
        obtain ⟨body, hbody, ht'⟩ := tokens_ofToken hnode p hp t' ht'
        exact ih body hbody t' ht' (hnested body hbody t' ht')
      obtain ⟨members, hmembers⟩ := exists_spellsNode t.loc (nodup_keys_ofToken hnode) hparts
      exact ⟨.object Span.none members, .node hnode hmembers⟩

/-- A program of statements of a source is spelled. -/
theorem exists_spellsProgram {ts : List Token} (hts : ∀ t ∈ ts, t.isSource origin = true) :
    ∃ j, SpellsProgram j ts := by
  obtain ⟨items, hitems⟩ := exists_present (fun _ _ h => h.isNull_eq_false) fun t ht => exists_spellsToken (hts t ht)
  exact ⟨.array Span.none items, Span.none, items, rfl, hitems⟩

end Existence

end Source

end MacroAsm
