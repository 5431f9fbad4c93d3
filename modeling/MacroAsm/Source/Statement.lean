import MacroAsm.Json.Parser
import MacroAsm.Source.Expression
import MacroAsm.Text.Blank

/-!
# Reading statements

The statements of a syntax tree. A program is a list of them, or a list of alternative parses, of
which the first counts.
-/

namespace MacroAsm

namespace Source

/-- The types of statement nodes. -/
inductive StatementType where
  | label | dispatch | align | radix | allocate | assign (how : Assignment)
  | retract (what : Retraction) | locally | globally | externally | display (kind : DisplayKind)
  | data (kind : DataKind) | inclusion | stop | exitMacro | countDup | listDup | characterDup
  | sequenceDup | macroDef | cond | linker (word : Text)

/-- The name of each type of statement node. -/
def statementTypes : List (Text × StatementType) :=
  [("LabelDirective", .label), ("DispatchDirective", .dispatch), ("AlignDirective", .align),
   ("RadixDirective", .radix), ("DataAllocateDirective", .allocate),
   ("DefineDirective", .assign .define), ("EquateDirective", .assign .equate),
   ("SetDirective", .assign .set), ("UndefineDirective", .retract .defines),
   ("LocalDirective", .locally), ("PurgeMacrosDirective", .retract .macros),
   ("GlobalDirective", .globally), ("ExternDirective", .externally),
   ("MessageDirective", .display .message), ("WarningDirective", .display .warning),
   ("FailureDirective", .display .failure), ("AsciiBlockDirective", .data .ascii),
   ("TerminatedAsciiBlockDirective", .data .asciz), ("DataBytesDirective", .data .bytes),
   ("DataWordsDirective", .data .words), ("IncludeDirective", .inclusion),
   ("EndDirective", .stop), ("ExitMacroDirective", .exitMacro), ("CountDupDirective", .countDup),
   ("ListDupDirective", .listDup), ("CharacterDupDirective", .characterDup),
   ("SequenceDupDirective", .sequenceDup), ("MacroDefinitionDirective", .macroDef),
   ("IfDirective", .cond), ("SectionDirective", .linker "Section"),
   ("DefineSectionDirective", .linker "DefineSection"), ("NameDirective", .linker "Name")]

/-- An arm of an IF while its members are read. -/
structure ArmNode where
  /-- The test, if there is one. -/
  test : Option Json
  /-- The statements it guards. -/
  body : List Json

/-- An IF while its members are read. A second list of arms is read over the first, arm by arm, and
`slots` keeps every arm read so far, of which the first `count` stand. -/
structure IfNode where
  /-- The arms read so far. -/
  slots : List ArmNode
  /-- The number of arms of the last list. -/
  count : Nat
  /-- The statements of the ELSE, if there is one. -/
  otherwise : Option (List Json)

/-- The failure of an IF whose arms have the wrong JSON type. -/
def mistypedIf {α : Type} (expected : Text) : Except SourceError α :=
  .error (.malformed none ("cannot read the value as " ++ expected))

/-- Reads one member of an arm over what was read of it before. -/
def readArmMember (arm : ArmNode) (m : Member) : Except SourceError ArmNode :=
  let key := foldKey m.key
  if key == "test" then .ok { arm with test := some m.value }
  else if key == "body" then
    match m.value with
    | .null => .ok { arm with body := [] }
    | .array _ items => .ok { arm with body := items }
    | _ => mistypedIf "a list of statements"
  else .ok arm

/-- Reads an arm over what was read of it before; `null` changes nothing. -/
def readArm (arm : ArmNode) : Json → Except SourceError ArmNode
  | .null => .ok arm
  | .object _ members => members.foldlM readArmMember arm
  | _ => mistypedIf "an arm"

/-- Reads a list of arms over the arms read before. -/
def readArms : List ArmNode → List Json → Except SourceError (List ArmNode)
  | slots, [] => .ok slots
  | [], j :: rest => do
    let arm ← readArm ⟨none, []⟩ j
    return arm :: (← readArms [] rest)
  | slot :: slots, j :: rest => do
    let arm ← readArm slot j
    return arm :: (← readArms slots rest)

/-- Reads one member of an IF. Keys are matched without regard to case. -/
def readIfMember (node : IfNode) (m : Member) : Except SourceError IfNode :=
  let key := foldKey m.key
  if key == "conditions" then
    match m.value with
    | .null | .array _ [] => .ok { node with slots := [], count := 0 }
    | .array _ items => do
      return { node with slots := ← readArms node.slots items, count := items.length }
    | _ => mistypedIf "a list of arms"
  else if key == "otherwise" then
    match m.value with
    | .null => .ok { node with otherwise := none }
    | .array _ items => .ok { node with otherwise := some items }
    | _ => mistypedIf "a list of statements"
  else .ok node

/-- The members of a node in the order of their keys, the last one of each key. -/
def orderedMembers (node : List Member) : List Member :=
  let keep := node.foldr (fun m (acc : List Member) =>
    if acc.any (·.key == m.key) then acc else m :: acc) []
  keep.mergeSort fun a b => Text.ble a.key b.key

/-- Reads the members of an IF in the order of their keys. -/
def readIf (node : List Member) : Except SourceError IfNode :=
  (orderedMembers node).foldlM readIfMember ⟨[], 0, none⟩

/-- Reads a statement. The nesting of the tree bounds the fuel that is needed. -/
def readToken : Nat → Setting → Json → Except SourceError Token
  | 0, _, _ => mistyped "statement" "a node"
  | fuel + 1, s, .object _ node => do
    let type ← typeOf node
    let loc ← locationOf s.origin node
    let optional (key : Text) : Except SourceError (Option Expr) :=
      match Json.lookup key node with
      | none => .ok none
      | some j => readExpr s fuel j
    let child (key : Text) : Except SourceError Expr := do
      match ← optional key with
      | some e => return e
      | none => .error (.missing type key)
    let children (key : Text) : Except SourceError (List Expr) := do
      readExprs s fuel (← listField key node)
    let statements (s : Setting) (items : List Json) : Except SourceError (List Token) :=
      (items.filter fun j => !j.isNull).mapM (readToken fuel s)
    let body (key : Text) : Except SourceError (List Token) := do
      statements s (← listField key node)
    match statementTypes.lookup type with
    | none => .error (.unknownDirective loc type)
    | some .label => return .label loc (← child "name")
    | some .dispatch => do
      let callee ← child "call"
      let operands ← children "parameters"
      return .dispatch ⟨loc, callee, operands⟩
    | some .align => return .align loc (← child "value")
    | some .radix => return .radix loc (← child "value")
    | some .allocate => return .allocate loc (← child "size")
    | some (.assign how) => do
      let name ← child "name"
      let value ← child "value"
      return .assign loc how name value
    | some (.retract what) => return .retract loc what (← children "names")
    | some .locally => return .declare loc .locally (← children "names")
    | some .globally => do
      let names ← children "names"
      let weak ← boolField "weak" node
      return .declare loc (.globally weak) names
    | some .externally => do
      let names ← children "names"
      let attributes ← attributesField "attributes" node
      return .declare loc (.externally attributes) names
    | some (.display kind) => return .display loc kind (← children "message")
    | some (.data kind) => return .data loc kind (← children "data")
    | some .inclusion => do
      let path ← child "path"
      let loader ← optional "transform"
      return .inclusion loc path loader
    | some .stop => return .stop loc
    | some .exitMacro => return .exitMacro loc
    | some .countDup => do
      let counter ← optional "counter"
      let count ← child "count"
      return .dup loc counter (.count count) (← body "body")
    | some .listDup => do
      let counter ← optional "counter"
      let element ← child "variable"
      let items ← children "list"
      return .dup loc counter (.list element items) (← body "body")
    | some .characterDup => do
      let counter ← optional "counter"
      let element ← child "variable"
      let strings ← children "strings"
      return .dup loc counter (.characters element strings) (← body "body")
    | some .sequenceDup => do
      let counter ← optional "counter"
      let element ← child "variable"
      let start ← optional "start"
      let stop ← optional "end"
      let step ← optional "step"
      return .dup loc counter (.sequence element start stop step) (← body "body")
    | some .macroDef => do
      let name ← child "name"
      let parameters ← children "parameters"
      return .macroDef loc name parameters (← body "body")
    | some .cond => do
      let tree ← readIf node
      let inner : Setting := { s with tidy := true }
      let clauses ← (tree.slots.take tree.count).mapM fun arm => do
        match ← readExpr inner fuel (arm.test.getD .null) with
        | none => .error (.missingTest loc)
        | some test => return Clause.mk test (← statements inner arm.body)
      let otherwise ← tree.otherwise.mapM (statements inner)
      return .cond loc clauses otherwise false
    | some (.linker word) =>
      return .message (.warn loc (word ++ " is handled by the linker and was skipped"))
  | _ + 1, _, _ => mistyped "statement" "a node"

/-- Reads the statements of a list, passing over `null`. -/
def readTokens (s : Setting) (items : List Json) : Except SourceError (List Token) :=
  (items.filter fun j => !j.isNull).mapM fun j => readToken (j.depth + 1) s j

/-- Reads a program: the list of its statements, or a list of parses that begins with it. -/
def readProgram (origin : Location) : Json → Except SourceError (List Token)
  | .null => .ok []
  | .array _ (.array _ items :: _) => readTokens ⟨origin, false⟩ items
  | .array _ items => readTokens ⟨origin, false⟩ items
  | _ => mistyped "statement list" "a list"

/-- Reads the text of a program. -/
def parseProgram (origin : Location) (text : Text) : Except SourceError (List Token) :=
  match Json.parse text.trim with
  | .ok j => readProgram origin j
  | .error e => .error (.malformed (some "statement list") e.message)

end Source

end MacroAsm
