import MacroAsm.Expr.Basic

/-!
# Tokens

A token is a statement of the source, a piece of output, or a diagnostic. Statements turn into output
step by step, and what cannot be finished yet travels on, so one type covers them all.
-/

namespace MacroAsm

/-- The attributes of an external name, ordered by key, each key once. -/
abbrev Attributes := List (Text × Text)

namespace Attributes

/-- Enters an attribute in order of keys, replacing an earlier value. -/
def insert (key value : Text) : Attributes → Attributes
  | [] => [(key, value)]
  | (k, v) :: rest =>
    if k == key then (key, value) :: rest
    else if Text.blt key k then (key, value) :: (k, v) :: rest
    else (k, v) :: insert key value rest

/-- Enters attributes up to the first that contradicts one that is there, of which the key and the
value that is there are given. -/
def merge (attributes : Attributes) : Attributes → Attributes × Option (Text × Text)
  | [] => (attributes, none)
  | (key, value) :: rest =>
    match attributes.lookup key with
    | none => merge (insert key value attributes) rest
    | some found => if found == value then merge attributes rest else (attributes, some (key, found))

end Attributes

/-- How the text of a display statement surfaces. -/
inductive DisplayKind where
  /-- MSG. -/
  | message
  /-- WARN. -/
  | warning
  /-- FAIL. -/
  | failure
deriving DecidableEq, Inhabited, Repr

/-- How the elements of a data statement are encoded. -/
inductive DataKind where
  /-- The bytes of each string. -/
  | ascii
  /-- The bytes of each string and a zero. -/
  | asciz
  /-- One byte for each number. -/
  | bytes
  /-- Two bytes for each number, the low one first. -/
  | words
deriving DecidableEq, Inhabited, Repr

/-- The word of a data statement. -/
def DataKind.name : DataKind → Text
  | .ascii => "ASCII"
  | .asciz => "ASCIZ"
  | .bytes => "DB"
  | .words => "DW"

/-- The statements that bind a name to a value. -/
inductive Assignment where
  /-- SET: may bind again, unless the name is frozen. -/
  | set
  /-- EQU: binds once. -/
  | equate
  /-- DEFINE: binds a name that does not exist, for the whole program. -/
  | define
deriving DecidableEq, Inhabited, Repr

/-- The statements that declare names. -/
inductive Declaration where
  /-- LOCAL: in the innermost frame. -/
  | locally
  /-- GLOBAL: in the root frame. A weak name may be overridden at link time. -/
  | globally (weak : Bool)
  /-- EXTERN: in the root frame, for names defined elsewhere. -/
  | externally (attributes : Option Attributes)
deriving DecidableEq, Inhabited, Repr

/-- The statements that remove names. -/
inductive Retraction where
  /-- UNDEF: names bound by DEFINE. -/
  | defines
  /-- PMACRO: macros. -/
  | macros
deriving DecidableEq, Inhabited, Repr

/-- What the body of a DUP is replayed for. -/
inductive Iteration where
  /-- DUP: a number of times. -/
  | count (count : Expr)
  /-- DUPA: each element of a list. -/
  | list (element : Expr) (items : List Expr)
  /-- DUPC: each character of each string of a list. -/
  | characters (element : Expr) (strings : List Expr)
  /-- DUPF: the numbers from a start to an end by a step. -/
  | sequence (element : Expr) (start stop step : Option Expr)
deriving Inhabited, Repr

/-- A statement that names an instruction or a macro. -/
structure Dispatch where
  /-- Where it was read. -/
  loc : Location
  /-- The expression that spells the name. -/
  callee : Expr
  /-- The operands or arguments. -/
  operands : List Expr
deriving Inhabited, Repr

/-- A relative jump or call whose width the linker selects. -/
structure Branch where
  /-- Where it was read. -/
  loc : Location
  /-- Whether it is a call rather than a jump. -/
  isCall : Bool
  /-- Whether the mnemonic asks for the long form. -/
  long : Bool
  /-- The condition it is taken under, if any. -/
  condition : Option Condition
  /-- Where it goes. -/
  target : Expr
deriving Inhabited, Repr

mutual

/-- A statement, a piece of output, or a diagnostic. -/
inductive Token where
  /-- A diagnostic. -/
  | message (d : Diagnostic)
  /-- The place a label stands for. -/
  | fragment (loc : Location) (id label : Text)
  /-- INCLUDE. -/
  | inclusion (loc : Location) (path : Expr) (loader : Option Expr)
  /-- RADIX. -/
  | radix (loc : Location) (value : Expr)
  /-- ALIGN, carried out by the linker. -/
  | align (loc : Location) (value : Expr)
  /-- DS: space to reserve. -/
  | allocate (loc : Location) (size : Expr)
  /-- LOCAL, GLOBAL and EXTERN. -/
  | declare (loc : Location) (how : Declaration) (names : List Expr)
  /-- SET, EQU and DEFINE. -/
  | assign (loc : Location) (how : Assignment) (name value : Expr)
  /-- A label. -/
  | label (loc : Location) (name : Expr)
  /-- UNDEF and PMACRO. -/
  | retract (loc : Location) (what : Retraction) (names : List Expr)
  /-- IF. `assembled` tells that the bodies are output already. -/
  | cond (loc : Location) (clauses : List Clause) (otherwise : Option (List Token))
    (assembled : Bool)
  /-- MSG, WARN and FAIL. -/
  | display (loc : Location) (kind : DisplayKind) (text : List Expr)
  /-- ASCII, ASCIZ, DB and DW. -/
  | data (loc : Location) (kind : DataKind) (values : List Expr)
  /-- END. -/
  | stop (loc : Location)
  /-- EXITM. -/
  | exitMacro (loc : Location)
  /-- DUP, DUPA, DUPC and DUPF. `counter` names the number of the iteration. -/
  | dup (loc : Location) (counter : Option Expr) (iteration : Iteration) (body : List Token)
  /-- The definition of a macro. -/
  | macroDef (loc : Location) (name : Expr) (parameters : List Expr) (body : List Token)
  /-- An instruction or a macro call. -/
  | dispatch (d : Dispatch)
  /-- Assembled bytes. -/
  | bytes (loc : Location) (data : List UInt8)
  /-- An operand left to the linker. -/
  | immediate (loc : Location) (value : Expr) (size : Nat) (signed : Bool)
  /-- A jump or call left to the linker. -/
  | branch (b : Branch)
  /-- A file the output depends on. -/
  | dependency (loc : Location) (filename : Text)

/-- One arm of an IF: a test and what it guards. -/
inductive Clause where
  /-- The arm of a test. -/
  | mk (test : Expr) (body : List Token)

end

instance : Inhabited Token := ⟨.stop Location.none⟩

instance : Inhabited Clause := ⟨.mk default []⟩

namespace Clause

/-- The test of an arm. -/
def test : Clause → Expr
  | .mk test _ => test

/-- What an arm guards. -/
def body : Clause → List Token
  | .mk _ body => body

end Clause

namespace Token

/-- Where a token was read. -/
def loc : Token → Location
  | .message d => d.loc
  | .fragment l _ _ => l
  | .inclusion l _ _ => l
  | .radix l _ => l
  | .align l _ => l
  | .allocate l _ => l
  | .declare l _ _ => l
  | .assign l _ _ _ => l
  | .label l _ => l
  | .retract l _ _ => l
  | .cond l _ _ _ => l
  | .display l _ _ => l
  | .data l _ _ => l
  | .stop l => l
  | .exitMacro l => l
  | .dup l _ _ _ => l
  | .macroDef l _ _ _ => l
  | .dispatch d => d.loc
  | .bytes l _ => l
  | .immediate l _ _ _ => l
  | .branch b => b.loc
  | .dependency l _ => l

/-- Whether a token is a diagnostic. -/
def isMessage : Token → Bool
  | .message _ => true
  | _ => false

/-- Whether a token is a diagnostic that ends the run. -/
def isFatal : Token → Bool
  | .message d => d.isFatal
  | _ => false

mutual

/-- Whether the expressions of a piece of output hold no name that is waiting to be bound. -/
def isResolved : Token → Bool
  | .immediate _ value _ _ => value.isResolved
  | .branch b => b.target.isResolved
  | .data _ _ values => Expr.allResolved values
  | .display _ _ text => Expr.allResolved text
  | .allocate _ size => size.isResolved
  | .align _ value => value.isResolved
  | .dispatch d => Expr.allResolved d.operands
  | .cond _ clauses otherwise _ => clausesResolved clauses && optionResolved otherwise
  | _ => true

/-- Whether every token of a list is resolved. -/
def allResolved : List Token → Bool
  | [] => true
  | t :: rest => isResolved t && allResolved rest

/-- Whether the tests and the bodies of a list of arms are resolved. -/
def clausesResolved : List Clause → Bool
  | [] => true
  | .mk test body :: rest => test.isResolved && allResolved body && clausesResolved rest

/-- Whether the tokens of an optional body are resolved. -/
def optionResolved : Option (List Token) → Bool
  | none => true
  | some body => allResolved body

end

end Token

/-- A macro: its parameters and its body. Two definitions are told apart by their identity, even if
they are spelled the same. -/
structure Macro where
  /-- The identity of the definition. -/
  id : Nat
  /-- Where it was defined. -/
  loc : Location
  /-- The names of the parameters. -/
  parameters : List Text
  /-- What a call stands for. -/
  body : List Token
deriving Inhabited

end MacroAsm
