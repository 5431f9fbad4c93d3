import MacroAsm.Location
import MacroAsm.Text.Quote

/-!
# Diagnostics

A diagnostic is a text of some severity about a location. Operations that fail name a `Cause`
instead, and the wording of every cause stands in `Cause.message`; a cause becomes a diagnostic once
the location of the statement at fault is known (`Failure.toDiagnostic`).
-/

namespace MacroAsm

/-- The severity of a diagnostic. -/
inductive Level where
  /-- Ends the whole run. -/
  | fatal
  /-- Fails the run, which goes on to find more. -/
  | fail
  /-- Does not fail the run. -/
  | warn
  /-- What the program being assembled asked to be shown. -/
  | info
  /-- A level without a name, less severe than any other. -/
  | other (code : Nat)
deriving DecidableEq, Inhabited, Repr

namespace Level

/-- The level of a severity code, the most severe being zero. -/
def ofCode : Nat → Level
  | 0 => .fatal
  | 1 => .fail
  | 2 => .warn
  | 3 => .info
  | n => .other n

/-- The word printed in front of a diagnostic. -/
def name : Level → Text
  | .fatal => "Fatal"
  | .fail => "Error"
  | .warn => "Warning"
  | .info => "Message"
  | .other n => "Level(" ++ Text.ofNat n ++ ")"

end Level

/-- How many arguments a function takes. -/
inductive Arity where
  /-- So many, exactly. -/
  | exactly (n : Nat)
  /-- So many or more. -/
  | atLeast (n : Nat)
  /-- Any number between two bounds. -/
  | between (low high : Nat)
deriving DecidableEq, Inhabited, Repr

namespace Arity

/-- Whether a number of arguments is accepted. -/
def accepts : Arity → Nat → Bool
  | .exactly n, found => found == n
  | .atLeast n, found => n ≤ found
  | .between low high, found => low ≤ found && found ≤ high

/-- How the accepted numbers are worded. -/
def render : Arity → Text
  | .exactly n => Text.ofNat n
  | .atLeast n => "at least " ++ Text.ofNat n
  | .between low high => Text.ofNat low ++ " to " ++ Text.ofNat high

end Arity

/-- Why an operation failed. -/
inductive Cause where
  /-- An expression of one kind stands where another is required. -/
  | coercion (kind target : Text)
  /-- A name would be local and global at once; `global` tells which it already is. -/
  | conflict (name : Text) (global : Bool)
  /-- Only one arm of an undecided condition defines a name; `onTrue` tells which. -/
  | unbalanced (name : Text) (onTrue : Bool)
  /-- No instruction has this mnemonic. -/
  | illegalInstruction (mnemonic : Text) (suggestions : List Text)
  /-- No form of a known mnemonic takes these operands. -/
  | illegalOperands
  /-- An expression that must be resolved is not. -/
  | unresolved (found : Text)
  /-- Something other than a name stands where a name is required. -/
  | notName (found : Text)
  /-- A numeral has digits outside of the radix, or a value out of range. -/
  | numeral (digits : Text) (radix : Nat)
  /-- The name of a macro stands in an expression. -/
  | macroValue (name : Text)
  /-- The operand of the caret is not a name. -/
  | caretOperand (found : Text)
  /-- An operand of a name-building operator is not a name. -/
  | concatOperand (operator side found : Text)
  /-- A shift by a negative count. -/
  | negativeShift (count : Int64)
  /-- A division or remainder by zero. -/
  | divisionByZero
  /-- A call of a function that does not exist. -/
  | unknownFunction (name : Text)
  /-- A call with a wrong number of arguments. -/
  | arity (function : Text) (expected : Arity) (found : Nat)
  /-- A call of a function of one number with a wrong number of arguments. -/
  | oneArgument (found : Nat)
  /-- An index outside of the arguments of the macro call. -/
  | argumentBounds (index : Int64)
  /-- A radix outside of 2 to 36. -/
  | radixRange (radix : Int64)
  /-- Scopes of different depths cannot be merged. -/
  | depthMismatch (onTrue onFalse here : Nat)
  /-- The arms of an undecided condition bind a name to different macros. -/
  | undecidedMacro (name : Text)
  /-- A DEFINE of a name that exists. -/
  | alreadyDeclared (name : Text)
  /-- The path of an INCLUDE is not known. -/
  | includePath (found : Text)
  /-- A file that the view of the files does not hold yet. -/
  | unread (path : Text)
  /-- A failure outside of the language, with its own wording. -/
  | other (text : Text)
deriving DecidableEq, Inhabited, Repr

namespace Cause

/-- The wording of a cause. -/
def message : Cause → Text
  | .coercion kind target => "cannot coerce " ++ kind ++ " to " ++ target
  | .conflict name true => "global " ++ name ++ " is already defined"
  | .conflict name false => "local of name " ++ name ++ " already exists"
  | .unbalanced name onTrue =>
    "unbalanced definition of " ++ name ++ ": only defined when the condition is " ++
      (if onTrue then "true" else "false")
  | .illegalInstruction mnemonic [] => "illegal instruction " ++ mnemonic
  | .illegalInstruction mnemonic suggestions =>
    "illegal instruction " ++ mnemonic ++ " (did you mean " ++
      Text.join ", " suggestions ++ "?)"
  | .illegalOperands => "illegal instruction"
  | .unresolved found => "cannot resolve " ++ found
  | .notName found => "expected a name, found " ++ found
  | .numeral digits radix =>
    "invalid numeral " ++ digits.quote ++ " in radix " ++ Text.ofNat radix
  | .macroValue name => "macro " ++ name ++ " cannot be used as a value"
  | .caretOperand found => "operator ^ expects a name, found " ++ found
  | .concatOperand operator side found =>
    "operator " ++ operator ++ " expects a name on the " ++ side ++ ", found " ++ found
  | .negativeShift count => "negative shift count " ++ Text.ofInt64 count
  | .divisionByZero => "division by zero"
  | .unknownFunction name => "unknown function @" ++ name
  | .arity function expected found =>
    "@" ++ function ++ " expects " ++ expected.render ++ " arguments, found " ++ Text.ofNat found
  | .oneArgument found => "expected 1 argument, found " ++ Text.ofNat found
  | .argumentBounds index => "argument " ++ Text.ofInt64 index ++ " is out of bounds"
  | .radixRange radix => "radix " ++ Text.ofInt64 radix ++ " is out of range [2..36]"
  | .depthMismatch onTrue onFalse here =>
    "BUG: prospecting scopes of depth " ++ Text.ofNat onTrue ++ " and " ++ Text.ofNat onFalse ++
      " into depth " ++ Text.ofNat here
  | .undecidedMacro name =>
    name ++ " is bound to a macro under a condition that cannot be decided"
  | .alreadyDeclared name => name ++ " has already been declared"
  | .includePath found => "cannot resolve include path " ++ found
  | .unread path => "file " ++ path ++ " was not read"
  | .other text => text

/-- The severity of a cause that becomes a diagnostic: an unbalanced definition leaves a name
without a value on one path, so it ends the run. -/
def level : Cause → Level
  | .unbalanced _ _ => .fatal
  | _ => .fail

end Cause

/-- A text of some severity about a location. -/
structure Diagnostic where
  /-- The severity. -/
  level : Level
  /-- What it is about. -/
  loc : Location
  /-- What it says. -/
  text : Text
  /-- The cause it was made from, if it was. -/
  cause : Option Cause
deriving DecidableEq, Inhabited, Repr

namespace Diagnostic

/-- A diagnostic that ends the run. -/
def fatal (loc : Location) (text : Text) : Diagnostic := ⟨.fatal, loc, text, none⟩

/-- A diagnostic that fails the run. -/
def fail (loc : Location) (text : Text) : Diagnostic := ⟨.fail, loc, text, none⟩

/-- A warning. -/
def warn (loc : Location) (text : Text) : Diagnostic := ⟨.warn, loc, text, none⟩

/-- A message of the program being assembled. -/
def info (loc : Location) (text : Text) : Diagnostic := ⟨.info, loc, text, none⟩

/-- The diagnostic of a cause at a location. -/
def ofCause (cause : Cause) (loc : Location) : Diagnostic :=
  ⟨cause.level, loc, cause.message, some cause⟩

/-- Whether the run ends here. -/
def isFatal (d : Diagnostic) : Bool := d.level == .fatal

/-- Whether the run fails. -/
def fails (d : Diagnostic) : Bool := d.level == .fatal || d.level == .fail

/-- The diagnostic in one line: its level, its location when known, and its text. -/
def short (d : Diagnostic) : Text :=
  if d.loc.isUnknown then d.level.name ++ ": " ++ d.text
  else d.level.name ++ " (" ++ d.loc.render ++ "): " ++ d.text

/-- The diagnostic in one line, and a line for every including directive. -/
def long (d : Diagnostic) : Text :=
  d.short ++ Text.concat (d.loc.parents.map fun p => "\n\tincluded from " ++ p.render)

/-- The diagnostic, located at `loc` if it has no location of its own. -/
def locate (d : Diagnostic) (loc : Location) : Diagnostic := { d with loc := d.loc.orElse loc }

end Diagnostic

/-- How an operation fails: with a finished diagnostic, or with a cause that the caller locates. -/
inductive Failure where
  /-- A diagnostic. -/
  | report (d : Diagnostic)
  /-- A cause, not located yet. -/
  | raise (c : Cause)
deriving DecidableEq, Inhabited, Repr

/-- The diagnostic of a failure of the statement at `loc`. A diagnostic keeps its level, and its
location if it has one. -/
def Failure.toDiagnostic (loc : Location) : Failure → Diagnostic
  | .report d => d.locate loc
  | .raise c => .ofCause c loc

end MacroAsm
