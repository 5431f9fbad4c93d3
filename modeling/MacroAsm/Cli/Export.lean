import MacroAsm.Assembly.Run

/-!
# Exported names

The global names that the files of a run define, across the files. A name may be defined strongly once, and a
weak definition gives way to any other.
-/

namespace MacroAsm

namespace Cli

/-- The names exported so far, each with whether it is weak. -/
structure Exports where
  /-- The names, in order of their first export. -/
  entries : List (Text × Bool)
deriving DecidableEq, Inhabited, Repr

namespace Exports

/-- No names. -/
def empty : Exports := ⟨[]⟩

/-- Whether a name is exported weakly, if it is exported. -/
def weak? (e : Exports) (name : Text) : Option Bool := e.entries.lookup name

/-- Exports a name, or changes whether it is weak. -/
def set (e : Exports) (name : Text) (weak : Bool) : Exports :=
  if (e.weak? name).isSome then
    ⟨e.entries.map fun entry => if entry.1 == name then (name, weak) else entry⟩
  else ⟨e.entries ++ [(name, weak)]⟩

/-- What a definition does to the exports: a weak one never replaces another, and a strong one only replaces a
weak one. Gives nothing if it is a second strong one. -/
def define (e : Exports) (name : Text) (weak : Bool) : Option Exports :=
  match e.weak? name, weak with
  | none, weak => some (e.set name weak)
  | some _, true => some e
  | some true, false => some (e.set name false)
  | some false, false => none

end Exports

/-- Whether a global symbol is exported: it is defined, and neither by DEFINE nor as a macro. -/
def isExported (s : Symbol) : Bool := s.isSet && !s.define && !s.reserved && !s.isMacro

/-- The symbols that a finished scope exports. -/
def exportedSymbols (s : Scope) : List (Text × Symbol) := s.globals.filter fun g => isExported g.2

/-- The diagnostic of a second strong definition. -/
def redefined (name : Text) (s : Symbol) : Diagnostic :=
  .fail s.loc ("Attempted to redefine global variable " ++ name)

/-- Exports the symbols of a file: the exports after it, the names it is the first to export, and the
diagnostics. -/
def exportAll : List (Text × Symbol) → Exports → Exports × List Text × List Diagnostic
  | [], e => (e, [], [])
  | (name, sym) :: rest, e =>
    match e.define name sym.weak with
    | none =>
      let (e, names, reports) := exportAll rest e
      (e, names, redefined name sym :: reports)
    | some e' =>
      let isNew := (e.weak? name).isNone
      let (e, names, reports) := exportAll rest e'
      (e, if isNew then name :: names else names, reports)

end Cli

end MacroAsm
