import MacroAsm.Text.Numeral

/-!
# Locations

Where a token or an expression was read: a site in a file, the loader that read the file, and the
chain of INCLUDE directives that led to it.
-/

namespace MacroAsm

/-- A line and a column of a file. Zero and the empty path stand for what is not known. -/
structure Site where
  /-- The line, counted from one. -/
  line : Nat
  /-- The column on the line, counted from one. -/
  col : Nat
  /-- The path of the file. -/
  path : Text
deriving DecidableEq, Inhabited, Repr

/-- The site of which nothing is known. -/
def Site.unknown : Site := ⟨0, 0, Text.empty⟩

/-- A site is written `path:line:col`, without the path when it is not known. -/
def Site.render (s : Site) : Text :=
  let position := Text.ofNat s.line ++ ":" ++ Text.ofNat s.col
  if s.path.isEmpty then position else s.path ++ ":" ++ position

/-- A site together with how it was reached. -/
structure Location extends Site where
  /-- The name of the loader that read the file of an INCLUDE; empty at the top level. -/
  loader : Text
  /-- The sites of the INCLUDE directives that led here, innermost first. -/
  parents : List Site
deriving DecidableEq, Inhabited, Repr

namespace Location

/-- The location of which nothing is known. -/
def none : Location := ⟨Site.unknown, Text.empty, []⟩

/-- The location of a whole file. -/
def ofPath (path : Text) : Location := ⟨⟨0, 0, path⟩, Text.empty, []⟩

/-- Whether neither a site nor an including directive is known. -/
def isUnknown (l : Location) : Bool :=
  l.line == 0 && l.col == 0 && l.path.isEmpty && l.parents.isEmpty

/-- The location of a file included from `l` through a loader. -/
def included (l : Location) (path loader : Text) : Location :=
  ⟨⟨0, 0, path⟩, loader, l.toSite :: l.parents⟩

/-- `l`, or `other` if nothing is known of `l`. -/
def orElse (l other : Location) : Location := if l.isUnknown then other else l

end Location

end MacroAsm
