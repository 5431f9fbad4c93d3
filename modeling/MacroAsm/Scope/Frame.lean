import MacroAsm.Token

/-!
# Symbols and frames

A symbol is what a name is bound to, and a frame binds names to symbols in the order in which they
were declared. A name that is erased and entered again counts from its last entry.

Changing a symbol keeps the names and their order (`names_modify`) and touches no other symbol
(`find?_modify_of_ne`); entering a name puts it last, or leaves it in its place if it is bound
(`names_insert_of_not_contains`, `names_insert_of_contains`).
-/

namespace MacroAsm

/-- What a name is bound to. A symbol may be unset, as after a declaration or a forward reference. -/
structure Symbol where
  /-- The value, if it has one. -/
  value : Option Expr := none
  /-- The macro, if it has one. -/
  template : Option Macro := none
  /-- Where it was last declared or assigned. -/
  loc : Location := Location.none
  /-- Whether an expression has referred to it. -/
  used : Bool := false
  /-- Whether it may be assigned once only. -/
  frozen : Bool := false
  /-- Whether it belongs to the whole program. -/
  global : Bool := false
  /-- Whether another unit may override it at link time. -/
  weak : Bool := false
  /-- Whether it was bound by DEFINE. -/
  define : Bool := false
  /-- Whether it was declared by LOCAL. -/
  declared : Bool := false
  /-- Whether it is internal state of the assembler. -/
  reserved : Bool := false
  /-- The attributes of an external symbol. -/
  attributes : Option Attributes := none
deriving Inhabited

namespace Symbol

/-- Whether a symbol holds a value or a macro. -/
def isSet (s : Symbol) : Bool := s.value.isSome || s.template.isSome

/-- Whether a symbol holds a macro. -/
def isMacro (s : Symbol) : Bool := s.template.isSome

end Symbol

/-- Names bound to symbols, in the order of their declaration. -/
structure Frame where
  /-- The bindings, each name once. -/
  entries : List (Text × Symbol)
deriving Inhabited

namespace Frame

/-- The frame without names. -/
def empty : Frame := ⟨[]⟩

/-- The symbol of a name. -/
def find? (f : Frame) (name : Text) : Option Symbol := f.entries.lookup name

/-- Whether a name is bound. -/
def contains (f : Frame) (name : Text) : Bool := (f.find? name).isSome

/-- Changes the symbol of a name where it stands in a list of bindings. -/
def modifyEntries (name : Text) (g : Symbol → Symbol) :
    List (Text × Symbol) → List (Text × Symbol)
  | [] => []
  | (n, s) :: rest => if n == name then (n, g s) :: rest else (n, s) :: modifyEntries name g rest

/-- Changes the symbol of a name, if it is bound. -/
def modify (f : Frame) (name : Text) (g : Symbol → Symbol) : Frame :=
  ⟨modifyEntries name g f.entries⟩

/-- Binds a name: in its place if it is bound, or else after every other. -/
def insert (f : Frame) (name : Text) (s : Symbol) : Frame :=
  if f.contains name then f.modify name fun _ => s else ⟨f.entries ++ [(name, s)]⟩

/-- Removes a name. -/
def erase (f : Frame) (name : Text) : Frame :=
  ⟨f.entries.eraseP fun entry => entry.1 == name⟩

/-- The bound names in order. -/
def names (f : Frame) : List Text := f.entries.map Prod.fst

/-- The names bound to unset symbols, in order. -/
def unsetNames (f : Frame) : List Text :=
  (f.entries.filter fun entry => !entry.2.isSet).map Prod.fst

/-- Changing a symbol keeps the names of a list of bindings. -/
theorem map_fst_modifyEntries (name : Text) (g : Symbol → Symbol) (es : List (Text × Symbol)) :
    (modifyEntries name g es).map Prod.fst = es.map Prod.fst := by
  induction es with
  | nil => rfl
  | cons e rest ih =>
    by_cases h : e.1 == name
    · simp [modifyEntries, h]
    · simp [modifyEntries, h, ih]

@[simp]
theorem names_modify (f : Frame) (name : Text) (g : Symbol → Symbol) :
    (f.modify name g).names = f.names :=
  map_fst_modifyEntries name g f.entries

/-- What a changed list of bindings holds under the name. -/
theorem lookup_modifyEntries_self (name : Text) (g : Symbol → Symbol) (es : List (Text × Symbol)) :
    (modifyEntries name g es).lookup name = (es.lookup name).map g := by
  induction es with
  | nil => rfl
  | cons e rest ih =>
    obtain ⟨n, sym⟩ := e
    by_cases h : n = name
    · simp [modifyEntries, h]
    · have hne : (name == n) = false := beq_eq_false_iff_ne.2 (Ne.symm h)
      simp [modifyEntries, List.lookup_cons, h, hne, ih]

@[simp]
theorem find?_modify_self (f : Frame) (name : Text) (g : Symbol → Symbol) :
    (f.modify name g).find? name = (f.find? name).map g :=
  lookup_modifyEntries_self name g f.entries

/-- What a changed list of bindings holds under any other name. -/
theorem lookup_modifyEntries_of_ne {name other : Text} (h : other ≠ name) (g : Symbol → Symbol)
    (es : List (Text × Symbol)) : (modifyEntries name g es).lookup other = es.lookup other := by
  induction es with
  | nil => rfl
  | cons e rest ih =>
    obtain ⟨n, sym⟩ := e
    by_cases hn : n = name
    · have hne : (other == name) = false := beq_eq_false_iff_ne.2 h
      simp [modifyEntries, List.lookup_cons, hn, hne]
    · simp [modifyEntries, List.lookup_cons, hn, ih]

theorem find?_modify_of_ne {name other : Text} (h : other ≠ name) (f : Frame)
    (g : Symbol → Symbol) : (f.modify name g).find? other = f.find? other :=
  lookup_modifyEntries_of_ne h g f.entries

theorem names_insert_of_not_contains {f : Frame} {name : Text} (h : f.contains name = false)
    (s : Symbol) : (f.insert name s).names = f.names ++ [name] := by
  simp [insert, h, names]

theorem names_insert_of_contains {f : Frame} {name : Text} (h : f.contains name = true)
    (s : Symbol) : (f.insert name s).names = f.names := by
  simp [insert, h]

end Frame

end MacroAsm
