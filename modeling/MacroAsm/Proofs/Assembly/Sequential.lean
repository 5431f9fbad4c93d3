import Mathlib.Logic.Function.Basic
import MacroAsm.Assembly.Reduce
import MacroAsm.Proofs.Encode.Erasure
import MacroAsm.Proofs.Eval.Final

/-!
# A one-pass interpreter

What a program of SET, EQU, RADIX and data means, statement by statement: `Memory.step` carries a statement out
over the values that names hold and the current radix, and `Memory.run` goes through a program from left to
right. A statement that fails is skipped. The interpreter evaluates an expression once, where it stands, and never
looks ahead.

A state mirrors a memory if its scope holds the same (`Memory.Mirrors`). Evaluation over such a state gives what
the interpreter gives, and the state goes on to mirror the memory, as long as all names that are asked for hold a
value (`Memory.Sound.provides`).
-/

namespace MacroAsm

open Eval (outcome outcomeAll asked askedAll spelled Following Final Delivers)

/-- A failure that does not end the run. -/
def Failure.IsMild (f : Failure) : Prop := ∀ loc, (f.toDiagnostic loc).isFatal = false

/-- What fails the run does not end it. -/
theorem Failure.isMild_raise {c : Cause} (h : c.level = .fail) : (Failure.raise c).IsMild := by
  intro loc
  rw [Failure.toDiagnostic, Diagnostic.isFatal, Diagnostic.ofCause, h]
  rfl

/-- What a name holds. -/
structure Slot where
  /-- The value, if there is one. -/
  value : Option Expr
  /-- Whether the value may be given once only. -/
  frozen : Bool

/-- What the name of a symbol holds, if there is a symbol. -/
def Slot.ofSymbol : Option Symbol → Slot
  | some sym => ⟨sym.value, sym.frozen⟩
  | none => ⟨none, false⟩

/-- What the interpreter keeps. -/
structure Memory where
  /-- What names hold. -/
  slots : Text → Slot
  /-- The radix in which numerals are read. -/
  radix : Nat

/-- What the names of a scope hold. -/
def Scope.memory (s : Scope) : Memory := ⟨fun name => .ofSymbol (s.find? name), s.radix⟩

namespace Memory

/-- A name stands for the value that it holds. Digits that were not read yet are read in the current radix. -/
def follow (u : Surroundings) (m : Memory) : Following := fun _ name =>
  -- values were evaluated when they were given, so that no name has to be followed in them
  (m.slots name).value.bind fun v => (outcome u m.radix (fun _ _ => none) v true).map (Eval.tag name)

/-- The value of an expression. -/
def eval (u : Surroundings) (m : Memory) (e : Expr) : Option Expr := outcome u m.radix (m.follow u) e true

/-- The values of expressions. -/
def evalAll (u : Surroundings) (m : Memory) (es : List Expr) : Option (List Expr) :=
  outcomeAll u m.radix (m.follow u) es true

/-- The name that an expression spells. -/
def nameOf (u : Surroundings) (m : Memory) (e : Expr) : Option Text := spelled u m.radix (m.follow u) e

/-- Gives a name a value. -/
def bind (m : Memory) (name : Text) (slot : Slot) : Memory :=
  { m with slots := Function.update m.slots name slot }

@[simp]
theorem slots_bind (m : Memory) (name : Text) (slot : Slot) :
    (m.bind name slot).slots = Function.update m.slots name slot := rfl

/-- SET: gives a name a value, unless it is frozen and has one. -/
def set (m : Memory) (name : Text) (v : Expr) : Memory :=
  if (m.slots name).frozen && (m.slots name).value.isSome then m
  else m.bind name ⟨some v, (m.slots name).frozen⟩

/-- EQU: gives a name a value for good, unless it has one. -/
def equate (m : Memory) (name : Text) (v : Expr) : Memory :=
  if (m.slots name).value.isSome then m else m.bind name ⟨some v, true⟩

/-- Gives a name a value by SET or EQU. -/
def assign (m : Memory) : Assignment → Text → Expr → Memory
  | .set => m.set
  | .equate => m.equate
  | .define => fun _ _ => m

/-- RADIX: changes the radix to a number in 2..36. -/
def setRadix (m : Memory) : Expr → Memory
  | .number _ radix _ => if radix < 2 || 36 < radix then m else { m with radix := radix.toInt.toNat }
  | _ => m

/-- The output of a data statement with these values. -/
def encode (kind : DataKind) (vs : List Expr) : List Token :=
  match Encode.data kind vs with
  | .ok ts => Token.products ts
  | .error _ => []

/-- Carries out a statement. One that fails changes nothing. -/
def step (u : Surroundings) (m : Memory) : Token → Memory
  | .assign _ how name value =>
    ((m.nameOf u name).bind fun n => (m.eval u value).map (m.assign how n)).getD m
  | .radix _ value => ((m.eval u value).map m.setRadix).getD m
  | _ => m

/-- The output of a statement. -/
def output (u : Surroundings) (m : Memory) : Token → List Token
  | .data _ kind values => ((m.evalAll u values).map (encode kind)).getD []
  | _ => []

/-- Goes through a program from left to right. -/
def run (u : Surroundings) : Memory → List Token → List Token
  | _, [] => []
  | m, t :: rest => m.output u t ++ run u (m.step u t) rest

/-- The names that a statement asks for. -/
def asks (u : Surroundings) (m : Memory) : Token → List Text
  | .assign _ _ name value =>
    asked u m.radix (m.follow u) name false ++ asked u m.radix (m.follow u) value true
  | .radix _ value => asked u m.radix (m.follow u) value true
  | .data _ _ values => askedAll u m.radix (m.follow u) values true
  | _ => []

/-- The name that a statement gives a value. -/
def target (u : Surroundings) (m : Memory) : Token → Option Text
  | .assign _ _ name _ => m.nameOf u name
  | _ => none

/-- The names that the value of an EQU asks for. -/
def mentions (u : Surroundings) (m : Memory) : Token → List Text
  | .assign _ .equate _ value => asked u m.radix (m.follow u) value true
  | _ => []

/-- A name that can be asked for: it holds a value, and is not that of the radix. -/
def Knows (m : Memory) (name : Text) : Prop := name ≠ Scope.radixName ∧ (m.slots name).value.isSome = true

instance (m : Memory) (name : Text) : Decidable (m.Knows name) :=
  inferInstanceAs (Decidable (_ ∧ _))

/-- A statement can be carried out where it stands. The names that it asks for hold values, it does not give the
reserved name of the radix a value, and an EQU does not ask for the name that it defines. -/
structure Ready (u : Surroundings) (m : Memory) (t : Token) : Prop where
  /-- The names that it asks for hold values. -/
  asks : ∀ name ∈ m.asks u t, m.Knows name
  /-- The radix is not among the names that are given values. -/
  target : ∀ name ∈ m.target u t, name ≠ Scope.radixName
  /-- The value of an EQU does not ask for its name. -/
  equate : ∀ name ∈ m.target u t, name ∉ m.mentions u t

instance (u : Surroundings) (m : Memory) (t : Token) : Decidable (m.Ready u t) :=
  decidable_of_iff ((∀ name ∈ m.asks u t, m.Knows name) ∧ (∀ name ∈ m.target u t, name ≠ Scope.radixName) ∧
      ∀ name ∈ m.target u t, name ∉ m.mentions u t)
    ⟨fun h => ⟨h.1, h.2.1, h.2.2⟩, fun h => ⟨h.asks, h.target, h.equate⟩⟩

/-- The statements of a program can be carried out one after the other. -/
def ReadyAll (u : Surroundings) : Memory → List Token → Prop
  | _, [] => True
  | m, t :: rest => m.Ready u t ∧ ReadyAll u (m.step u t) rest

instance decidableReadyAll (u : Surroundings) : (m : Memory) → (ts : List Token) → Decidable (m.ReadyAll u ts)
  | _, [] => .isTrue trivial
  | m, t :: rest =>
    have := decidableReadyAll u (m.step u t) rest
    inferInstanceAs (Decidable (m.Ready u t ∧ ReadyAll u (m.step u t) rest))

/-- The values in a memory were evaluated, or are digits that were not read yet. -/
def Sound (u : Surroundings) (m : Memory) : Prop :=
  ∀ name v, (m.slots name).value = some v → v.isNumeral = true ∨ Final u true v

section Sound

variable {u : Surroundings} {m : Memory} {name : Text} {v : Expr}

/-- Evaluating a value of a memory does not ask for names, nor depends on how they are followed. -/
theorem Sound.value (h : m.Sound u) (hv : (m.slots name).value = some v) (radix : Nat) (f g : Following) :
    asked u radix f v true = [] ∧ outcome u radix f v true = outcome u radix g v true := by
  rcases h name v hv with hnumeral | hfinal
  · cases v with
    | numeral loc digits => exact ⟨by rw [asked] <;> simp, by rw [outcome, outcome]⟩
    | _ => cases hnumeral
  · exact ⟨(hfinal radix f).2, (hfinal radix f).1.trans (hfinal radix g).1.symm⟩

/-- Names lead to final expressions. -/
theorem Sound.follow (h : m.Sound u) (loc : Location) (hv : m.follow u loc name = some v) : Final u true v := by
  obtain ⟨value, hvalue, hmap⟩ := Option.bind_eq_some_iff.1 hv
  obtain ⟨w, hw, rfl⟩ := Option.map_eq_some_iff.1 hmap
  rcases h name value hvalue with hnumeral | hfinal
  · cases value with
    | numeral loc digits =>
      rw [outcome] at hw
      obtain ⟨n, -, rfl⟩ := Option.map_eq_some_iff.1 hw
      exact (Eval.final_number loc n _).tag name
    | _ => cases hnumeral
  · rw [(hfinal _ _).1] at hw
    cases hw
    exact hfinal.tag name

/-- A value that was evaluated may be given to a name. -/
theorem Sound.bind (h : m.Sound u) (hv : Final u true v) (name : Text) (frozen : Bool) :
    (m.bind name ⟨some v, frozen⟩).Sound u := by
  intro other w hw
  rw [slots_bind] at hw
  by_cases hother : other = name
  · subst hother
    rw [Function.update_self] at hw
    cases hw
    exact Or.inr hv
  · rw [Function.update_of_ne hother] at hw
    exact h other w hw

/-- A value that was evaluated may be given to a name by a statement. -/
theorem Sound.assign (h : m.Sound u) (hv : Final u true v) (how : Assignment) (name : Text) :
    (m.assign how name v).Sound u := by
  cases how with
  | set =>
    rw [Memory.assign, set]
    split
    · exact h
    · exact h.bind hv name _
  | equate =>
    rw [Memory.assign, equate]
    split
    · exact h
    · exact h.bind hv name _
  | define => exact h

variable (hargs : ∀ a ∈ u.args, ∀ p, Final u p a)
include hargs

theorem Sound.final (h : m.Sound u) {e : Expr} {propagate : Bool}
    (hv : outcome u m.radix (m.follow u) e propagate = some v) : Final u propagate v :=
  Eval.final_of_outcome hargs (fun loc _ _ => h.follow loc) e propagate v hv

/-- Carrying out a statement keeps a memory sound. -/
theorem Sound.step (h : m.Sound u) (t : Token) : (m.step u t).Sound u := by
  cases t with
  | assign loc how n e =>
    rw [Memory.step]
    cases m.nameOf u n with
    | none => exact h
    | some name =>
      cases hv : m.eval u e with
      | none => exact h
      | some v => exact h.assign (h.final hargs hv) how name
  | radix loc e =>
    rw [Memory.step]
    cases m.eval u e with
    | none => exact h
    | some v =>
      cases v with
      | number l radix via =>
        simp only [Option.map_some, Option.getD_some, setRadix]
        split <;> exact h
      | _ => exact h
  | _ => exact h

end Sound

/-- The scope of a state holds what a memory does. -/
structure Mirrors (m : Memory) (s : State) : Prop where
  /-- Names hold the same, apart from the radix. -/
  slots : ∀ name, name ≠ Scope.radixName → Slot.ofSymbol (s.scope.find? name) = m.slots name
  /-- The radix is the same. -/
  radix : s.scope.radix = m.radix
  /-- No name is a macro. -/
  plain : ∀ name sym, s.scope.find? name = some sym → sym.template = none
  /-- The name of the radix is there. -/
  held : (s.scope.find? Scope.radixName).isSome = true

section Mirrors

variable {m : Memory} {s : State} {name : Text} {sym : Symbol}

/-- The parts of a state other than the scope do not matter. -/
theorem Mirrors.of_scope_eq {s' : State} (h : m.Mirrors s) (hscope : s'.scope = s.scope) : m.Mirrors s' := by
  obtain ⟨hslots, hradix, hplain, hheld⟩ := h
  rw [← hscope] at hslots hradix hplain hheld
  exact ⟨hslots, hradix, hplain, hheld⟩

/-- A name that holds a value has a symbol. -/
theorem Mirrors.find? (h : m.Mirrors s) (hname : m.Knows name) :
    ∃ sym v, s.scope.find? name = some sym ∧ sym.value = some v ∧ sym.template = none ∧
      (m.slots name).value = some v := by
  have hslot := h.slots name hname.1
  obtain ⟨v, hv⟩ := Option.isSome_iff_exists.1 hname.2
  cases hfind : s.scope.find? name with
  | none =>
    rw [hfind] at hslot
    rw [← hslot] at hv
    cases hv
  | some sym =>
    rw [hfind] at hslot
    rw [← hslot] at hv
    exact ⟨sym, v, rfl, hv, h.plain name sym hfind, by rw [← hslot]; exact hv⟩

/-- Scopes that find the same symbols, apart from one name, mirror memories that hold the same apart from that
name. -/
theorem Mirrors.update (h : m.Mirrors s) (hname : name ≠ Scope.radixName) {scope : Scope}
    (hfind : ∀ other, scope.find? other = if other = name then some sym else s.scope.find? other)
    (hplain : sym.template = none) :
    (m.bind name ⟨sym.value, sym.frozen⟩).Mirrors { s with scope } where
  slots other hother := by
    rw [hfind, slots_bind]
    by_cases heq : other = name
    · rw [if_pos heq, heq, Function.update_self]
      rfl
    · rw [if_neg heq, Function.update_of_ne heq]
      exact h.slots other hother
  radix := by
    have hsame : scope.find? Scope.radixName = s.scope.find? Scope.radixName := by
      rw [hfind, if_neg (Ne.symm hname)]
    have hradix : scope.radix = s.scope.radix := by rw [Scope.radix, Scope.radix, hsame]
    exact hradix.trans h.radix
  plain other sym' hsym' := by
    rw [hfind] at hsym'
    split at hsym'
    · cases hsym'
      exact hplain
    · exact h.plain other sym' hsym'
  held := by
    rw [hfind, if_neg (Ne.symm hname)]
    exact h.held

/-- Asking for a name that holds a value changes nothing. -/
theorem Mirrors.used (h : m.Mirrors s) (hname : name ≠ Scope.radixName) (hfind : s.scope.find? name = some sym) :
    m.Mirrors { s with scope := s.scope.modify name fun sym => { sym with used := true } } := by
  have hfound := Scope.find?_modify_of_find? hfind fun sym => { sym with used := true }
  have hmirrors := h.update hname hfound (h.plain name sym hfind)
  -- a slot has no flag for use, so the memory is the same
  have hslot : (⟨sym.value, sym.frozen⟩ : Slot) = m.slots name := by
    rw [← h.slots name hname, hfind]
    rfl
  have hsame : m.bind name ⟨sym.value, sym.frozen⟩ = m := by
    rw [hslot, Memory.bind, Function.update_eq_self]
  rwa [hsame] at hmirrors

/-- The scope of a state that mirrors a memory leads known names to what the interpreter follows them to. -/
theorem Sound.provides {u : Surroundings} (h : m.Sound u) (guard : List Text) :
    Eval.Provides u m.Mirrors Failure.IsMild m.radix guard (fun name => m.Knows name ∧ name ∉ guard)
      (m.follow u) where
  radix s hs := hs.radix
  scope s s' hscope hs := hs.of_scope_eq hscope
  raises c hc := Failure.isMild_raise hc
  resolve fuel loc name hname := by
    intro s hs
    obtain ⟨sym, v, hfind, hvalue, htemplate, hslot⟩ := hs.find? hname.1
    -- the name is not under guard, so it is not taken for a circle
    have hchain : guard.dropWhile (· != name) = [] :=
      List.dropWhile_eq_nil_iff.2 fun x hx => bne_iff_ne.2 fun heq => hname.2 (heq ▸ hx)
    have hrequest : (Eval.request loc name).exec s =
        (.ok sym, { s with scope := s.scope.modify name fun sym => { sym with used := true } }) := by
      rw [Eval.request, Act.exec_bind_of_ok (Act.exec_scope s), hfind]
      rfl
    have hmacro : sym.isMacro = false := by rw [Symbol.isMacro, htemplate]; rfl
    -- the value asks for no name, so it does not matter how names are followed in it
    have hdelivers : Delivers m.Mirrors Failure.IsMild
        (Eval.flattenWith u (Eval.resolve u fuel (guard ++ [name])) v true)
        (outcome u m.radix (fun _ _ => none) v true) := by
      refine Eval.flattenWith_delivers (fun s hs => hs.radix) (fun c => Failure.isMild_raise)
        (fun _ _ (hfalse : False) => hfalse.elim) v true fun other hother => ?_
      rw [(h.value hslot m.radix _ fun _ _ => none).1] at hother
      exact List.not_mem_nil hother
    rw [Eval.resolve, Eval.resolveOnce, hchain, Act.exec_bind_of_ok hrequest, hmacro, hvalue, Memory.follow, hslot]
    exact (hdelivers.map (Eval.tag name)) _ (hs.used hname.1.1 hfind)

end Mirrors

end Memory

end MacroAsm
