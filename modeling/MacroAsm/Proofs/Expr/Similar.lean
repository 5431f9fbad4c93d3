import MacroAsm.Expr.Coerce
import MacroAsm.Expr.Similar

/-!
# Sameness as equality of erased expressions

`Expr.erase` forgets where an expression was read, the names its values were resolved through and the
labels of its fragments. Two expressions are the same exactly when their erasures are equal
(`similar_iff_erase_eq`), so sameness is an equivalence, and whatever is read off a value depends on
its erasure alone (`asNumber_congr`, `asText_congr`, `asTruth_congr`).
-/

namespace MacroAsm

/-- A register without the place where it was read. -/
def Register.erase (r : Register) : Register := ⟨Location.none, r.name⟩

/-- A condition without the place where it was read. -/
def Condition.erase (c : Condition) : Condition := ⟨Location.none, c.name⟩

namespace Expr

mutual

/-- An expression without locations, without the names its values were resolved through, and without
the labels of its fragments. -/
def erase : Expr → Expr
  | .number _ v _ => .number Location.none v Text.empty
  | .numeral _ digits => .numeral Location.none digits
  | .string _ v _ => .string Location.none v Text.empty
  | .identifier _ name => .identifier Location.none name
  | .fragment _ id _ => .fragment Location.none id Text.empty
  | .here _ => .here Location.none
  | .unary _ op value => .unary Location.none op value.erase
  | .binary _ op left right => .binary Location.none op left.erase right.erase
  | .ternary _ test onTrue onFalse => .ternary Location.none test.erase onTrue.erase onFalse.erase
  | .call _ name params => .call Location.none name (eraseAll params)
  | .register r => .register r.erase
  | .condition c => .condition c.erase
  | .absolute _ address => .absolute Location.none address.erase
  | .indirect _ base => .indirect Location.none base.erase
  | .indexed _ base index => .indexed Location.none base.erase index.erase
  | .displaced _ base displace => .displaced Location.none base.erase displace.erase
  | .offset _ base value => .offset Location.none base.erase value.erase

/-- The erasures of the expressions of a list. -/
def eraseAll : List Expr → List Expr
  | [] => []
  | e :: rest => e.erase :: eraseAll rest

end

mutual

/-- Two expressions are the same exactly when their erasures are equal. -/
theorem similar_iff_erase_eq : ∀ a b : Expr, a.similar b = true ↔ a.erase = b.erase := by
  intro a b
  -- different kinds are neither the same nor equal; equal kinds are compared part by part
  cases a <;> cases b <;>
    simp [similar, erase, Register.erase, Condition.erase, similar_iff_erase_eq,
      allSimilar_iff_eraseAll_eq, and_assoc]

/-- Two lists are pairwise the same exactly when their erasures are equal. -/
theorem allSimilar_iff_eraseAll_eq :
    ∀ as bs : List Expr, allSimilar as bs = true ↔ eraseAll as = eraseAll bs := by
  intro as bs
  cases as <;> cases bs <;>
    simp [allSimilar, eraseAll, similar_iff_erase_eq, allSimilar_iff_eraseAll_eq]

end

mutual

@[simp]
theorem erase_erase : ∀ e : Expr, e.erase.erase = e.erase := by
  intro e
  cases e <;> simp [erase, Register.erase, Condition.erase, erase_erase, eraseAll_eraseAll]

@[simp]
theorem eraseAll_eraseAll : ∀ es : List Expr, eraseAll (eraseAll es) = eraseAll es := by
  intro es
  cases es <;> simp [eraseAll, erase_erase, eraseAll_eraseAll]

end

@[simp]
theorem similar_refl (e : Expr) : e.similar e = true :=
  (similar_iff_erase_eq e e).2 rfl

theorem similar_congr {a a' b b' : Expr} (ha : a.erase = a'.erase) (hb : b.erase = b'.erase) :
    a.similar b = a'.similar b' := by
  rw [Bool.eq_iff_iff, similar_iff_erase_eq, similar_iff_erase_eq, ha, hb]

theorem similar?_iff (a b : Option Expr) :
    similar? a b = true ↔ a.map erase = b.map erase := by
  cases a <;> cases b <;> simp [similar?, similar_iff_erase_eq]

@[simp]
theorem isConcrete_erase (e : Expr) : e.erase.isConcrete = e.isConcrete := by
  cases e <;> rfl

@[simp]
theorem asNumber_erase (e : Expr) : e.erase.asNumber = e.asNumber := by
  cases e <;> rfl

@[simp]
theorem asText_erase (e : Expr) : e.erase.asText = e.asText := by
  cases e <;> rfl

@[simp]
theorem asTruth_erase (e : Expr) : e.erase.asTruth = e.asTruth := by
  cases e <;> rfl

theorem isConcrete_congr {a b : Expr} (h : a.erase = b.erase) : a.isConcrete = b.isConcrete := by
  rw [← isConcrete_erase a, h, isConcrete_erase]

theorem asNumber_congr {a b : Expr} (h : a.erase = b.erase) : a.asNumber = b.asNumber := by
  rw [← asNumber_erase a, h, asNumber_erase]

theorem asText_congr {a b : Expr} (h : a.erase = b.erase) : a.asText = b.asText := by
  rw [← asText_erase a, h, asText_erase]

theorem asTruth_congr {a b : Expr} (h : a.erase = b.erase) : a.asTruth = b.asTruth := by
  rw [← asTruth_erase a, h, asTruth_erase]

end Expr

end MacroAsm
