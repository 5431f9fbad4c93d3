import MacroAsm.Expr.Basic

/-!
# Sameness of expressions

Two expressions are the same when they differ at most in where they were read, in the names their
values were resolved through, and in the labels of their fragments, which are told apart by identity.
-/

namespace MacroAsm

namespace Expr

mutual

/-- Whether two expressions are the same up to where they came from. -/
def similar : Expr → Expr → Bool
  | .number _ v _, .number _ w _ => v == w
  | .numeral _ s, .numeral _ t => s == t
  | .string _ s _, .string _ t _ => s == t
  | .identifier _ n, .identifier _ m => n == m
  | .fragment _ i _, .fragment _ j _ => i == j
  | .here _, .here _ => true
  | .unary _ o a, .unary _ p b => o == p && similar a b
  | .binary _ o a b, .binary _ p c d => o == p && similar a c && similar b d
  | .ternary _ a b c, .ternary _ d e f => similar a d && similar b e && similar c f
  | .call _ n ps, .call _ m qs => n == m && allSimilar ps qs
  | .register r, .register s => r.name == s.name
  | .condition c, .condition d => c.name == d.name
  | .absolute _ a, .absolute _ b => similar a b
  | .indirect _ r, .indirect _ s => r.name == s.name
  | .indexed _ r i, .indexed _ s j => r.name == s.name && i.name == j.name
  | .displaced _ r a, .displaced _ s b => r.name == s.name && similar a b
  | .offset _ r a, .offset _ s b => r.name == s.name && similar a b
  | _, _ => false

/-- Whether two lists have the same length and pairwise similar elements. -/
def allSimilar : List Expr → List Expr → Bool
  | [], [] => true
  | a :: as, b :: bs => similar a b && allSimilar as bs
  | _, _ => false

end

/-- Sameness of expressions that may be missing. -/
def similar? : Option Expr → Option Expr → Bool
  | none, none => true
  | some a, some b => similar a b
  | _, _ => false

end Expr

end MacroAsm
