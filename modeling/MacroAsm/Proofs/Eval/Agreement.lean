import MacroAsm.Proofs.Eval.Outcome
import MacroAsm.Proofs.Expr.Similar

/-!
# Computations with the same result

`Agrees both er x y` says that where `x` gives a result `y` gives one with the same view `er`, and also
the other way around if `both` holds. Applying an operator or a function sees no more of its operands than
their erasures (`applyUnary_erase`, `applyBinary_erase`, `apply_eraseAll`), so it takes operands that agree
to results that agree (`settleUnary_agrees`, `settleBinary_agrees`, `settleCall_agrees`).
-/

namespace MacroAsm

namespace Expr

/-- As many expressions are erased as there are. -/
@[simp]
theorem length_eraseAll (es : List Expr) : (eraseAll es).length = es.length := by
  induction es with
  | nil => rfl
  | cons e rest ih => simp [eraseAll, ih]

/-- Erased expressions are all known exactly if the expressions are. -/
@[simp]
theorem all_isConcrete_eraseAll (es : List Expr) :
    (eraseAll es).all isConcrete = es.all isConcrete := by
  induction es with
  | nil => rfl
  | cons e rest ih => simp [eraseAll, ih]

/-- The numbers read off erased expressions are those of the expressions. -/
@[simp]
theorem asNumbers_eraseAll (es : List Expr) : asNumbers (eraseAll es) = asNumbers es := by
  induction es with
  | nil => rfl
  | cons e rest ih => simp [eraseAll, asNumbers, ih]

end Expr

namespace Builtin

/-- The texts of erased expressions are those of the expressions. -/
@[simp]
theorem concatTexts_eraseAll (es : List Expr) :
    concatTexts (Expr.eraseAll es) = concatTexts es := by
  induction es with
  | nil => rfl
  | cons e rest ih => simp [Expr.eraseAll, concatTexts, ih]

@[simp]
theorem applyToNumber_eraseAll (g : Int64 → Int64) (loc : Location) (args : List Expr) :
    applyToNumber g loc (Expr.eraseAll args) = applyToNumber g loc args := by
  rcases args with _ | ⟨a, _ | ⟨b, rest⟩⟩ <;> simp [Expr.eraseAll, applyToNumber]

/-- A function sees the erasures of its arguments alone. -/
theorem apply_eraseAll (f : Builtin) (macroArgs : List Expr) (loc : Location) (args : List Expr) :
    f.apply macroArgs loc (Expr.eraseAll args) = f.apply macroArgs loc args := by
  cases f with
  | abs | high | low | sgn => simp [apply]
  | max | min => simp [apply, best, checkArity]
  | cat | cnt => simp [apply, checkArity]
  | _ =>
    -- the other functions look at no more than four arguments
    rcases args with _ | ⟨a, _ | ⟨b, _ | ⟨c, _ | ⟨d, rest⟩⟩⟩⟩ <;> simp [apply, Expr.eraseAll]

end Builtin

namespace Eval

theorem applyUnary_erase (op : UnaryOp) (loc : Location) (e : Expr) :
    applyUnary op loc e.erase = applyUnary op loc e := by
  cases op <;> simp [applyUnary]

/-- A binary operator sees the erasures of its operands alone. -/
theorem applyBinary_erase (op : BinaryOp) (loc : Location) (l r : Expr) :
    applyBinary op loc l.erase r.erase = applyBinary op loc l r := by
  have hsimilar : l.erase.similar r.erase = l.similar r :=
    Expr.similar_congr (Expr.erase_erase l) (Expr.erase_erase r)
  cases op <;> simp [applyBinary, hsimilar]

@[simp]
theorem erase_tag (name : Text) (e : Expr) : (tag name e).erase = e.erase := by
  cases e <;> rfl

/-- Where `x` gives a result `y` gives one with the same view, and also the other way around if `both`
holds. -/
structure Agrees {α β : Type} (both : Prop) (er : α → β) (x y : Option α) : Prop where
  /-- A result of the first is one of the second. -/
  forth : ∀ a, x = some a → ∃ b, y = some b ∧ er a = er b
  /-- A result of the second is one of the first. -/
  back : both → ∀ b, y = some b → ∃ a, x = some a ∧ er a = er b

namespace Agrees

variable {α β γ δ : Type} {both : Prop} {er : α → β} {er' : γ → δ} {x y z : Option α}

theorem refl (x : Option α) : Agrees both er x x :=
  ⟨fun a h => ⟨a, h, rfl⟩, fun _ a h => ⟨a, h, rfl⟩⟩

/-- Agreement can be chained. -/
theorem trans (hxy : Agrees both er x y) (hyz : Agrees both er y z) : Agrees both er x z where
  forth a ha := by
    obtain ⟨b, hb, hab⟩ := hxy.forth a ha
    obtain ⟨c, hc, hbc⟩ := hyz.forth b hb
    exact ⟨c, hc, hab.trans hbc⟩
  back hboth c hc := by
    obtain ⟨b, hb, hbc⟩ := hyz.back hboth c hc
    obtain ⟨a, ha, hab⟩ := hxy.back hboth b hb
    exact ⟨a, ha, hab.trans hbc⟩

/-- Results with the same view agree. -/
theorem of_eq {a b : α} (h : er a = er b) : Agrees both er (some a) (some b) where
  forth a' ha := by
    cases ha
    exact ⟨b, rfl, h⟩
  back _ b' hb := by
    cases hb
    exact ⟨a, rfl, h⟩

/-- Computations that go on alike with results that look alike agree. -/
theorem bind {g h : α → Option γ} (hxy : Agrees both er x y)
    (hgh : ∀ a b, er a = er b → Agrees both er' (g a) (h b)) :
    Agrees both er' (x.bind g) (y.bind h) where
  forth c hc := by
    obtain ⟨a, ha, hga⟩ := Option.bind_eq_some_iff.1 hc
    obtain ⟨b, hb, hab⟩ := hxy.forth a ha
    obtain ⟨d, hd, hcd⟩ := (hgh a b hab).forth c hga
    exact ⟨d, Option.bind_eq_some_iff.2 ⟨b, hb, hd⟩, hcd⟩
  back hboth d hd := by
    obtain ⟨b, hb, hhb⟩ := Option.bind_eq_some_iff.1 hd
    obtain ⟨a, ha, hab⟩ := hxy.back hboth b hb
    obtain ⟨c, hc, hcd⟩ := (hgh a b hab).back hboth d hhb
    exact ⟨c, Option.bind_eq_some_iff.2 ⟨a, ha, hc⟩, hcd⟩

/-- Computations that change results that look alike to such results agree. -/
theorem map {g h : α → γ} (hxy : Agrees both er x y)
    (hgh : ∀ a b, er a = er b → er' (g a) = er' (h b)) :
    Agrees both er' (x.map g) (y.map h) := by
  rw [Option.map_eq_bind, Option.map_eq_bind]
  exact hxy.bind fun a b hab => of_eq (hgh a b hab)

end Agrees

section Settle

variable {both : Prop} {l l' r r' : Expr}

/-- A unary operation on operands that look alike. -/
theorem settleUnary_agrees (op : UnaryOp) (loc : Location) (h : l.erase = l'.erase) :
    Agrees both Expr.erase (settleUnary op loc l) (settleUnary op loc l') := by
  rw [settleUnary, settleUnary, Expr.isConcrete_congr h, ← applyUnary_erase op loc l, h,
    applyUnary_erase]
  split
  · exact Agrees.refl _
  · exact Agrees.of_eq (by rw [Expr.erase, Expr.erase, h])

/-- A binary operation on operands that look alike. -/
theorem settleBinary_agrees (op : BinaryOp) (loc : Location) (hl : l.erase = l'.erase)
    (hr : r.erase = r'.erase) :
    Agrees both Expr.erase (settleBinary op loc l r) (settleBinary op loc l' r') := by
  rw [settleBinary, settleBinary, Expr.isConcrete_congr hl, Expr.isConcrete_congr hr,
    ← applyBinary_erase op loc l, hl, hr, applyBinary_erase]
  split
  · exact Agrees.refl _
  · exact Agrees.of_eq (by rw [Expr.erase, Expr.erase, hl, hr])

/-- A name with a number at its end, for operands that look alike. -/
theorem settleJoin_agrees (follow : Following) (propagate : Bool) (op : BinaryOp) (loc : Location)
    (name : Text) (hl : l.erase = l'.erase) (hr : r.erase = r'.erase) :
    Agrees both Expr.erase (settleJoin follow propagate op loc l name r)
      (settleJoin follow propagate op loc l' name r') := by
  rw [settleJoin, settleJoin, Expr.isConcrete_congr hr, Expr.asNumber_congr hr]
  split
  · exact Agrees.refl _
  · exact Agrees.of_eq (by rw [Expr.erase, Expr.erase, hl, hr])

/-- Operations whose operands agree agree, where the left one may decide. -/
theorem settleDecided_agrees (op : BinaryOp) (stop : Bool) (loc : Location) {x y : Option Expr}
    (hxy : Agrees both Expr.erase x y) (hl : l.erase = l'.erase) :
    Agrees both Expr.erase (settleDecided op stop loc x l) (settleDecided op stop loc y l') := by
  rw [settleDecided, settleDecided, Expr.isConcrete_congr hl, Expr.asTruth_congr hl]
  split
  · cases l'.asTruth.toOption with
    | none => exact Agrees.refl _
    | some t =>
      simp only [Option.bind_some]
      split
      · exact Agrees.of_eq hl
      · exact hxy
  · exact hxy.map fun a b hab => by rw [Expr.erase, Expr.erase, hl, hab]

/-- Choices between expressions that agree agree. -/
theorem settleChoice_agrees (loc : Location) {x x' y y' : Option Expr}
    (hx : Agrees both Expr.erase x x') (hy : Agrees both Expr.erase y y') {t t' : Expr}
    (ht : t.erase = t'.erase) :
    Agrees both Expr.erase (settleChoice loc x y t) (settleChoice loc x' y' t') := by
  rw [settleChoice, settleChoice, Expr.isConcrete_congr ht, Expr.asTruth_congr ht]
  split
  · cases t'.asTruth.toOption with
    | none => exact Agrees.refl _
    | some holds =>
      simp only [Option.bind_some]
      split
      · exact hx
      · exact hy
  · exact hx.bind fun a a' ha => hy.map fun b b' hb => by
      rw [Expr.erase, Expr.erase, ht, ha, hb]

/-- A call with arguments that look alike. -/
theorem settleCall_agrees (u : Surroundings) (f : Builtin) (loc : Location) (name : Text)
    {as bs : List Expr} (h : Expr.eraseAll as = Expr.eraseAll bs) :
    Agrees both Expr.erase (settleCall u f loc name as) (settleCall u f loc name bs) := by
  rw [settleCall, settleCall, ← Expr.all_isConcrete_eraseAll as,
    ← Builtin.apply_eraseAll f u.args loc as, h, Expr.all_isConcrete_eraseAll,
    Builtin.apply_eraseAll]
  split
  · exact Agrees.refl _
  · exact Agrees.of_eq (by rw [Expr.erase, Expr.erase, h])

/-- The name that expressions which look alike are. -/
theorem name?_congr (h : l.erase = l'.erase) : l.name? = l'.name? := by
  have herase : ∀ e : Expr, e.erase.name? = e.name? := by
    intro e
    cases e <;> rfl
  rw [← herase l, h, herase]

end Settle

end Eval

end MacroAsm
