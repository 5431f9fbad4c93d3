import MacroAsm.Proofs.Eval.Arithmetic
import MacroAsm.Proofs.Text.Position

/-!
# Parts of texts, and where they are

`@SUB` cuts a part out of a text, `@POS` finds where one text begins in another, and `@LEN` measures a text. All of
them count bytes, and bounds outside of the text are moved to its ends.

The end of a part is counted in 64 bits. Where the sum of its beginning and its length is not a number of that
width the end is on the wrong side, so that `@SUB` gives too little or too much (`Builtin.Overruns`).

Main statements: `Builtin.sub_exact`, `Builtin.pos_sub_len`.
-/

namespace MacroAsm

namespace Arithmetic

/-- A clamped number is the nearest one between its bounds. -/
theorem toInt_clamp {low high : Int64} (h : low.toInt ≤ high.toInt) (v : Int64) :
    (clamp v low high).toInt = max low.toInt (min v.toInt high.toInt) := by
  rw [clamp]
  split <;> rename_i hlow <;> rw [Int64.lt_iff_toInt_lt] at hlow
  · omega
  · split <;> rename_i hhigh <;> rw [Int64.lt_iff_toInt_lt] at hhigh <;> omega

/-- A sum of numbers is that of the integers, or the one that is 2^64 away if that does not fit. -/
theorem toInt_add_cases (a b : Int64) :
    (-2 ^ 63 ≤ a.toInt + b.toInt ∧ a.toInt + b.toInt < 2 ^ 63 ∧ (a + b).toInt = a.toInt + b.toInt) ∨
    (2 ^ 63 ≤ a.toInt + b.toInt ∧ (a + b).toInt = a.toInt + b.toInt - 2 ^ 64) ∨
    (a.toInt + b.toInt < -2 ^ 63 ∧ (a + b).toInt = a.toInt + b.toInt + 2 ^ 64) := by
  have hsum : (a + b).toInt % 2 ^ 64 = (a.toInt + b.toInt) % 2 ^ 64 := by
    rw [Int64.toInt_add]
    exact bmod_modEq _
  have ha := a.le_toInt
  have ha' := a.toInt_lt
  have hb := b.le_toInt
  have hb' := b.toInt_lt
  have h := (a + b).le_toInt
  have h' := (a + b).toInt_lt
  omega

end Arithmetic

section Parts

variable {t : Text}

theorem Text.toInt_length (ht : t.length < 2 ^ 63) : (Int64.ofNat t.length).toInt = t.length :=
  Int64.toInt_ofNat_of_lt ht

/-- A position that is moved into a text, or to its nearer end. -/
theorem Arithmetic.toInt_clamp_length (ht : t.length < 2 ^ 63) (v : Int64) :
    (clamp v 0 (Int64.ofNat t.length)).toInt = max 0 (min v.toInt t.length) := by
  have hlength := Text.toInt_length ht
  rw [toInt_clamp (by rw [hlength, Int64.toInt_zero]; omega), hlength, Int64.toInt_zero]

/-- The part of a text has the bytes from where it begins on, up to where it ends as a number. -/
theorem Builtin.subText_eq_pick (ht : t.length < 2 ^ 63) (start length : Int64) :
    subText t start length = t.pick fun i => start.toInt ≤ i ∧ (i : Int) < (start + length).toInt := by
  have hlength := Text.toInt_length ht
  have hfirst := Arithmetic.toInt_clamp_length ht start
  have hlast : (Arithmetic.clamp (start + length) (Arithmetic.clamp start 0 (Int64.ofNat t.length))
      (Int64.ofNat t.length)).toInt =
        Max.max (Max.max 0 (Min.min start.toInt t.length)) (Min.min (start + length).toInt t.length) := by
    rw [Arithmetic.toInt_clamp (by rw [hfirst, hlength]; omega), hfirst, hlength]
  rw [subText, Text.slice_eq_pick, hfirst, hlast]
  exact Text.pick_congr fun i hi => by omega

/-- The end of a part is no 64-bit number, and this makes a difference: the part should reach to the end of the
text, or should be empty. -/
def Builtin.Overruns (t : Text) (start length : Int) : Prop :=
  (2 ^ 63 ≤ start + length ∧ start < t.length) ∨
  (start + length < -2 ^ 63 ∧ start + length ≠ -2 ^ 64 ∧ 0 < t.length)

instance (t : Text) (start length : Int) : Decidable (Builtin.Overruns t start length) :=
  inferInstanceAs (Decidable (_ ∨ _))

/-- A part has the bytes between its bounds unless its end overruns. -/
theorem Builtin.subText_eq_iff (ht : t.length < 2 ^ 63) (start length : Int64) :
    subText t start length = t.pick (fun i => start.toInt ≤ i ∧ (i : Int) < start.toInt + length.toInt) ↔
      ¬ Overruns t start.toInt length.toInt := by
  have hstart := start.le_toInt
  have hstart' := start.toInt_lt
  have hlength := length.le_toInt
  have hlength' := length.toInt_lt
  rw [subText_eq_pick ht, Overruns]
  obtain ⟨hlow, hhigh, hend⟩ | ⟨hbig, hend⟩ | ⟨hsmall, hend⟩ := Arithmetic.toInt_add_cases start length
  · rw [hend]
    exact iff_of_true rfl (by omega)
  · -- the end wraps to before the text, and nothing is left of a part that should reach to the other end
    rw [Text.pick_eq_empty_iff.2 fun i _ => by omega, eq_comm, Text.pick_eq_empty_iff]
    exact ⟨fun hnone hover => hnone start.toInt.toNat (by omega) (by omega),
      fun hnot i hi hpart => hnot (by omega)⟩
  · -- the end wraps to behind the first byte, and a part that should be empty begins with it
    have hempty : t.pick (fun i => start.toInt ≤ i ∧ (i : Int) < start.toInt + length.toInt) = Text.empty :=
      Text.pick_eq_empty_iff.2 fun i _ => by omega
    rw [hempty, Text.pick_eq_empty_iff]
    exact ⟨fun hnone hover => hnone 0 (by omega) (by omega), fun hnot i hi hpart => hnot (by omega)⟩

/-- A call for a part of a text gives it, whatever its arguments are made of. -/
theorem Builtin.evaluatesTo_sub {textOf startOf lengthOf : Expr} {start length : Int64}
    {textLoc startLoc lengthLoc : Location} {textVia startVia lengthVia : Text}
    (htext : Eval.EvaluatesTo textOf (.ok (.string textLoc t textVia)))
    (hstart : Eval.EvaluatesTo startOf (.ok (.number startLoc start startVia)))
    (hlength : Eval.EvaluatesTo lengthOf (.ok (.number lengthLoc length lengthVia))) (loc : Location) :
    Eval.EvaluatesTo (.call loc "SUB" [textOf, startOf, lengthOf])
      (.ok (.quoted loc (subText t start length))) :=
  Eval.evaluatesTo_call rfl (.cons htext (.cons hstart (.cons hlength .nil))) (by simp [Expr.isConcrete])
    fun _ => rfl

variable (loc textLoc startLoc lengthLoc : Location) (textVia startVia lengthVia : Text)

/-- Taking a part out of a text never fails. It gives the bytes at the positions between the bounds, which are
integers, exactly where the end does not overrun. The text is one that memory can hold. -/
theorem Builtin.sub_exact (ht : t.length < 2 ^ 63) (start length : Int64) :
    ∃ part, Eval.EvaluatesTo (.call loc "SUB" [.string textLoc t textVia, .number startLoc start startVia,
        .number lengthLoc length lengthVia]) (.ok (.quoted loc part)) ∧
      (part = t.pick (fun i => start.toInt ≤ i ∧ (i : Int) < start.toInt + length.toInt) ↔
        ¬ Overruns t start.toInt length.toInt) := by
  refine ⟨subText t start length, ?_, subText_eq_iff ht start length⟩
  exact evaluatesTo_sub (Eval.evaluatesTo_string textLoc t textVia)
    (Eval.evaluatesTo_number startLoc start startVia) (Eval.evaluatesTo_number lengthLoc length lengthVia) loc

/-- A part that begins before the text ends where the sum of its bounds says. -/
theorem Builtin.sub_exact_before :
    Eval.EvaluatesTo (.call default "SUB" [.string default "abc" "", .number default (-1) "",
        .number default 3 ""]) (.ok (.quoted default "ab")) := by
  obtain ⟨part, heval, hexact⟩ :=
    sub_exact (t := "abc") default default default default "" "" "" (by decide) (-1) 3
  have hpart : part = "ab" := (hexact.2 (by decide)).trans (by decide)
  rwa [hpart] at heval

/-- A part that is as long as can be is empty and not the rest of the text, and one that ends before the least
number is all of the text. -/
theorem Builtin.sub_overruns :
    Eval.EvaluatesTo (.call default "SUB" [.string default "abc" "", .number default 1 "",
        .number default Int64.maxValue ""]) (.ok (.quoted default "")) ∧
      Text.pick "abc" (fun i => (1 : Int64).toInt ≤ i ∧
        (i : Int) < (1 : Int64).toInt + Int64.maxValue.toInt) = "bc" ∧
      Eval.EvaluatesTo (.call default "SUB" [.string default "abc" "", .number default Int64.minValue "",
        .number default (-1) ""]) (.ok (.quoted default "abc")) ∧
      Text.pick "abc" (fun i => Int64.minValue.toInt ≤ i ∧
        (i : Int) < Int64.minValue.toInt + (-1 : Int64).toInt) = "" := by
  refine ⟨?_, by decide, ?_, by decide⟩
  all_goals
    exact evaluatesTo_sub (Eval.evaluatesTo_string _ _ _) (Eval.evaluatesTo_number _ _ _)
      (Eval.evaluatesTo_number _ _ _) default

end Parts

section Positions

variable {t pat : Text}

/-- The positions of a text at which a pattern begins, from a bound on that is moved into the text. -/
def Text.occurrences (t pat : Text) (start : Int) : Set Nat :=
  {i | max 0 (min start t.length) ≤ i ∧ pat.BeginsAt t i}

/-- The position of a pattern is the least one at which it begins, or -1 if there is none. -/
theorem Builtin.position_cases (ht : t.length < 2 ^ 63) (pat : Text) (start : Int64) :
    (∃ i, IsLeast (t.occurrences pat start.toInt) i ∧ (position t pat start).toInt = i) ∨
      (t.occurrences pat start.toInt = ∅ ∧ position t pat start = -1) := by
  have hfirst := Arithmetic.toInt_clamp_length ht start
  have hfrom : ∀ i : Nat, Max.max 0 (Min.min start.toInt t.length) ≤ i ↔
      (Max.max 0 (Min.min start.toInt t.length)).toNat ≤ i := by omega
  simp only [position, hfirst, Text.occurrences, hfrom]
  cases hfind : t.find? pat (Max.max 0 (Min.min start.toInt t.length)).toNat with
  | none =>
    exact .inr ⟨Set.eq_empty_of_forall_notMem fun i hi => Text.not_beginsAt_of_find? hfind hi.1 hi.2, rfl⟩
  | some i =>
    have hleast := Text.find?_isLeast (by omega) hfind
    have hi := (Text.beginsAt_iff.1 hleast.1.2).1
    exact .inl ⟨i, hleast, Int64.toInt_ofNat_of_lt (by omega)⟩

/-- The part that begins where a pattern does, and is as long, is the pattern. -/
theorem Builtin.subText_of_beginsAt (ht : t.length < 2 ^ 63) {i : Nat} (h : pat.BeginsAt t i) {v : Int64}
    (hv : v.toInt = i) : subText t v (Int64.ofNat pat.length) = pat := by
  have hinside := h.add_length_le
  have hlength := Text.toInt_length (t := pat) (by omega)
  rw [(subText_eq_iff ht _ _).2 (by rw [Overruns, hv, hlength]; omega), hv, hlength]
  refine Eq.trans ?_ h.slice_eq
  rw [Text.slice_eq_pick]
  exact Text.pick_congr fun j _ => by omega

variable (loc textLoc patLoc startLoc lenLoc subLoc : Location) (textVia patVia startVia : Text)

/-- A call for the position of a pattern in a text, from `start` on if it is given. -/
def Builtin.posCall (t pat : Text) (start : Option Int64) : Expr :=
  .call loc "POS" (.string textLoc t textVia :: .string patLoc pat patVia ::
    (start.map fun v => .number startLoc v startVia).toList)

/-- A call for the part of a text that is at a position and as long as a pattern. -/
def Builtin.subCall (t pat : Text) (pos : Expr) : Expr :=
  .call subLoc "SUB" [.string textLoc t textVia, pos, .call lenLoc "LEN" [.string patLoc pat patVia]]

/-- A call for a position gives it, counted from the beginning of the text if no start is given. -/
theorem Builtin.evaluatesTo_posCall (t pat : Text) (start : Option Int64) :
    Eval.EvaluatesTo (posCall loc textLoc patLoc startLoc textVia patVia startVia t pat start)
      (.ok (.literal loc (position t pat (start.getD 0)))) := by
  have htext := Eval.evaluatesTo_string textLoc t textVia
  have hpat := Eval.evaluatesTo_string patLoc pat patVia
  cases start with
  | none =>
    exact Eval.evaluatesTo_call rfl (.cons htext (.cons hpat .nil)) (by simp [Expr.isConcrete]) fun _ => rfl
  | some v =>
    have hstart := Eval.evaluatesTo_number startLoc v startVia
    exact Eval.evaluatesTo_call rfl (.cons htext (.cons hpat (.cons hstart .nil)))
      (by simp [Expr.isConcrete]) fun _ => rfl

/-- A call for a part of a text evaluates the call for its position and the one for its length. -/
theorem Builtin.evaluatesTo_subCall (t pat : Text) {pos : Expr} {v : Int64}
    (hpos : Eval.EvaluatesTo pos (.ok (.literal loc v))) :
    Eval.EvaluatesTo (subCall textLoc patLoc lenLoc subLoc textVia patVia t pat pos)
      (.ok (.quoted subLoc (subText t v (Int64.ofNat pat.length)))) := by
  have hlength : Eval.EvaluatesTo (.call lenLoc "LEN" [.string patLoc pat patVia])
      (.ok (.literal lenLoc (Int64.ofNat pat.length))) :=
    Eval.evaluatesTo_call rfl (.cons (Eval.evaluatesTo_string patLoc pat patVia) .nil)
      (by simp [Expr.isConcrete]) fun _ => rfl
  exact evaluatesTo_sub (Eval.evaluatesTo_string textLoc t textVia) hpos hlength subLoc

/-- If a pattern begins anywhere in a text from the start on, its position is the least such place, and the part
there that is as long as the pattern is the pattern. Otherwise its position is -1. The text is one that memory can
hold. -/
theorem Builtin.pos_sub_len (ht : t.length < 2 ^ 63) (pat : Text) (start : Option Int64) :
    let pos := posCall loc textLoc patLoc startLoc textVia patVia startVia t pat start
    let positions := t.occurrences pat (start.getD 0).toInt
    (positions.Nonempty → ∃ (i : Nat) (v : Int64), IsLeast positions i ∧ v.toInt = i ∧
      Eval.EvaluatesTo pos (.ok (.literal loc v)) ∧
      Eval.EvaluatesTo (subCall textLoc patLoc lenLoc subLoc textVia patVia t pat pos)
        (.ok (.quoted subLoc pat))) ∧
    (¬ positions.Nonempty → Eval.EvaluatesTo pos (.ok (.literal loc (-1)))) := by
  intro pos positions
  have hpos : Eval.EvaluatesTo pos (.ok (.literal loc (position t pat (start.getD 0)))) :=
    evaluatesTo_posCall loc textLoc patLoc startLoc textVia patVia startVia t pat start
  obtain ⟨i, hleast, hi⟩ | ⟨hnone, hminus⟩ := position_cases ht pat (start.getD 0)
  · have hsub := evaluatesTo_subCall loc textLoc patLoc lenLoc subLoc textVia patVia t pat hpos
    rw [subText_of_beginsAt ht hleast.1.2 hi] at hsub
    exact ⟨fun _ => ⟨i, _, hleast, hi, hpos, hsub⟩, fun hnone => absurd ⟨i, hleast.1⟩ hnone⟩
  · rw [hminus] at hpos
    exact ⟨fun hsome => absurd hnone hsome.ne_empty, fun _ => hpos⟩

/-- The first place of a pattern overlaps the second one, which is found if the search starts behind the first
one's beginning. -/
theorem Builtin.pos_sub_len_overlap :
    let pos := posCall default default default default "" "" "" "banana" "ana" (some 2)
    Eval.EvaluatesTo pos (.ok (.literal default 3)) ∧
      Eval.EvaluatesTo (subCall default default default default "" "" "banana" "ana" pos)
        (.ok (.quoted default "ana")) := by
  intro pos
  have hthird : 3 ∈ Text.occurrences "banana" "ana" (2 : Int64).toInt :=
    ⟨by decide, "ban", "", by decide, by decide⟩
  obtain ⟨hsome, -⟩ := pos_sub_len (t := "banana") default default default default default default "" "" ""
    (by decide) "ana" (some 2)
  obtain ⟨i, v, hleast, hv, hpos, hsub⟩ := hsome ⟨3, hthird⟩
  have hi : i = 3 := by
    refine le_antisymm (hleast.2 hthird) (not_lt.1 fun hlt => ?_)
    obtain rfl : i = 2 := by
      have hfrom : (2 : Int) ≤ i := le_trans (by decide) hleast.1.1
      omega
    exact absurd (Text.beginsAt_iff.1 hleast.1.2).2 (by decide)
  obtain rfl : v = 3 := Int64.toInt_inj.1 (by rw [hv, hi]; rfl)
  exact ⟨hpos, hsub⟩

end Positions

end MacroAsm
