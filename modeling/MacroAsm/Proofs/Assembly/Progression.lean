import Mathlib.Tactic.Ring
import MacroAsm.Assembly.Replay

/-!
# Progressions

The numbers that a walk goes through are an arithmetic progression of integers. It holds exactly the integers at
multiples of the step that do not lie beyond the last one (`Progression.lt_count_iff`), and a loop along a walk
makes one turn for each of them, in order, so that the turns of DUPF are counted as those of DUP are
(`Replay.walk_eq_times`).
-/

namespace MacroAsm

/-- The integers from a start to an end by a step. -/
structure Progression where
  /-- The first integer. -/
  first : Int
  /-- The bound, which is part of the progression if it is reached. -/
  last : Int
  /-- The distance between neighbours. -/
  step : Int
deriving DecidableEq, Inhabited, Repr

namespace Progression

/-- The number of integers: none if the end lies on the other side of the start than the step leads. -/
def count (p : Progression) : Nat :=
  if 0 < p.step then
    if p.first ≤ p.last then ((p.last - p.first) / p.step).toNat + 1 else 0
  else if p.step < 0 then
    if p.last ≤ p.first then ((p.first - p.last) / -p.step).toNat + 1 else 0
  else 0

/-- The integer at a position, counted from zero. -/
def get (p : Progression) (k : Nat) : Int := p.first + k * p.step

/-- Whether an integer lies on the way from the start to the end, both included, in the direction of the step. -/
def Spans (p : Progression) (x : Int) : Prop :=
  0 < p.step ∧ p.first ≤ x ∧ x ≤ p.last ∨ p.step < 0 ∧ p.last ≤ x ∧ x ≤ p.first

@[simp]
theorem get_zero (p : Progression) : p.get 0 = p.first := by simp [get]

/-- So many steps upward stay below a bound if they fit into the distance. -/
theorem lt_succ_toNat_ediv_iff {step distance : Int} (hstep : 0 < step) (hdistance : 0 ≤ distance) (k : Nat) :
    k < (distance / step).toNat + 1 ↔ k * step ≤ distance := by
  have hquotient : 0 ≤ distance / step := Int.ediv_nonneg hdistance hstep.le
  rw [← Int.le_ediv_iff_mul_le hstep]
  omega

/-- The positions of a progression are those whose integers lie on the way. -/
theorem lt_count_iff (p : Progression) (k : Nat) : k < p.count ↔ p.Spans (p.get k) := by
  rw [count, Spans, get]
  split
  · rename_i hup
    have hk : 0 ≤ k * p.step := Int.mul_nonneg (Int.natCast_nonneg k) hup.le
    split
    · rename_i hle
      rw [lt_succ_toNat_ediv_iff hup (by omega)]
      omega
    · omega
  · split
    · rename_i hdown
      have hk : 0 ≤ k * -p.step := Int.mul_nonneg (Int.natCast_nonneg k) (by omega)
      rw [Int.mul_neg] at hk
      split
      · rename_i hle
        rw [lt_succ_toNat_ediv_iff (by omega) (by omega), Int.mul_neg]
        omega
      · omega
    · omega

/-- The integers on the way between two numbers are numbers. -/
theorem Spans.toInt_ofInt {first last : Int64} {step x : Int} (h : Spans ⟨first.toInt, last.toInt, step⟩ x) :
    (Int64.ofInt x).toInt = x := by
  have hlowFirst := first.le_toInt
  have hhighFirst := first.toInt_lt
  have hlowLast := last.le_toInt
  have hhighLast := last.toInt_lt
  simp only [Spans] at h
  apply Int64.toInt_ofInt_of_le
  · omega
  · omega

end Progression

namespace Walk

/-- The integers from the number reached to the last one. -/
def progression (r : Walk) : Progression := ⟨r.here.toInt, r.last.toInt, r.stride.toInt⟩

/-- The number reached is on the way. -/
theorem count_pos (r : Walk) : 0 < r.progression.count := by
  have hleads := r.leads_toInt
  rw [Progression.lt_count_iff, Progression.get_zero]
  simp only [Progression.Spans, progression]
  omega

/-- A walk that ends has nothing more on its way. -/
theorem count_of_next?_none {r : Walk} (h : r.next? = none) : r.progression.count = 1 := by
  have hnear : r.isNear := by
    rw [next?] at h
    split at h
    · assumption
    · cases h
  have hleads := r.leads_toInt
  have hpos := r.count_pos
  have hone : ¬ 1 < r.progression.count := by
    rw [isNear_iff] at hnear
    rw [Progression.lt_count_iff, Progression.get]
    simp only [Progression.Spans, progression]
    omega
  omega

/-- After a stride, each number stands one position earlier. -/
theorem get_next? {r r' : Walk} (h : r.next? = some r') (k : Nat) :
    r'.progression.get k = r.progression.get (k + 1) := by
  obtain ⟨-, hhere, -, hstride⟩ := of_next? h
  simp only [Progression.get, progression, hhere, hstride, Nat.cast_add, Nat.cast_one]
  ring

/-- After a stride there is one number less to go through. -/
theorem count_of_next? {r r' : Walk} (h : r.next? = some r') :
    r.progression.count = r'.progression.count + 1 := by
  have hpos := r.count_pos
  have hshift : ∀ k, k + 1 < r.progression.count ↔ k < r'.progression.count := by
    intro k
    obtain ⟨-, hhere, hlast, hstride⟩ := of_next? h
    have hleads := r.leads_toInt
    have hget := get_next? h k
    rw [Progression.lt_count_iff, Progression.lt_count_iff, ← hget]
    have hk : 0 < r.stride.toInt → 0 ≤ k * r.stride.toInt :=
      fun hup => Int.mul_nonneg (Int.natCast_nonneg k) hup.le
    have hk' : r.stride.toInt < 0 → k * r.stride.toInt ≤ 0 :=
      fun hdown => Int.mul_nonpos_of_nonneg_of_nonpos (Int.natCast_nonneg k) hdown.le
    simp only [Progression.Spans, Progression.get, progression, hhere, hlast, hstride]
    omega
  -- the count is the first position that is not on the way
  have hlast := hshift r'.progression.count
  have hbefore := hshift (r'.progression.count - 1)
  omega

/-- The integers of a walk from one number toward another. -/
theorem progression_of_start? {first last stride : Int64} {r : Walk} (h : start? first last stride = some r) :
    r.progression = ⟨first.toInt, last.toInt, stride.toInt⟩ := by
  rw [start?] at h
  split at h
  · cases h
    rfl
  · cases h

/-- Where no walk leads there are no integers. -/
theorem count_of_start?_none {first last stride : Int64} (h : start? first last stride = none) :
    (Progression.mk first.toInt last.toInt stride.toInt).count = 0 := by
  rw [start?] at h
  split at h
  · cases h
  · rename_i hleads
    have hzero : (0 : Int64).toInt = 0 := rfl
    simp only [Int64.lt_iff_toInt_lt, Int64.le_iff_toInt_le, hzero] at hleads
    have hnone : ¬ 0 < (Progression.mk first.toInt last.toInt stride.toInt).count := by
      rw [Progression.lt_count_iff, Progression.get_zero]
      simp only [Progression.Spans]
      omega
    omega

end Walk

namespace Replay

/-- A loop along a walk makes a turn for each of its integers. -/
theorem along_eq_times (turn : Nat → Int64 → Emission PUnit) (r : Walk) (number : Nat → Int64) (k : Nat)
    (hnumber : ∀ i < r.progression.count, number (k + i) = Int64.ofInt (r.progression.get i)) :
    along turn r k = times (fun i => turn i (number i)) r.progression.count k := by
  -- each stride leads nearer to the last number
  induction hleft : r.left using Nat.strong_induction_on generalizing r k with
  | _ n ih =>
    have hhere : number k = r.here := by
      rw [← Nat.add_zero k, hnumber 0 r.count_pos, Progression.get_zero]
      exact Int64.ofInt_toInt r.here
    rw [along]
    cases hnext : r.next? with
    | none =>
      rw [Walk.count_of_next?_none hnext, times, hhere]
      rfl
    | some r' =>
      have hrest : along turn r' (k + 1) = times (fun i => turn i (number i)) r'.progression.count (k + 1) := by
        refine ih r'.left (hleft ▸ Walk.left_lt hnext) r' (k + 1) (fun i hi => ?_) rfl
        rw [Walk.get_next? hnext, Nat.add_assoc, Nat.add_comm 1 i]
        refine hnumber (i + 1) ?_
        rw [Walk.count_of_next? hnext]
        omega
      rw [Walk.count_of_next? hnext, times, hhere]
      simp only [hrest]

/-- A loop from a start to a last number makes a turn for each integer of the progression. -/
theorem walk_eq_times (turn : Nat → Int64 → Emission PUnit) (start last stride : Int64) :
    walk turn start last stride =
      times (fun k => turn k (Int64.ofInt (Progression.get ⟨start.toInt, last.toInt, stride.toInt⟩ k)))
        (Progression.count ⟨start.toInt, last.toInt, stride.toInt⟩) 0 := by
  rw [walk]
  cases hstart : Walk.start? start last stride with
  | none =>
    rw [Walk.count_of_start?_none hstart]
    rfl
  | some r =>
    rw [← Walk.progression_of_start? hstart]
    exact along_eq_times turn r (fun k => Int64.ofInt (r.progression.get k)) 0 fun i _ => by rw [Nat.zero_add]

end Replay

end MacroAsm
