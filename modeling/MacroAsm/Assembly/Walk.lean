/-!
# Walks over numbers

A loop over numbers goes from a first number by a stride until the last one is nearer than a stride. All of
them are 64-bit integers, and the way between two of those may be longer than any of them, so distances are
unsigned. A stride is only made if it does not lead past the last number, and then the sum cannot wrap around.
-/

namespace MacroAsm

/-- The distance of two numbers. -/
def distance (a b : Int64) : UInt64 :=
  if b < a then a.toUInt64 - b.toUInt64 else b.toUInt64 - a.toUInt64

/-- The word of a number is the number modulo 2^64. -/
theorem toNat_toUInt64 (a : Int64) : (a.toUInt64.toNat : Int) = a.toInt % 0x10000000000000000 := by
  have hcond := a.toBitVec.toInt_eq_toNat_cond
  have hlt := a.toBitVec.isLt
  have hnat : a.toUInt64.toNat = a.toBitVec.toNat := rfl
  rw [Int64.toInt_toBitVec] at hcond
  split at hcond
  · omega
  · omega

/-- Distances do not wrap around. -/
theorem toNat_distance (a b : Int64) : (distance a b).toNat = (b.toInt - a.toInt).natAbs := by
  have ha := toNat_toUInt64 a
  have hb := toNat_toUInt64 b
  have hlowA := a.le_toInt
  have hhighA := a.toInt_lt
  have hlowB := b.le_toInt
  have hhighB := b.toInt_lt
  rw [distance]
  split
  · rename_i h
    rw [Int64.lt_iff_toInt_lt] at h
    rw [UInt64.toNat_sub]
    omega
  · rename_i h
    rw [Int64.lt_iff_toInt_lt] at h
    rw [UInt64.toNat_sub]
    omega

/-- A loop over numbers on its way: the number it has reached, the last one it may reach, and the stride, which
leads from the one toward the other. -/
structure Walk where
  /-- The number it has reached. -/
  here : Int64
  /-- The last number, which is part of the loop if it is reached. -/
  last : Int64
  /-- The distance between neighbours. -/
  stride : Int64
  /-- The stride leads toward the last number. -/
  leads : 0 < stride ∧ here ≤ last ∨ stride < 0 ∧ last ≤ here

namespace Walk

/-- The walk from a number to a last one, unless that lies on the other side than the stride leads. -/
def start? (first last stride : Int64) : Option Walk :=
  if h : 0 < stride ∧ first ≤ last ∨ stride < 0 ∧ last ≤ first then some ⟨first, last, stride, h⟩
  else none

/-- Whether the last number is nearer than a stride. -/
def isNear (r : Walk) : Prop := distance r.here r.last < distance 0 r.stride

instance (r : Walk) : Decidable r.isNear := inferInstanceAs (Decidable (_ < _))

/-- The stride leads toward the last number among the integers. -/
theorem leads_toInt (r : Walk) : 0 < r.stride.toInt ∧ r.here.toInt ≤ r.last.toInt ∨
    r.stride.toInt < 0 ∧ r.last.toInt ≤ r.here.toInt := by
  have hleads := r.leads
  simp only [Int64.lt_iff_toInt_lt, Int64.le_iff_toInt_le] at hleads
  exact hleads

/-- Nearness among the integers. -/
theorem isNear_iff (r : Walk) :
    r.isNear ↔ (r.last.toInt - r.here.toInt).natAbs < r.stride.toInt.natAbs := by
  have hzero : (0 : Int64).toInt = 0 := rfl
  rw [isNear, UInt64.lt_iff_toNat_lt, toNat_distance, toNat_distance, hzero, Int.sub_zero]

/-- A stride that does not lead past the last number does not wrap around. -/
theorem toInt_add {r : Walk} (h : ¬ r.isNear) :
    (r.here + r.stride).toInt = r.here.toInt + r.stride.toInt := by
  have hleads := r.leads_toInt
  have hlow := r.last.le_toInt
  have hhigh := r.last.toInt_lt
  have hlowHere := r.here.le_toInt
  have hhighHere := r.here.toInt_lt
  rw [isNear_iff] at h
  rw [Int64.toInt_add]
  -- the sum lies between the number reached and the last one, which are numbers of 64 bits
  apply Int.bmod_eq_of_le
  · omega
  · omega

/-- After a stride that does not lead past the last number, the stride still leads toward it. -/
theorem leads_add {r : Walk} (h : ¬ r.isNear) :
    0 < r.stride ∧ r.here + r.stride ≤ r.last ∨ r.stride < 0 ∧ r.last ≤ r.here + r.stride := by
  have hleads := r.leads_toInt
  have hadd := toInt_add h
  have hzero : (0 : Int64).toInt = 0 := rfl
  rw [isNear_iff] at h
  simp only [Int64.lt_iff_toInt_lt, Int64.le_iff_toInt_le, hzero]
  omega

/-- The walk after one more stride, unless the last number is nearer than that. -/
def next? (r : Walk) : Option Walk :=
  if h : r.isNear then none else some ⟨r.here + r.stride, r.last, r.stride, leads_add h⟩

/-- What a stride does: it goes on from the number reached, without wrapping around, and keeps the rest. -/
theorem of_next? {r r' : Walk} (h : r.next? = some r') : ¬ r.isNear ∧
    r'.here.toInt = r.here.toInt + r.stride.toInt ∧ r'.last = r.last ∧ r'.stride = r.stride := by
  rw [next?] at h
  split at h
  · cases h
  · rename_i hfar
    cases h
    exact ⟨hfar, toInt_add hfar, rfl, rfl⟩

/-- How far it is to the last number. -/
def left (r : Walk) : Nat := (distance r.here r.last).toNat

/-- A stride leads nearer to the last number. -/
theorem left_lt {r r' : Walk} (h : r.next? = some r') : r'.left < r.left := by
  obtain ⟨hfar, hhere, hlast, -⟩ := of_next? h
  have hleads := r.leads_toInt
  rw [isNear_iff] at hfar
  rw [left, left, toNat_distance, toNat_distance, hhere, hlast]
  omega

end Walk

end MacroAsm
