import Mathlib.Order.Bounds.Basic
import MacroAsm.Text.Basic

/-!
# Positions in texts

The positions of a text are counted from zero. A slice has the bytes at the positions between its bounds
(`Text.slice_eq_pick`). A pattern may begin at any position up to the length, where only the empty one does, and
searching finds the least one from where it starts (`Text.find?_isLeast`, `Text.not_beginsAt_of_find?`). The slice
there is the pattern (`Text.BeginsAt.slice_eq`).
-/

namespace MacroAsm

namespace Text

variable {t pat : Text}

section Pick

/-- The bytes at the positions with a property, in order. -/
def pick (t : Text) (p : Nat → Prop) [DecidablePred p] : Text :=
  ⟨(t.bytes.zipIdx.filter fun entry => decide (p entry.2)).map Prod.fst⟩

variable {p q : Nat → Prop} [DecidablePred p] [DecidablePred q]

/-- The property matters at positions only. -/
theorem pick_congr (h : ∀ i < t.length, p i ↔ q i) : t.pick p = t.pick q := by
  rw [pick, pick, List.filter_congr]
  intro entry hentry
  have hi := (List.mem_zipIdx hentry).2.1
  exact decide_eq_decide.2 (h entry.2 (by rw [length]; omega))

/-- Nothing is picked exactly if no position has the property. -/
theorem pick_eq_empty_iff : t.pick p = empty ↔ ∀ i < t.length, ¬ p i := by
  constructor
  · intro hempty i hi h
    rw [length] at hi
    have hmem : (t.bytes[i], i) ∈ t.bytes.zipIdx := by
      rw [List.mem_zipIdx_iff_getElem?]
      exact List.getElem?_eq_getElem hi
    have hpicked : t.bytes[i] ∈ (t.pick p).bytes :=
      List.mem_map_of_mem (List.mem_filter.2 ⟨hmem, decide_eq_true h⟩)
    rw [hempty] at hpicked
    cases hpicked
  · intro hnone
    rw [pick_congr (q := fun _ => False) fun i hi => iff_false_intro (hnone i hi)]
    simp [pick, empty]

/-- The elements of a list between two positions, if its first one is at position `k`. -/
theorem map_filter_zipIdx {α : Type} (l : List α) (k first last : Nat) :
    ((l.zipIdx k).filter fun entry => decide (first ≤ entry.2 ∧ entry.2 < last)).map Prod.fst =
      (l.drop (first - k)).take (last - max first k) := by
  induction l generalizing k with
  | nil => simp
  | cons x rest ih =>
    rw [List.zipIdx_cons, List.filter_cons]
    by_cases hfirst : first ≤ k
    · -- all of the list is behind the first position, and its head is taken if it is before the last one
      rw [Nat.max_eq_right hfirst, Nat.sub_eq_zero_of_le hfirst, List.drop_zero]
      by_cases hlast : k < last
      · obtain ⟨n, rfl⟩ := Nat.exists_eq_add_of_lt hlast
        rw [if_pos (by simp [hfirst, hlast]), List.map_cons, ih, Nat.max_eq_right (by omega),
          Nat.sub_eq_zero_of_le (show first ≤ k + 1 by omega), List.drop_zero,
          show k + n + 1 - k = n + 1 by omega, List.take_succ_cons, show k + n + 1 - (k + 1) = n by omega]
      · rw [if_neg (by simp [hlast]), ih, Nat.sub_eq_zero_of_le (not_lt.1 hlast),
          Nat.sub_eq_zero_of_le (by omega), List.take_zero, List.take_zero]
    · -- the head is dropped
      obtain ⟨n, rfl⟩ := Nat.exists_eq_add_of_lt (not_le.1 hfirst)
      rw [if_neg (by simp [hfirst]), ih, Nat.max_eq_left (by omega), Nat.max_eq_left (by omega),
        show k + n + 1 - k = n + 1 by omega, List.drop_succ_cons, show k + n + 1 - (k + 1) = n by omega]

/-- A slice has the bytes between its bounds. -/
theorem slice_eq_pick (t : Text) (first last : Nat) :
    t.slice first last = t.pick fun i => first ≤ i ∧ i < last := by
  rw [slice, pick, map_filter_zipIdx]
  simp

end Pick

section Search

/-- A pattern begins at a position of a text. -/
def BeginsAt (pat t : Text) (i : Nat) : Prop :=
  ∃ before after : Text, t = before ++ pat ++ after ∧ before.length = i

/-- A pattern begins where it is the beginning of what is left of the text. -/
theorem beginsAt_iff {i : Nat} :
    pat.BeginsAt t i ↔ i ≤ t.length ∧ pat.bytes <+: t.bytes.drop i := by
  constructor
  · rintro ⟨before, after, rfl, rfl⟩
    refine ⟨by simp only [length_append]; omega, ?_⟩
    rw [bytes_append, bytes_append, List.append_assoc, length, List.drop_left]
    exact List.prefix_append _ _
  · rintro ⟨hi, after, hafter⟩
    refine ⟨⟨t.bytes.take i⟩, ⟨after⟩, ?_, ?_⟩
    · refine congrArg mk ?_
      show t.bytes = t.bytes.take i ++ pat.bytes ++ after
      rw [List.append_assoc, hafter, List.take_append_drop]
    · rw [length, List.length_take]
      exact Nat.min_eq_left hi

/-- A pattern ends within the text. -/
theorem BeginsAt.add_length_le {i : Nat} (h : pat.BeginsAt t i) : i + pat.length ≤ t.length := by
  obtain ⟨before, after, rfl, rfl⟩ := h
  simp only [length_append]
  omega

theorem BeginsAt.slice_eq {i : Nat} (h : pat.BeginsAt t i) : t.slice i (i + pat.length) = pat := by
  obtain ⟨-, after, hafter⟩ := beginsAt_iff.1 h
  rw [slice, ← hafter, Nat.add_sub_cancel_left, length, List.take_left]

/-- What searching finds in a list is the first place where the pattern is a beginning of the rest. -/
theorem exists_of_findFrom {p bs : List UInt8} {k i : Nat} (h : findFrom p bs k = some i) :
    ∃ n ≤ bs.length, i = k + n ∧ p <+: bs.drop n ∧ ∀ m < n, ¬ p <+: bs.drop m := by
  induction bs generalizing k with
  | nil =>
    rw [findFrom] at h
    split at h
    · rename_i hp
      cases h
      rw [List.isEmpty_iff.1 hp]
      exact ⟨0, le_rfl, rfl, List.nil_prefix, fun m hm => absurd hm (Nat.not_lt_zero m)⟩
    · cases h
  | cons b rest ih =>
    rw [findFrom] at h
    split at h
    · rename_i hp
      cases h
      exact ⟨0, Nat.zero_le _, rfl, List.isPrefixOf_iff_prefix.1 hp,
        fun m hm => absurd hm (Nat.not_lt_zero m)⟩
    · rename_i hp
      obtain ⟨n, hn, rfl, hfound, hfirst⟩ := ih h
      refine ⟨n + 1, Nat.succ_le_succ hn, by omega, hfound, fun m hm => ?_⟩
      cases m with
      | zero => exact fun hprefix => hp (List.isPrefixOf_iff_prefix.2 hprefix)
      | succ m => exact hfirst m (by omega)

/-- If searching finds nothing in a list then the pattern is a beginning of no rest of it. -/
theorem not_prefix_of_findFrom {p bs : List UInt8} {k n : Nat} (h : findFrom p bs k = none)
    (hn : n ≤ bs.length) : ¬ p <+: bs.drop n := by
  induction bs generalizing k n with
  | nil =>
    rw [findFrom] at h
    split at h
    · cases h
    · rename_i hp
      rw [List.drop_nil, List.prefix_nil]
      exact fun hnil => hp (List.isEmpty_iff.2 hnil)
  | cons b rest ih =>
    rw [findFrom] at h
    split at h
    · cases h
    · rename_i hp
      cases n with
      | zero => exact fun hprefix => hp (List.isPrefixOf_iff_prefix.2 hprefix)
      | succ n => exact ih h (Nat.le_of_succ_le_succ hn)

variable {start i : Nat}

/-- What searching finds is the least position at which the pattern begins, from where the search starts. -/
theorem find?_isLeast (hstart : start ≤ t.length) (h : t.find? pat start = some i) :
    IsLeast {i | start ≤ i ∧ pat.BeginsAt t i} i := by
  obtain ⟨n, hn, rfl, hfound, hfirst⟩ := exists_of_findFrom h
  rw [List.length_drop] at hn
  rw [List.drop_drop] at hfound
  refine ⟨⟨Nat.le_add_right start n, beginsAt_iff.2 ⟨by rw [length] at *; omega, hfound⟩⟩, ?_⟩
  rintro j ⟨hj, hbegins⟩
  obtain ⟨m, rfl⟩ := Nat.exists_eq_add_of_le hj
  refine Nat.add_le_add_left (not_lt.1 fun hm => hfirst m hm ?_) start
  rw [List.drop_drop]
  exact (beginsAt_iff.1 hbegins).2

/-- If searching finds nothing then the pattern begins nowhere from where the search starts. -/
theorem not_beginsAt_of_find? (h : t.find? pat start = none) (hi : start ≤ i) : ¬ pat.BeginsAt t i := by
  intro hbegins
  obtain ⟨hlength, hprefix⟩ := beginsAt_iff.1 hbegins
  obtain ⟨n, rfl⟩ := Nat.exists_eq_add_of_le hi
  refine not_prefix_of_findFrom h (n := n) ?_ ?_
  · rw [List.length_drop]
    rw [length] at hlength
    omega
  · rwa [List.drop_drop]

end Search

end Text

end MacroAsm
