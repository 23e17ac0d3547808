import Mathlib.Data.List.Basic
import Mathlib.Data.List.Sort
import Mathlib.Order.Defs.LinearOrder

/-!
# Ranks in a sorted list

In a sorted list the copies of `x` stand at the places from the number of smaller elements up to the
number of those not greater (`getElem?_eq_some_iff_rank`), so what lies between two places can be told
by counting (`mem_middle_iff`).
-/

namespace Ruse.Lib

variable {α : Type} {xs : List α} {x : α} {i a k : Nat}

theorem mem_middle : x ∈ (xs.drop a).take k ↔ ∃ i, a ≤ i ∧ i < a + k ∧ xs[i]? = some x := by
  rw [List.mem_iff_getElem?]
  constructor
  · rintro ⟨j, hj⟩
    rw [List.getElem?_take] at hj
    split at hj
    · rw [List.getElem?_drop] at hj
      exact ⟨a + j, by omega, by omega, hj⟩
    · cases hj
  · rintro ⟨i, ha, hk, hi⟩
    refine ⟨i - a, ?_⟩
    rw [List.getElem?_take, if_pos (by omega), List.getElem?_drop]
    rwa [show a + (i - a) = i by omega]

variable [LinearOrder α]

theorem countP_le_eq (xs : List α) (x : α) : xs.countP (· ≤ x) = xs.countP (· < x) + xs.count x := by
  induction xs with
  | nil => rfl
  | cons y ys ih =>
    rw [List.countP_cons, List.countP_cons, List.count_cons, ih]
    rcases lt_trichotomy y x with h | rfl | h
    · simp [h, h.le, h.ne]
      omega
    · simp
      omega
    · simp [h.not_gt, h.not_ge, h.ne']

theorem length_eq_ranks (xs : List α) (x : α) : xs.length = xs.countP (· ≤ x) + xs.countP (x < ·) := by
  rw [List.length_eq_countP_add_countP (· ≤ x)]
  simp

theorem length_eq_ranks' (xs : List α) (x : α) : xs.length = xs.countP (· < x) + xs.countP (x ≤ ·) := by
  rw [List.length_eq_countP_add_countP (· < x)]
  simp

/-- The place of an element is not before the smaller ones and before the greater ones. -/
theorem rank_of_getElem? (hs : xs.Pairwise (· ≤ ·)) (hi : xs[i]? = some x) :
    xs.countP (· < x) ≤ i ∧ i < xs.countP (· ≤ x) := by
  induction xs generalizing i with
  | nil => cases hi
  | cons y ys ih =>
    rw [List.pairwise_cons] at hs
    rw [List.countP_cons, List.countP_cons]
    cases i with
    | zero =>
      obtain rfl : y = x := by simpa using hi
      have hnone : ys.countP (· < y) = 0 := by
        rw [List.countP_eq_zero]
        intro z hz
        simpa using hs.1 z hz
      simp [hnone]
    | succ i =>
      have hys : ys[i]? = some x := by simpa using hi
      obtain ⟨hlo, hhi⟩ := ih hs.2 hys
      have hyx : y ≤ x := hs.1 x (List.mem_of_getElem? hys)
      rw [if_pos (decide_eq_true hyx)]
      split
      · omega
      · omega

/-- In an ordered list an element stands behind the smaller ones. -/
theorem getElem?_eq_some_iff_rank (hs : xs.Pairwise (· ≤ ·)) :
    xs[i]? = some x ↔ xs.countP (· < x) ≤ i ∧ i < xs.countP (· ≤ x) := by
  refine ⟨rank_of_getElem? hs, fun ⟨hlo, hhi⟩ => ?_⟩
  have hi : i < xs.length := hhi.trans_le List.countP_le_length
  have hget : xs[i]? = some xs[i] := List.getElem?_eq_getElem hi
  obtain ⟨hlo', hhi'⟩ := rank_of_getElem? hs hget
  rcases lt_trichotomy xs[i] x with h | h | h
  · have hmono : xs.countP (· ≤ xs[i]) ≤ xs.countP (· < x) := by
      refine List.countP_mono_left fun y _ hy => ?_
      rw [decide_eq_true_eq] at hy ⊢
      exact hy.trans_lt h
    omega
  · rw [hget, h]
  · have hmono : xs.countP (· ≤ x) ≤ xs.countP (· < xs[i]) := by
      refine List.countP_mono_left fun y _ hy => ?_
      rw [decide_eq_true_eq] at hy ⊢
      exact hy.trans_lt h
    omega

/-- What lies between two places of a sorted list. -/
theorem mem_middle_iff (hs : xs.Pairwise (· ≤ ·)) (hx : x ∈ xs) (hk : 0 < k) :
    x ∈ (xs.drop a).take k ↔ a < xs.countP (· ≤ x) ∧ xs.countP (· < x) < a + k := by
  rw [mem_middle]
  have hcount := countP_le_eq xs x
  have hpos := List.count_pos_iff.mpr hx
  constructor
  · rintro ⟨i, ha, hik, hi⟩
    obtain ⟨hlo, hhi⟩ := rank_of_getElem? hs hi
    omega
  · rintro ⟨ha, hlo⟩
    refine ⟨max a (xs.countP (· < x)), by omega, by omega, ?_⟩
    rw [getElem?_eq_some_iff_rank hs]
    omega

/-- An element all of whose copies lie in a part without copies is there once. -/
theorem count_eq_one_of_middle (hs : xs.Pairwise (· ≤ ·)) (hx : x ∈ xs)
    (hnodup : ((xs.drop a).take k).Nodup) (ha : a ≤ xs.countP (· < x)) (hk : xs.countP (· ≤ x) ≤ a + k) :
    xs.count x = 1 := by
  have hcount := countP_le_eq xs x
  have hpos := List.count_pos_iff.mpr hx
  by_contra hne
  have hmiddle (i : Nat) (hi : xs.countP (· < x) ≤ i) (hi' : i < xs.countP (· ≤ x)) :
      ((xs.drop a).take k)[i - a]? = some x := by
    rw [List.getElem?_take, if_pos (by omega), List.getElem?_drop, show a + (i - a) = i by omega]
    exact (getElem?_eq_some_iff_rank hs).mpr ⟨hi, hi'⟩
  have hfirst := hmiddle (xs.countP (· < x)) (by omega) (by omega)
  have hsecond := hmiddle (xs.countP (· < x) + 1) (by omega) (by omega)
  obtain ⟨hlt, hfirst⟩ := List.getElem?_eq_some_iff.mp hfirst
  obtain ⟨hlt', hsecond⟩ := List.getElem?_eq_some_iff.mp hsecond
  have hsame := (List.Nodup.getElem_inj_iff hnodup).mp (hfirst.trans hsecond.symm)
  omega

end Ruse.Lib
