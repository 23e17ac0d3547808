import Mathlib.Data.Nat.Bitwise
import Mathlib.Data.List.GetD
import Mathlib.Tactic.Ring

/-!
# Fenwick trees

A binary indexed tree over `n` positions, kept as a list: entry `i` (counted from
one) holds the sum of what was added in the `lowbit i` positions that end at `i`.
`add` walks up from a position by adding lowest bits, `sum` walks down by
removing them.

The two walks meet once when the position added at is not past the one asked
for, and never otherwise (`sum_add`): the blocks of the downward walk are
disjoint, and the upward walk from a position visits the one that holds it
(`sumLoop_modify`).
-/

namespace Ruse.Lib.Fenwick

/-! ## The lowest set bit -/

/-- The lowest set bit of `i`, `0` for `0`. -/
def lowbit (i : Nat) : Nat := i - (i &&& (i - 1))

theorem lowbit_odd (q : Nat) : lowbit (2 * q + 1) = 1 := by
  have hand : (2 * q + 1) &&& (2 * q) = 2 * q := by
    have h := Nat.land_bit true q false q
    simp only [Nat.bit_true, Nat.bit_false, Bool.true_and, Nat.and_self] at h
    simpa [Nat.mul_comm] using h
  rw [lowbit, Nat.add_sub_cancel, hand]
  omega

theorem lowbit_even {q : Nat} (hq : 0 < q) : lowbit (2 * q) = 2 * lowbit q := by
  have hand : (2 * q) &&& (2 * q - 1) = 2 * (q &&& (q - 1)) := by
    have h := Nat.land_bit false q true (q - 1)
    have hpred : Nat.bit true (q - 1) = 2 * q - 1 := by
      show 2 * (q - 1) + 1 = 2 * q - 1
      omega
    rw [hpred] at h
    simpa using h
  rw [lowbit, hand, lowbit]
  omega

/-- What is known of a lowest set bit: it is positive, divides its number, and
divides every multiple of a power of two its number is no multiple of. -/
theorem lowbit_spec {i : Nat} (hi : 0 < i) :
    0 < lowbit i ∧ lowbit i ∣ i ∧ (∃ t, lowbit i = 2 ^ t ∧ ¬ 2 ^ (t + 1) ∣ i) := by
  induction i using Nat.strongRecOn with
  | ind i ih =>
    rcases Nat.even_or_odd' i with ⟨q, rfl | rfl⟩
    · obtain ⟨hpos, hdvd, t, ht, hnot⟩ := ih q (by omega) (by omega)
      rw [lowbit_even (by omega)]
      refine ⟨by omega, Nat.mul_dvd_mul_left 2 hdvd, t + 1, by rw [ht, Nat.pow_succ'], ?_⟩
      intro habs
      rw [Nat.pow_succ'] at habs
      exact hnot (Nat.dvd_of_mul_dvd_mul_left (by omega) habs)
    · rw [lowbit_odd]
      refine ⟨Nat.one_pos, Nat.one_dvd _, 0, rfl, ?_⟩
      intro habs
      rw [Nat.zero_add, Nat.pow_one] at habs
      omega

theorem lowbit_pos {i : Nat} (hi : 0 < i) : 0 < lowbit i := (lowbit_spec hi).1

/-- A position inside the block that ends at `k` steps up inside that block. -/
theorem add_lowbit_le {i k : Nat} (hi : 0 < i) (hlow : k - lowbit k < i) (hik : i < k) :
    i + lowbit i ≤ k := by
  have hk : 0 < k := by omega
  obtain ⟨-, hkdvd, s, hs, -⟩ := lowbit_spec hk
  obtain ⟨-, hidvd, t, ht, hnot⟩ := lowbit_spec hi
  -- `i` is no multiple of `k`'s bit, so its own bit divides `k`
  have hts : lowbit i ∣ k := by
    rcases Nat.lt_or_ge t s with hlt | hge
    · refine Nat.dvd_trans ?_ hkdvd
      rw [ht, hs]
      exact Nat.pow_dvd_pow 2 (Nat.le_of_lt hlt)
    · exfalso
      have hbit : lowbit k ∣ i := by
        refine Nat.dvd_trans ?_ hidvd
        rw [ht, hs]
        exact Nat.pow_dvd_pow 2 hge
      have hdiff : lowbit k ∣ k - i := Nat.dvd_sub hkdvd hbit
      have := Nat.le_of_dvd (by omega) hdiff
      omega
  have hdiff : lowbit i ∣ k - i := Nat.dvd_sub hts hidvd
  have := Nat.le_of_dvd (by omega) hdiff
  omega

theorem two_lowbit_dvd {j : Nat} (hj : 0 < j) : 2 * lowbit j ∣ j - lowbit j := by
  obtain ⟨-, hdvd, t, ht, hnot⟩ := lowbit_spec hj
  obtain ⟨m, hm⟩ := hdvd
  have hodd : m = 2 * (m / 2) + 1 := by
    by_contra heven
    have hm2 : m = 2 * (m / 2) := by omega
    refine hnot ⟨m / 2, ?_⟩
    rw [hm, ht, Nat.pow_succ, Nat.mul_assoc, ← hm2]
  refine ⟨m / 2, ?_⟩
  have hsub : j - lowbit j = lowbit j * (2 * (m / 2)) := by
    have hj' : j = lowbit j * (2 * (m / 2)) + lowbit j := by
      calc j = lowbit j * m := hm
        _ = lowbit j * (2 * (m / 2) + 1) := by rw [← hodd]
        _ = _ := by ring
    omega
  rw [hsub]
  ring

/-- A step up from `i` passes every `j` whose range starts below. -/
theorem lt_up_of_start_lt {i j : Nat} (hi : 0 < i) (hj : 0 < j) (hle : i ≤ j - lowbit j)
    (hlt : j - lowbit j < i + lowbit i) : j < i + lowbit i := by
  obtain ⟨hpos, hidvd, t, ht, hnot⟩ := lowbit_spec hi
  obtain ⟨hjpos, -, s, hs, -⟩ := lowbit_spec hj
  have hstart := two_lowbit_dvd hj
  have hstart : 2 ^ (s + 1) ∣ j - lowbit j := by
    rw [Nat.pow_succ', ← hs]
    exact hstart
  -- the step from `i` is at least twice the block
  have hst : s + 1 ≤ t := by
    by_contra hts
    have hdvd : lowbit i ∣ j - lowbit j - i := by
      refine Nat.dvd_sub (Nat.dvd_trans ?_ hstart) hidvd
      rw [ht]
      exact Nat.pow_dvd_pow 2 (by omega)
    rcases Nat.eq_or_lt_of_le hle with heq | hlt'
    · rw [← heq] at hstart
      exact hnot (Nat.dvd_trans (Nat.pow_dvd_pow 2 (by omega)) hstart)
    · have := Nat.le_of_dvd (by omega) hdvd
      omega
  have hend : 2 ^ (s + 1) ∣ i + lowbit i := by
    have hbit : 2 ^ (s + 1) ∣ lowbit i := ht ▸ Nat.pow_dvd_pow 2 hst
    exact Nat.dvd_add (Nat.dvd_trans hbit hidvd) hbit
  have hgap := Nat.le_of_dvd (by rw [hs] at hlt; omega) (Nat.dvd_sub hend hstart)
  rw [Nat.pow_succ] at hgap
  omega

/-! ## The two walks -/

variable {α : Type*} [AddCommGroup α]

/-- The upward walk of `add`, from the one-based position `i`. -/
def addLoop (d : α) : Nat → Nat → List α → List α
  | 0, _, t => t
  | fuel + 1, i, t =>
    if i ≤ t.length then addLoop d fuel (i + lowbit i) (t.modify (i - 1) (· + d)) else t

/-- Add `d` at the zero-based position `r`. -/
def add (t : List α) (r : Nat) (d : α) : List α := addLoop d t.length (r + 1) t

/-- The downward walk of `sum`, from the one-based position `i`. -/
def sumLoop (t : List α) : Nat → Nat → α → α
  | 0, _, s => s
  | fuel + 1, i, s =>
    if i > 0 then sumLoop t fuel (i - lowbit i) (s + t.getD (i - 1) 0) else s

/-- The sum of what was added at the zero-based positions up to `r`. -/
def sum (t : List α) (r : Nat) : α := sumLoop t (r + 1) (r + 1) 0

/-! ## What the walks compute -/

theorem sumLoop_acc (t : List α) (fuel j : Nat) (s d : α) :
    sumLoop t fuel j (s + d) = sumLoop t fuel j s + d := by
  induction fuel generalizing j s with
  | zero => rfl
  | succ fuel ih =>
    unfold sumLoop
    split
    · rw [← ih, add_right_comm]
    · rfl

/-- Adding in one block shows in the sums that walk through it. -/
theorem sumLoop_modify {t : List α} {i j fuel : Nat} (d s : α) (hi : 0 < i)
    (hlen : i ≤ t.length) (hfuel : j ≤ fuel) :
    sumLoop (t.modify (i - 1) (· + d)) fuel j s =
      sumLoop t fuel j s + if i ≤ j ∧ j < i + lowbit i then d else 0 := by
  induction fuel generalizing j s with
  | zero =>
    rw [if_neg (by omega), add_zero]
    rfl
  | succ fuel ih =>
    unfold sumLoop
    split
    · rename_i hj
      have hlow := lowbit_pos hj
      have hget : (t.modify (i - 1) (· + d)).getD (j - 1) 0 =
          t.getD (j - 1) 0 + if j = i then d else 0 := by
        simp only [List.getD_eq_getElem?_getD, List.getElem?_modify]
        by_cases hji : j = i
        · subst hji
          rw [List.getElem?_eq_getElem (by omega)]
          simp
        · have hne : ¬ i - 1 = j - 1 := by omega
          simp [hji, hne]
      rw [ih _ (by omega), hget, ← add_assoc, sumLoop_acc, add_assoc]
      congr 1
      -- the walk goes through the block now, or further down, or not at all
      by_cases hji : j = i
      · subst hji
        rw [if_pos rfl, if_neg (by omega), if_pos (by omega), add_zero]
      · rw [if_neg hji, zero_add]
        congr 1
        refine propext ⟨fun hin => ⟨by omega, lt_up_of_start_lt hi hj hin.1 hin.2⟩,
          fun hin => ⟨?_, by omega⟩⟩
        by_contra hlt
        have := add_lowbit_le hi (by omega) (by omega : i < j)
        omega
    · rw [if_neg (by omega), add_zero]

theorem length_addLoop (d : α) (fuel i : Nat) (t : List α) :
    (addLoop d fuel i t).length = t.length := by
  induction fuel generalizing i t with
  | zero => rfl
  | succ fuel ih =>
    unfold addLoop
    split
    · rw [ih, List.length_modify]
    · rfl

@[simp] theorem length_add (t : List α) (r : Nat) (d : α) : (add t r d).length = t.length :=
  length_addLoop d _ _ t

/-- An addition at `i` shows in the prefix sums from `i` on. -/
theorem sumLoop_addLoop {t : List α} {i j : Nat} (fuel : Nat) (d s : α) (hi : 0 < i)
    (hj : j ≤ t.length) (hfuel : t.length < i + fuel) :
    sumLoop (addLoop d fuel i t) j j s = sumLoop t j j s + if i ≤ j then d else 0 := by
  induction fuel generalizing i t with
  | zero =>
    rw [if_neg (by omega), add_zero]
    rfl
  | succ fuel ih =>
    have hlow := lowbit_pos hi
    unfold addLoop
    split
    · rename_i hlen
      rw [ih (by omega) (by rw [List.length_modify]; exact hj)
        (by rw [List.length_modify]; omega), sumLoop_modify d s hi hlen (Nat.le_refl j),
        add_assoc]
      by_cases hij : i ≤ j
      · by_cases hup : i + lowbit i ≤ j
        · rw [if_neg (by omega), if_pos hup, if_pos hij, zero_add]
        · rw [if_pos (by omega), if_neg hup, if_pos hij, add_zero]
      · rw [if_neg (by omega), if_neg (by omega), if_neg hij, add_zero]
    · rw [if_neg (by omega), add_zero]

/-- Adding at a position adds to the sums from there on. -/
theorem sum_add {t : List α} {r : Nat} (r' : Nat) (d : α) (hr : r < t.length) :
    sum (add t r' d) r = sum t r + if r' ≤ r then d else 0 := by
  have h := sumLoop_addLoop t.length d 0 (Nat.succ_pos r') hr (by omega)
  simp only [Nat.succ_le_succ_iff] at h
  exact h

theorem sum_replicate (n r : Nat) : sum (List.replicate n (0 : α)) r = 0 := by
  have hloop : ∀ fuel j, sumLoop (List.replicate n (0 : α)) fuel j 0 = 0 := by
    intro fuel
    induction fuel with
    | zero => exact fun _ => rfl
    | succ fuel ih =>
      intro j
      unfold sumLoop
      split
      · have hget : (List.replicate n (0 : α)).getD (j - 1) 0 = 0 := by simp
        rw [hget, add_zero, ih]
      · rfl
  exact hloop _ _

end Ruse.Lib.Fenwick
