import Ruse.Core.SortSafe

/-!
# Runs of bytes

Where a run of bytes of one kind ends (`runEnd`) and where it begins (`runBegin`): the loops by
which a motion or a number goes over a text in both directions.
-/

namespace Ruse.Core

/-- Where the run of bytes of `p` before `i` begins, not before `lo`. -/
def runBegin (p : UInt8 → Bool) (b : Bytes) (lo i : Nat) : Nat :=
  i - ((slice b lo i).reverse.takeWhile p).length

section
variable {p : UInt8 → Bool} {b : Bytes} {lo i j : Nat}

/-- What stops `takeWhile`. -/
theorem takeWhile_stop {l : Bytes} {c : UInt8} (h : l[(l.takeWhile p).length]? = some c) :
    p c = false := by
  have hsplit := congrArg (·[(l.takeWhile p).length]?)
    (List.takeWhile_append_dropWhile (p := p) (l := l))
  simp only [List.getElem?_append_right (Nat.le_refl _), Nat.sub_self] at hsplit
  have hnot := List.head?_dropWhile_not p l
  rw [List.head?_eq_getElem?, hsplit, h] at hnot
  simpa using hnot

theorem runEnd_stop {c : UInt8} (h : b[runEnd p b i]? = some c) : p c = false := by
  apply takeWhile_stop (l := b.drop i)
  rw [List.getElem?_drop]
  exact h

theorem runEnd_eq {e : Nat} (hie : i ≤ e) (hrun : ∀ k, i ≤ k → k < e → ∃ c, b[k]? = some c ∧ p c = true)
    (hstop : ∀ c, b[e]? = some c → p c = false) : runEnd p b i = e := by
  refine Nat.le_antisymm ?_ ?_
  · by_contra hlt
    obtain ⟨c, hc, hpc⟩ := runEnd_mem (p := p) hie (Nat.lt_of_not_le hlt)
    rw [hstop c hc] at hpc
    cases hpc
  · by_contra hlt
    obtain ⟨c, hc, hpc⟩ := hrun _ (le_runEnd p b i) (Nat.lt_of_not_le hlt)
    rw [runEnd_stop hc] at hpc
    cases hpc

/-- The bytes before `i`, the last one first. -/
theorem getElem?_reverse_slice (hi : i ≤ b.length) (hj : j < i - lo) :
    (slice b lo i).reverse[j]? = b[i - 1 - j]? := by
  have hlen : (slice b lo i).length = i - lo := slice_length (by omega) hi
  rw [List.getElem?_reverse (by omega), hlen, slice, List.getElem?_take_of_lt (by omega),
    List.getElem?_drop]
  congr 1
  omega

/-- A run begins at the first of the bytes before the place that all satisfy the predicate. -/
theorem runBegin_spec (hlo : lo ≤ i) (hi : i ≤ b.length) :
    lo ≤ runBegin p b lo i ∧ runBegin p b lo i ≤ i ∧
      (∀ k, runBegin p b lo i ≤ k → k < i → ∃ c, b[k]? = some c ∧ p c = true) ∧
      (lo < runBegin p b lo i → ∀ c, b[runBegin p b lo i - 1]? = some c → p c = false) := by
  have hlen := (List.takeWhile_prefix (l := (slice b lo i).reverse) p).length_le
  rw [List.length_reverse, slice_length hlo hi] at hlen
  refine ⟨by unfold runBegin; omega, Nat.sub_le _ _, fun k hk hki => ?_, fun hpos c hc => ?_⟩
  · unfold runBegin at hk
    have hlt : i - 1 - k < ((slice b lo i).reverse.takeWhile p).length := by omega
    refine ⟨_, ?_, List.mem_takeWhile_imp (List.getElem_mem hlt)⟩
    have hat : (slice b lo i).reverse[i - 1 - k]? = b[k]? := by
      rw [getElem?_reverse_slice hi (by omega)]
      congr 1
      omega
    rw [← hat, ← List.getElem?_eq_getElem hlt,
      ← List.takeWhile_append_dropWhile (p := p) (l := (slice b lo i).reverse),
      List.getElem?_append_left (by simpa using hlt)]
    simp
  · unfold runBegin at hpos hc
    apply takeWhile_stop (l := (slice b lo i).reverse)
    rw [getElem?_reverse_slice hi (by omega), ← hc]
    congr 1
    omega

theorem runBegin_eq {s : Nat} (hlo : lo ≤ s) (hsi : s ≤ i) (hi : i ≤ b.length)
    (hrun : ∀ k, s ≤ k → k < i → ∃ c, b[k]? = some c ∧ p c = true)
    (hstop : lo < s → ∀ c, b[s - 1]? = some c → p c = false) : runBegin p b lo i = s := by
  obtain ⟨hge, hle, hmem, hbefore⟩ := runBegin_spec (p := p) (Nat.le_trans hlo hsi) hi
  refine Nat.le_antisymm ?_ ?_
  · by_contra hlt
    obtain ⟨c, hc, hpc⟩ := hrun (runBegin p b lo i - 1) (by omega) (by omega)
    rw [hbefore (by omega) c hc] at hpc
    cases hpc
  · by_contra hlt
    obtain ⟨c, hc, hpc⟩ := hmem (s - 1) (by omega) (by omega)
    rw [hstop (by omega) c hc] at hpc
    cases hpc

end

theorem mem_slice_iff {b : Bytes} {i j : Nat} {c : UInt8} :
    c ∈ slice b i j ↔ ∃ k, i ≤ k ∧ k < j ∧ b[k]? = some c := by
  rw [slice, List.mem_iff_getElem?]
  constructor
  · rintro ⟨k, hk⟩
    rw [List.getElem?_take] at hk
    split at hk
    · rw [List.getElem?_drop] at hk
      exact ⟨i + k, by omega, by omega, hk⟩
    · cases hk
  · rintro ⟨k, hik, hkj, hk⟩
    refine ⟨k - i, ?_⟩
    rw [List.getElem?_take_of_lt (by omega), List.getElem?_drop, Nat.add_sub_cancel' hik]
    exact hk

/-! ## Runs within a line -/

section
variable {p : UInt8 → Bool} {b : Bytes} {i k e le : Nat}

theorem runEnd_line_le (hi : i ≤ le) (hle : le ≤ b.length) : runEnd p (b.take le) i ≤ le := by
  have hlen : (b.take le).length = le := List.length_take_of_le hle
  have hend := runEnd_le (p := p) (s := b.take le) (i := i) (by rw [hlen]; exact hi)
  rwa [hlen] at hend

theorem runEnd_line_mem (hi : i ≤ k) (hk : k < runEnd p (b.take le) i) :
    k < le ∧ ∃ c, b[k]? = some c ∧ p c = true := by
  obtain ⟨c, hc, hpc⟩ := runEnd_mem hi hk
  have hlt : k < le := by
    have := (List.getElem?_eq_some_iff.mp hc).1
    simp only [List.length_take] at this
    omega
  rw [List.getElem?_take_of_lt hlt] at hc
  exact ⟨hlt, c, hc, hpc⟩

theorem runEnd_line_stop (hlt : runEnd p (b.take le) i < le) {c : UInt8}
    (hc : b[runEnd p (b.take le) i]? = some c) : p c = false := by
  apply runEnd_stop (b := b.take le) (i := i)
  rw [List.getElem?_take_of_lt hlt]
  exact hc

theorem runEnd_line_eq (hie : i ≤ e) (hele : e ≤ le)
    (hrun : ∀ k, i ≤ k → k < e → ∃ c, b[k]? = some c ∧ p c = true)
    (hstop : e < le → ∀ c, b[e]? = some c → p c = false) : runEnd p (b.take le) i = e := by
  apply runEnd_eq hie
  · intro k hik hke
    rw [List.getElem?_take_of_lt (Nat.lt_of_lt_of_le hke hele)]
    exact hrun k hik hke
  · intro c hc
    rw [List.getElem?_take] at hc
    split at hc
    · exact hstop ‹_› c hc
    · cases hc

theorem runEnd_line_within (hik : i ≤ k) (hk : k < runEnd p (b.take le) i) (hle : le ≤ b.length) :
    runEnd p (b.take le) k = runEnd p (b.take le) i := by
  have hi : i ≤ le := by
    have := (runEnd_line_mem hik hk).1
    omega
  apply runEnd_line_eq (Nat.le_of_lt hk) (runEnd_line_le hi hle)
  · intro j hkj hj
    exact (runEnd_line_mem (Nat.le_trans hik hkj) hj).2
  · intro hlt c hc
    exact runEnd_line_stop hlt hc

end

end Ruse.Core
