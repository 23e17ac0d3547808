import Mathlib.Order.Monotone.Basic
import Mathlib.Order.Interval.Set.Monotone

/-!
# Stops at positive distances

A line cut into intervals of positive widths, `width k` the width of interval `k`: the
stop `stop width k` is where interval `k` begins, and every column lies in exactly one
interval.
-/

namespace Ruse.Lib

/-- Where interval `k` begins. -/
def stop (width : Nat → Nat) : Nat → Nat
  | 0 => 0
  | k + 1 => stop width k + width k

/-- Column `c` lies in interval `k`. -/
structure InInterval (width : Nat → Nat) (k c : Nat) : Prop where
  start_le : stop width k ≤ c
  lt_next : c < stop width (k + 1)

variable {width : Nat → Nat} (hpos : ∀ k, 0 < width k)
include hpos

theorem stop_strictMono : StrictMono (stop width) := by
  refine strictMono_nat_of_lt_succ fun k => ?_
  exact Nat.lt_add_of_pos_right (hpos k)

theorem inInterval_stop (k : Nat) : InInterval width k (stop width k) :=
  ⟨Nat.le_refl _, stop_strictMono hpos (Nat.lt_succ_self k)⟩

theorem InInterval.unique {j k c : Nat} (hj : InInterval width j c) (hk : InInterval width k c) :
    j = k := by
  have hjk := (stop_strictMono hpos).lt_iff_lt.mp (Nat.lt_of_le_of_lt hj.start_le hk.lt_next)
  have hkj := (stop_strictMono hpos).lt_iff_lt.mp (Nat.lt_of_le_of_lt hk.start_le hj.lt_next)
  omega

omit hpos in
/-- Where all widths from `n` on are `w`, the stops lie `w` apart. -/
theorem stop_add {n w : Nat} (hw : ∀ k, n ≤ k → width k = w) (j : Nat) :
    stop width (n + j) = stop width n + j * w := by
  induction j with
  | zero => simp
  | succ j ih =>
    show stop width (n + j) + width (n + j) = _
    rw [ih, hw (n + j) (Nat.le_add_right n j), Nat.succ_mul, Nat.add_assoc]

omit hpos in
/-- So a column from the `n`-th stop on lies as many intervals further as `w` fits. -/
theorem inInterval_div {n w : Nat} (hw : ∀ k, n ≤ k → width k = w) (hwpos : 0 < w) {c : Nat}
    (hc : stop width n ≤ c) : InInterval width (n + (c - stop width n) / w) c := by
  have hdiv := Nat.div_add_mod (c - stop width n) w
  have hmod := Nat.mod_lt (c - stop width n) hwpos
  have hcomm := Nat.mul_comm w ((c - stop width n) / w)
  constructor
  · rw [stop_add hw]
    omega
  · rw [Nat.add_assoc, stop_add hw, Nat.succ_mul]
    omega

end Ruse.Lib
