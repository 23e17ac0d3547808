import Mathlib.Data.Nat.Digits.Defs
import Mathlib.Data.Nat.Log
import Mathlib.Tactic.IntervalCases

/-!
# Numerals in ASCII

Digits of the bases up to 36 as ASCII bytes, the value of a run of them (`numeralValue`) and the
shortest numeral of a number in a base up to 16 (`numeral`). A numeral has the value it was written
for (`numeralValue_numeral`), and zeros before it do not change that (`numeralValue_zeros`).
-/

namespace Ruse.Lib

/-- The value of a digit: `0`–`9`, `a`–`z` or `A`–`Z`. -/
def digitValue (c : UInt8) : Option Nat :=
  if 48 ≤ c ∧ c ≤ 57 then some (c.toNat - 48)
  else if 97 ≤ c ∧ c ≤ 122 then some (c.toNat - 87)
  else if 65 ≤ c ∧ c ≤ 90 then some (c.toNat - 55)
  else none

/-- `c` is a digit of base `r`. -/
def isDigitOf (r : Nat) (c : UInt8) : Bool := (digitValue c).any (· < r)

/-- The value of the digits `ds` in base `r`. -/
def numeralValue (r : Nat) (ds : List UInt8) : Nat :=
  ds.foldl (fun n c => n * r + (digitValue c).getD 0) 0

def digitByte (d : Nat) : UInt8 := (Nat.digitChar d).toNat.toUInt8

/-- The digits of `n` in base `r`, without zeros before them. -/
def numeral (r n : Nat) : List UInt8 := (Nat.toDigits r n).map fun c => c.toNat.toUInt8

section
variable {r n : Nat}

theorem digitValue_digitByte {d : Nat} (hd : d < 16) : digitValue (digitByte d) = some d := by
  interval_cases d <;> rfl

theorem isDigitOf_digitByte {d : Nat} (hd : d < r) (hr : r ≤ 16) : isDigitOf r (digitByte d) = true := by
  rw [isDigitOf, digitValue_digitByte (by omega)]
  exact decide_eq_true hd

theorem isDigitOf_mono {r' : Nat} {c : UInt8} (hr : r ≤ r') (h : isDigitOf r c = true) :
    isDigitOf r' c = true := by
  unfold isDigitOf at h ⊢
  rw [Option.any_eq_true] at h ⊢
  obtain ⟨d, hd, hlt⟩ := h
  exact ⟨d, hd, decide_eq_true (Nat.lt_of_lt_of_le (of_decide_eq_true hlt) hr)⟩

theorem numeralValue_concat (r : Nat) (ds : List UInt8) (c : UInt8) :
    numeralValue r (ds ++ [c]) = numeralValue r ds * r + (digitValue c).getD 0 := by
  rw [numeralValue, List.foldl_append]
  rfl

theorem numeral_eq (hr : 1 < r) (n : Nat) :
    numeral r n = (if n < r then [] else numeral r (n / r)) ++ [digitByte (n % r)] := by
  rw [numeral, Nat.toDigits_eq_if hr]
  split
  · rename_i hlt
    rw [Nat.mod_eq_of_lt hlt]
    rfl
  · rw [List.map_append]
    rfl

theorem numeral_ne_nil (r n : Nat) : numeral r n ≠ [] := by
  rw [numeral, ne_eq, List.map_eq_nil_iff]
  exact Nat.toDigits_ne_nil

theorem length_numeral_le_iff {k : Nat} (hr : 1 < r) (hk : 0 < k) :
    (numeral r n).length ≤ k ↔ n < r ^ k := by
  rw [numeral, List.length_map]
  exact Nat.length_toDigits_le_iff hr hk

theorem length_numeral (hr : 1 < r) (n : Nat) : (numeral r n).length = Nat.log r n + 1 := by
  have hpos := List.length_pos_iff.mpr (numeral_ne_nil r n)
  refine Nat.le_antisymm ((length_numeral_le_iff hr (Nat.succ_pos _)).mpr
    (Nat.lt_pow_succ_log_self hr n)) ?_
  rcases Nat.eq_zero_or_pos n with rfl | hn
  · rwa [Nat.log_zero_right]
  · exact (Nat.log_lt_iff_lt_pow hr (by omega)).mpr ((length_numeral_le_iff hr hpos).mp (Nat.le_refl _))

theorem numeralValue_numeral (hr : 1 < r) (hr16 : r ≤ 16) (n : Nat) :
    numeralValue r (numeral r n) = n := by
  induction n using Nat.strongRecOn with
  | _ n ih =>
    have hmod : n % r < 16 := Nat.lt_of_lt_of_le (Nat.mod_lt n (by omega)) hr16
    rw [numeral_eq hr, numeralValue_concat, digitValue_digitByte hmod, Option.getD_some]
    split
    · rename_i hlt
      rw [Nat.mod_eq_of_lt hlt]
      exact (congrArg (· + n) (Nat.zero_mul r)).trans (Nat.zero_add n)
    · rename_i hge
      rw [ih (n / r) (Nat.div_lt_self (by omega) hr), Nat.mul_comm]
      exact Nat.div_add_mod n r

theorem isDigitOf_numeral (hr : 1 < r) (hr16 : r ≤ 16) (n : Nat) :
    ∀ c ∈ numeral r n, isDigitOf r c = true := by
  induction n using Nat.strongRecOn with
  | _ n ih =>
    intro c hc
    rw [numeral_eq hr, List.mem_append, List.mem_singleton] at hc
    rcases hc with hc | rfl
    · split at hc
      · exact absurd hc List.not_mem_nil
      · exact ih (n / r) (Nat.div_lt_self (by omega) hr) c hc
    · exact isDigitOf_digitByte (Nat.mod_lt n (by omega)) hr16

/-- Zeros before a numeral change nothing. -/
theorem numeralValue_zeros (r k : Nat) (ds : List UInt8) :
    numeralValue r (List.replicate k 48 ++ ds) = numeralValue r ds := by
  induction k with
  | zero => rfl
  | succ k ih =>
    rw [List.replicate_succ, List.cons_append]
    have hzero : (0 * r + (digitValue 48).getD 0 : Nat) = 0 := by
      rw [Nat.zero_mul]
      rfl
    rw [numeralValue, List.foldl_cons, hzero]
    exact ih

end

end Ruse.Lib
