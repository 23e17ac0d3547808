import Mathlib.Data.List.Basic

/-!
# What two lists share at the start

The longest run two lists have in common from their start, as the number of its
elements (`SharedHead`). It is determined by where it stops (`SharedHead.unique`), so
every loop that finds such a run finds the same one.
-/

namespace Ruse.Lib

variable {α : Type*}

/-- The first `n` bytes are all that `a` and `b` share from their start. -/
structure SharedHead (a b : List α) (n : Nat) : Prop where
  left : n ≤ a.length
  right : n ≤ b.length
  same : ∀ i < n, a[i]? = b[i]?
  stop : n < a.length → n < b.length → a[n]? ≠ b[n]?

/-- The pairs that agree from the start on are the shared head. -/
theorem sharedHead [BEq α] [LawfulBEq α] (a b : List α) :
    SharedHead a b ((a.zip b).takeWhile fun p => p.1 == p.2).length := by
  induction a generalizing b with
  | nil => exact ⟨Nat.le_refl 0, Nat.zero_le _, nofun, fun h => absurd h (Nat.lt_irrefl 0)⟩
  | cons x a ih =>
    cases b with
    | nil => exact ⟨Nat.zero_le _, Nat.le_refl 0, nofun, fun _ h => absurd h (Nat.lt_irrefl 0)⟩
    | cons y b =>
      rw [List.zip_cons_cons]
      by_cases hxy : x = y
      · rw [List.takeWhile_cons_of_pos (by simpa using hxy), List.length_cons]
        have h := ih b
        refine ⟨Nat.succ_le_succ h.left, Nat.succ_le_succ h.right, ?_, ?_⟩
        · intro i hi
          cases i with
          | zero => simp [hxy]
          | succ i => simpa using h.same i (by omega)
        · intro ha hb
          simpa using h.stop (by simpa using ha) (by simpa using hb)
      · rw [List.takeWhile_cons_of_neg (by simpa using hxy), List.length_nil]
        exact ⟨Nat.zero_le _, Nat.zero_le _, nofun, fun _ _ => by simpa using hxy⟩

namespace SharedHead

variable {a b : List α} {m n : Nat}

theorem le (hm : SharedHead a b m) (hn : SharedHead a b n) : m ≤ n := by
  by_contra hlt
  have hsame := hm.same n (by omega)
  exact hn.stop (by have := hm.left; omega) (by have := hm.right; omega) hsame

theorem unique (hm : SharedHead a b m) (hn : SharedHead a b n) : m = n :=
  Nat.le_antisymm (hm.le hn) (hn.le hm)

theorem take_eq (h : SharedHead a b n) {k : Nat} (hk : k ≤ n) : a.take k = b.take k := by
  refine List.ext_getElem? fun i => ?_
  by_cases hi : i < k
  · rw [List.getElem?_take_of_lt hi, List.getElem?_take_of_lt hi, h.same i (by omega)]
  · rw [List.getElem?_take_eq_none (by omega), List.getElem?_take_eq_none (by omega)]

end SharedHead

/-- What two lists share at the end, as what their reverses share at the start. -/
theorem drop_eq_of_reverse {a b : List α} {h n : Nat}
    (hs : (a.drop h).reverse.take n = (b.drop h).reverse.take n)
    (ha : n ≤ a.length - h) (hb : n ≤ b.length - h) :
    a.drop (a.length - n) = b.drop (b.length - n) := by
  rw [List.take_reverse, List.take_reverse] at hs
  have hs' := List.reverse_injective hs
  rw [List.length_drop, List.length_drop, List.drop_drop, List.drop_drop] at hs'
  by_cases hn : n = 0
  · subst hn
    simp
  · have hea : h + (a.length - h - n) = a.length - n := by omega
    have heb : h + (b.length - h - n) = b.length - n := by omega
    rwa [hea, heb] at hs'

end Ruse.Lib
