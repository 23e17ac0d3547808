import Mathlib.Data.List.Destutter
import Mathlib.Data.List.Sort

/-!
# Stable sorting

What a stable sort by a comparison is for: the list in another order, ascending, with
what compares equal in the order it had. Merge sort is one (`stablySorted_mergeSort`).
-/

namespace Ruse.Lib

variable {α : Type}

/-- `ys` is `xs` sorted by `cmp`, with what compares equal in its old order. -/
structure StablySorted (cmp : α → α → Ordering) (xs ys : List α) : Prop where
  perm : ys.Perm xs
  ordered : ys.Pairwise fun a b => (cmp a b).isLE = true
  stable : ∀ a, ys.filter (fun b => cmp a b == .eq) = xs.filter fun b => cmp a b == .eq

/-- A merge sort by a total comparison is stable. -/
theorem stablySorted_mergeSort (cmp : α → α → Ordering) [Std.TransCmp cmp] (xs : List α) :
    StablySorted cmp xs (xs.mergeSort fun a b => (cmp a b).isLE) := by
  have htrans : ∀ a b c, (cmp a b).isLE = true → (cmp b c).isLE = true → (cmp a c).isLE = true :=
    fun _ _ _ => Std.TransCmp.isLE_trans
  have htotal : ∀ a b, ((cmp a b).isLE || (cmp b a).isLE) = true := by
    intro a b
    have hswap : cmp b a = (cmp a b).swap := Std.OrientedCmp.eq_swap
    rw [hswap]
    cases cmp a b <;> rfl
  have hperm := List.mergeSort_perm xs fun a b => (cmp a b).isLE
  refine ⟨hperm, List.pairwise_mergeSort htrans htotal xs, fun a => ?_⟩
  -- the elements that compare equal are ordered already, so the sort keeps them in a row
  have hequal : (xs.filter fun b => cmp a b == .eq).Pairwise fun b c => (cmp b c).isLE = true := by
    rw [List.pairwise_iff_forall_sublist]
    intro b c hbc
    have hmem := fun x (hx : x ∈ [b, c]) => (List.mem_filter.mp (hbc.subset hx)).2
    have hb : cmp a b = .eq := by simpa using hmem b (by simp)
    have hc : cmp a c = .eq := by simpa using hmem c (by simp)
    refine Std.TransCmp.isLE_trans (b := a) ?_ ?_
    · rw [Std.OrientedCmp.eq_symm hb]
      rfl
    · rw [hc]
      rfl
  have hsub := (List.sublist_mergeSort htrans htotal hequal List.filter_sublist).filter
    fun b => cmp a b == .eq
  rw [List.filter_filter] at hsub
  simp only [Bool.and_self] at hsub
  exact (hsub.eq_of_length_le (hperm.filter _).length_eq.le).symm

theorem destutter'_eq_singleton {R : α → α → Prop} [DecidableRel R] {a b : α} {l : List α} :
    l.destutter' R a = [b] ↔ b = a ∧ ∀ x ∈ l, ¬ R a x := by
  induction l with
  | nil => simp [List.destutter'_nil, eq_comm]
  | cons x l ih =>
    rw [List.destutter'_cons]
    split
    · rename_i hx
      have hne := List.destutter'_ne_nil (R := R) (a := x) l
      simp [hx, hne]
    · rename_i hx
      simp [ih, hx]

end Ruse.Lib
