import Mathlib.Data.List.TakeWhile
import Mathlib.Tactic.Common

/-!
# Memos

A memo answers questions one after another and keeps what it finds (`answers`). It is
transparent when each answer is the one a function gives, whatever was asked before
(`answers_eq`).

`Found` is what a memo of blocks keeps: some of the blocks that a row of positions is cut
into (`Blocks`), from left to right. The block over a position is one of them when the last
one that starts at or before the position reaches it (`Found.hit`), and else it goes in
right after that one (`Found.insert`).
-/

namespace Ruse.Lib

/-! ## Asking -/

section
variable {σ α β : Type*} (ask : σ → α → β × σ)

/-- The answers to some questions, in turn. -/
def answers : σ → List α → List β
  | _, [] => []
  | s, a :: as => (ask s a).1 :: answers (ask s a).2 as

variable {ask}

/-- A memo that keeps its invariant, and under it answers as `f` does, answers as `f` does
at every question of a run. -/
theorem answers_eq {f : α → β} {Inv : σ → Prop}
    (hask : ∀ s a, Inv s → (ask s a).1 = f a ∧ Inv (ask s a).2) {s : σ} (hs : Inv s) (as : List α) :
    answers ask s as = as.map f := by
  induction as generalizing s with
  | nil => rfl
  | cons a as ih =>
    obtain ⟨hanswer, hnext⟩ := hask s a hs
    rw [answers, List.map_cons, hanswer, ih hnext]

end

/-! ## Blocks -/

theorem insertIdx_length_append {α : Type*} (xs ys : List α) (a : α) :
    (xs ++ ys).insertIdx xs.length a = xs ++ a :: ys := by
  induction xs with
  | nil => rfl
  | cons x xs ih => exact congrArg (x :: ·) ih

/-- The positions up to `n` are cut into blocks: each is in its block, and a block is that of
each of its positions. A block has both its ends. -/
structure Blocks (n : Nat) (block : Nat → Nat × Nat) : Prop where
  holds : ∀ p ≤ n, (block p).1 ≤ p ∧ p ≤ (block p).2
  whole : ∀ p ≤ n, ∀ q, (block p).1 ≤ q → q ≤ (block p).2 → block q = block p

/-- Some of the blocks, each before the next. -/
structure Found (n : Nat) (block : Nat → Nat × Nat) (l : List (Nat × Nat)) : Prop where
  known : ∀ x ∈ l, ∃ p ≤ n, block p = x
  sorted : l.Pairwise fun x y => x.2 < y.1

namespace Found

variable {n p : Nat} {block : Nat → Nat × Nat} {xs ys : List (Nat × Nat)} {x : Nat × Nat}

theorem nil : Found n block [] := ⟨fun _ h => absurd h List.not_mem_nil, .nil⟩

/-- A block that is kept is the one over each of its positions. -/
theorem hit (hb : Blocks n block) (h : Found n block xs) (hx : x ∈ xs) (hlo : x.1 ≤ p) (hhi : p ≤ x.2) :
    block p = x := by
  obtain ⟨q, hq, rfl⟩ := h.known x hx
  exact hb.whole q hq p hlo hhi

theorem ends (hb : Blocks n block) (h : Found n block xs) (hx : x ∈ xs) : x.1 ≤ x.2 := by
  obtain ⟨q, hq, rfl⟩ := h.known x hx
  obtain ⟨hlo, hhi⟩ := hb.holds q hq
  exact Nat.le_trans hlo hhi

/-- The block over a position between those kept goes in between them. -/
theorem insert (hb : Blocks n block) (h : Found n block (xs ++ ys)) (hp : p ≤ n)
    (hxs : ∀ x ∈ xs, x.2 < p) (hys : ∀ y ∈ ys, p < y.1) : Found n block (xs ++ block p :: ys) := by
  obtain ⟨hlo, hhi⟩ := hb.holds p hp
  have hbefore : ∀ x ∈ xs, x.2 < (block p).1 := by
    intro x hx
    have hmem := List.mem_append_left ys hx
    by_contra hin
    -- else the last position of `x` is in the block of `p`, so `x` is that block
    have hsame := hb.whole p hp x.2 (Nat.le_of_not_lt hin) (by have := hxs x hx; omega)
    rw [h.hit hb hmem (h.ends hb hmem) (Nat.le_refl _)] at hsame
    have := hxs x hx
    rw [hsame] at this
    omega
  have hafter : ∀ y ∈ ys, (block p).2 < y.1 := by
    intro y hy
    have hmem := List.mem_append_right xs hy
    by_contra hin
    have hsame := hb.whole p hp y.1 (by have := hys y hy; omega) (Nat.le_of_not_lt hin)
    rw [h.hit hb hmem (Nat.le_refl _) (h.ends hb hmem)] at hsame
    have := hys y hy
    rw [hsame] at this
    omega
  obtain ⟨hsx, hsy, hcross⟩ := List.pairwise_append.mp h.sorted
  constructor
  · intro x hx
    rcases List.mem_append.mp hx with hx | hx
    · exact h.known x (List.mem_append_left _ hx)
    · rcases List.mem_cons.mp hx with rfl | hx
      · exact ⟨p, hp, rfl⟩
      · exact h.known x (List.mem_append_right _ hx)
  · refine List.pairwise_append.mpr ⟨hsx, List.pairwise_cons.mpr ⟨hafter, hsy⟩, ?_⟩
    intro x hx y hy
    rcases List.mem_cons.mp hy with rfl | hy
    · exact hbefore x hx
    · exact hcross x hx y hy

/-- Of the blocks that start at or before a position only the last may reach it. -/
theorem before_last (h : Found n block (xs ++ [x])) (hx : x.1 ≤ p) :
    ∀ y ∈ xs, y.2 < p := by
  intro y hy
  have := (List.pairwise_append.mp h.sorted).2.2 y hy x (List.mem_singleton.mpr rfl)
  omega

/-- The entries found so far lie on either side of a key. -/
theorem split (hb : Blocks n block) (h : Found n block xs) (p : Nat) :
    (∀ y ∈ xs.takeWhile fun y => decide (y.1 ≤ p), y.1 ≤ p) ∧
      ∀ y ∈ xs.dropWhile fun y => decide (y.1 ≤ p), p < y.1 := by
  constructor
  · intro y hy
    have := List.mem_takeWhile_imp hy
    exact of_decide_eq_true this
  · induction xs with
    | nil => exact fun _ h => absurd h List.not_mem_nil
    | cons z zs ih =>
      obtain ⟨hz, hzs⟩ := List.pairwise_cons.mp h.sorted
      have hrest : Found n block zs := ⟨fun y hy => h.known y (List.mem_cons_of_mem _ hy), hzs⟩
      intro y hy
      rw [List.dropWhile_cons] at hy
      split at hy
      · exact ih hrest y hy
      · rename_i hpast
        rw [decide_eq_true_eq, Nat.not_le] at hpast
        rcases List.mem_cons.mp hy with rfl | hy
        · exact hpast
        · have := h.ends hb (List.mem_cons_self (a := z) (l := zs))
          have := hz y hy
          omega

end Found

end Ruse.Lib
