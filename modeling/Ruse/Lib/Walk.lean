import Mathlib.Data.List.Basic

/-!
# Walks, and searching by halves

`walkTimes` takes a number of steps of a function that may fail, one after another. A place that
is reached again is on a cycle, and from there only the remainder by the cycle's length counts
(`walkTimes_cycle`). `walkAlong` takes one step for each of a list of operations; `Along` says what
every operation meets on the way.

`partitionPoint` halves a range of numbers to find where a predicate stops holding. On any
predicate it ends at a place where one that holds is followed by one that does not, or at an
end of the range (`partitionPoint_cut`); where the predicate holds up to some number only, that
is the place (`Cut.splits`). `searchDown` tries the numbers of a range from its end.
-/

namespace Ruse.Lib

/-! ## Walks -/

section
variable {σ : Type*} (step : σ → Option σ)

/-- `n` steps one after another, `none` once one fails. -/
def walkTimes : Nat → σ → Option σ
  | 0, s => some s
  | n + 1, s => (step s).bind (walkTimes n)

variable {step}

theorem walkTimes_add (m n : Nat) (s : σ) :
    walkTimes step (m + n) s = (walkTimes step m s).bind (walkTimes step n) := by
  induction m generalizing s with
  | zero => rw [Nat.zero_add, walkTimes, Option.bind_some]
  | succ m ih =>
    rw [Nat.add_right_comm, walkTimes, walkTimes, Option.bind_assoc]
    exact Option.bind_congr fun t _ => ih t

theorem walkTimes_one (s : σ) : walkTimes step 1 s = step s := Option.bind_fun_some (step s)

/-- From a place on a cycle of `p` steps only the steps past the whole rounds count. -/
theorem walkTimes_cycle {p : Nat} {s : σ} (h : walkTimes step p s = some s) (n : Nat) :
    walkTimes step n s = walkTimes step (n % p) s := by
  induction n using Nat.strongRecOn with
  | _ n ih =>
    rcases Nat.lt_or_ge n p with hlt | hge
    · rw [Nat.mod_eq_of_lt hlt]
    · rcases Nat.eq_zero_or_pos p with rfl | hpos
      · rw [Nat.mod_zero]
      · calc walkTimes step n s = walkTimes step (p + (n - p)) s := by rw [Nat.add_sub_cancel' hge]
          _ = walkTimes step (n - p) s := by rw [walkTimes_add, h, Option.bind_some]
          _ = walkTimes step ((n - p) % p) s := ih _ (by omega)
          _ = walkTimes step (n % p) s := by rw [← Nat.mod_eq_sub_mod hge]

end

/-! ## Walks along operations -/

section
variable {σ ι : Type*} (step : σ → ι → Option σ)

/-- The state after the operations, `none` once one fails. -/
def walkAlong (s : σ) : List ι → Option σ
  | [] => some s
  | op :: ops => (step s op).bind (walkAlong · ops)

/-- `P` of every operation and the state it meets. -/
def Along (P : σ → ι → Prop) (s : σ) : List ι → Prop
  | [] => True
  | op :: ops => P s op ∧ ∀ t ∈ step s op, Along P t ops

variable {step}

theorem walkAlong_cons {s t : σ} {op : ι} (h : step s op = some t) (ops : List ι) :
    walkAlong step s (op :: ops) = walkAlong step t ops := by
  rw [walkAlong, h, Option.bind_some]

theorem walkAlong_append (s : σ) (xs ys : List ι) : walkAlong step s (xs ++ ys) =
    (walkAlong step s xs).bind (walkAlong step · ys) := by
  induction xs generalizing s with
  | nil => rfl
  | cons op xs ih =>
    rw [List.cons_append, walkAlong, walkAlong, Option.bind_assoc]
    exact Option.bind_congr fun t _ => ih t

theorem along_cons {P : σ → ι → Prop} {s t : σ} {op : ι} (h : step s op = some t) {ops : List ι} :
    Along step P s (op :: ops) ↔ P s op ∧ Along step P t ops := by
  rw [Along]
  refine and_congr_right fun _ => ⟨fun hrest => hrest t h, fun hrest u hu => ?_⟩
  obtain rfl : t = u := Option.some.inj (h.symm.trans hu)
  exact hrest

end

/-! ## Searching by halves -/

section
variable (pred : Nat → Bool)

/-- Halve the numbers from `base` on, `size` of them, down to one. -/
def bisect (base size : Nat) : Nat :=
  if 1 < size then
    if pred (base + size / 2) then bisect (base + size / 2) (size - size / 2)
    else bisect base (size - size / 2)
  else base + (pred base).toNat
termination_by size

/-- Where the predicate stops holding of the numbers below `n`. -/
def partitionPoint (n : Nat) : Nat := if n = 0 then 0 else bisect pred 0 n

/-- The predicate holds right before `r` and not at `r`, but for the ends of the range. -/
structure Cut (n r : Nat) : Prop where
  le : r ≤ n
  before : 0 < r → pred (r - 1) = true
  after : r < n → pred r = false

variable {pred}

/-- The numbers that are left begin at the range's start or at one the predicate holds of, and
end at the range's end or by one it does not hold of. -/
theorem bisect_cut {n base size : Nat} (hsize : 0 < size) (hle : base + size ≤ n)
    (hbase : base = 0 ∨ pred base = true)
    (htop : base + size = n ∨ pred (base + size) = false ∨ pred (base + size - 1) = false) :
    Cut pred n (bisect pred base size) := by
  induction base, size using bisect.induct pred with
  | case1 base size hlarge hmid ih =>
    rw [bisect, if_pos hlarge, if_pos hmid]
    refine ih (by omega) (by omega) (.inr hmid) ?_
    rwa [show base + size / 2 + (size - size / 2) = base + size by omega]
  | case2 base size hlarge hmid ih =>
    rw [Bool.not_eq_true] at hmid
    rw [bisect, if_pos hlarge, if_neg (by simp [hmid])]
    refine ih (by omega) (by omega) hbase (.inr ?_)
    -- the upper half begins at the middle, or right after it
    rcases Nat.mod_two_eq_zero_or_one size with heven | hodd
    · left
      rwa [show base + (size - size / 2) = base + size / 2 by omega]
    · right
      rwa [show base + (size - size / 2) - 1 = base + size / 2 by omega]
  | case3 base size hone =>
    obtain rfl : size = 1 := by omega
    rw [bisect, if_neg hone]
    rw [Nat.add_sub_cancel] at htop
    cases hat : pred base with
    | true =>
      refine ⟨hle, fun _ => hat, fun hlt => ?_⟩
      rw [hat] at htop
      simp only [Bool.true_eq_false, or_false] at htop
      exact htop.resolve_left (by simpa using Nat.ne_of_lt hlt)
    | false =>
      rw [hat] at hbase
      have hzero : base = 0 := hbase.resolve_right Bool.false_ne_true
      exact ⟨by simp; omega, fun hpos => absurd hpos (by simp [hzero]), fun _ => by simpa using hat⟩

theorem partitionPoint_cut (pred : Nat → Bool) (n : Nat) : Cut pred n (partitionPoint pred n) := by
  unfold partitionPoint
  split
  · rename_i hn
    exact ⟨Nat.zero_le _, fun h => absurd h (Nat.lt_irrefl 0), fun h => by omega⟩
  · exact bisect_cut (by omega) (by omega) (.inl rfl) (.inl (Nat.zero_add n))

/-- Where the predicate holds of all numbers below one it holds of, it holds of those before the
cut, and only of those. -/
theorem Cut.splits {n r : Nat} (h : Cut pred n r)
    (hclosed : ∀ i j, i < j → j < n → pred j = true → pred i = true) :
    (∀ i < r, pred i = true) ∧ ∀ i, r ≤ i → i < n → pred i = false := by
  have hle := h.le
  constructor
  · intro i hi
    have hlast := h.before (by omega)
    rcases Nat.lt_or_eq_of_le (Nat.le_sub_one_of_lt hi) with hlt | rfl
    · exact hclosed i (r - 1) hlt (by omega) hlast
    · exact hlast
  · intro i hri hin
    have hfirst := h.after (by omega)
    rcases Nat.lt_or_eq_of_le hri with hlt | rfl
    · by_contra hpred
      rw [hclosed r i hlt hin (by simpa using hpred)] at hfirst
      cases hfirst
    · exact hfirst

/-- In a list whose first part the predicate holds of, and of nothing after it, that is the cut. -/
theorem partitionPoint_append {α : Type*} {q : α → Bool} {xs ys : List α} {d : α}
    (hx : ∀ x ∈ xs, q x = true) (hy : ∀ y ∈ ys, q y = false) :
    partitionPoint (fun j => q ((xs ++ ys).getD j d)) (xs ++ ys).length = xs.length := by
  obtain ⟨hle, hbefore, hafter⟩ := partitionPoint_cut (fun j => q ((xs ++ ys).getD j d)) (xs ++ ys).length
  generalize partitionPoint _ _ = r at *
  rw [List.length_append] at hle hafter
  rcases Nat.lt_trichotomy r xs.length with hlt | heq | hgt
  · have hout := hafter (by omega)
    rw [List.getD_eq_getElem?_getD, List.getElem?_append_left hlt, List.getElem?_eq_getElem hlt, Option.getD_some,
      hx _ (List.getElem_mem hlt)] at hout
    cases hout
  · exact heq
  · have hin := hbefore (by omega)
    have hlt : r - 1 - xs.length < ys.length := by omega
    rw [List.getD_eq_getElem?_getD, List.getElem?_append_right (by omega), List.getElem?_eq_getElem hlt,
      Option.getD_some, hy _ (List.getElem_mem hlt)] at hin
    cases hin

theorem bisect_congr {pred' : Nat → Bool} {n base size : Nat} (hsize : 0 < size)
    (hle : base + size ≤ n) (h : ∀ i < n, pred i = pred' i) :
    bisect pred base size = bisect pred' base size := by
  induction base, size using bisect.induct pred with
  | case1 base size hlarge hmid ih =>
    rw [bisect.eq_def pred, if_pos hlarge, if_pos hmid, bisect.eq_def pred', if_pos hlarge,
      if_pos (by rw [← h _ (by omega)]; exact hmid)]
    exact ih (by omega) (by omega)
  | case2 base size hlarge hmid ih =>
    rw [bisect.eq_def pred, if_pos hlarge, if_neg hmid, bisect.eq_def pred', if_pos hlarge,
      if_neg (by rw [← h _ (by omega)]; exact hmid)]
    exact ih (by omega) (by omega)
  | case3 base size hone =>
    rw [bisect, if_neg hone, bisect, if_neg hone, h base (by omega)]

theorem partitionPoint_congr {pred' : Nat → Bool} {n : Nat} (h : ∀ i < n, pred i = pred' i) :
    partitionPoint pred n = partitionPoint pred' n := by
  unfold partitionPoint
  split
  · rfl
  · exact bisect_congr (by omega) (by omega) h

end

/-! ## Searching downwards -/

section
variable {α : Type*} {f : Nat → Option α} {lo n k : Nat} {y : α}

/-- The first result on the way down the `n` numbers from `lo` on. -/
def searchDown (f : Nat → Option α) (lo : Nat) : Nat → Option α
  | 0 => none
  | n + 1 => (f (lo + n)).or (searchDown f lo n)

theorem searchDown_eq_some (h : searchDown f lo n = some y) :
    ∃ k, lo ≤ k ∧ k < lo + n ∧ f k = some y ∧ ∀ j, k < j → j < lo + n → f j = none := by
  induction n with
  | zero => simp [searchDown] at h
  | succ n ih =>
    rw [searchDown] at h
    cases htop : f (lo + n) with
    | some x =>
      rw [htop, Option.some_or] at h
      exact ⟨lo + n, Nat.le_add_right _ _, by omega, htop.trans h, fun j hj hlt => by omega⟩
    | none =>
      rw [htop, Option.none_or] at h
      obtain ⟨k, hlo, hk, hfk, habove⟩ := ih h
      refine ⟨k, hlo, by omega, hfk, fun j hj hlt => ?_⟩
      rcases Nat.lt_or_eq_of_le (Nat.le_of_lt_succ hlt) with hlt | rfl
      · exact habove j hj hlt
      · exact htop

theorem searchDown_eq_none (h : searchDown f lo n = none) (hlo : lo ≤ k) (hk : k < lo + n) :
    f k = none := by
  induction n with
  | zero => omega
  | succ n ih =>
    rw [searchDown, Option.or_eq_none_iff] at h
    rcases Nat.lt_or_eq_of_le (Nat.le_of_lt_succ hk) with hlt | rfl
    · exact ih h.2 hlt
    · exact h.1

end

/-! ## The first and the last element -/

section
variable {α : Type*} {p : α → Bool} {l : List α} {r : Nat}

theorem find?_eq_at (hbelow : ∀ i (h : i < l.length), i < r → p l[i] = false)
    (hat : ∀ h : r < l.length, p l[r] = true) : l.find? p = l[r]? := by
  rcases Nat.lt_or_ge r l.length with hlt | hge
  · rw [List.getElem?_eq_getElem hlt, List.find?_eq_some_iff_getElem]
    refine ⟨hat hlt, r, hlt, rfl, fun i hi => ?_⟩
    rw [hbelow i (by omega) hi]
    rfl
  · rw [List.getElem?_eq_none hge, List.find?_eq_none]
    intro x hx
    obtain ⟨i, hi, rfl⟩ := List.mem_iff_getElem.mp hx
    rw [hbelow i hi (by omega)]
    exact Bool.false_ne_true

/-- The last element of a prefix cut by the predicate is found from behind. -/
theorem find?_reverse_eq_before (hle : r ≤ l.length)
    (habove : ∀ i (h : i < l.length), r ≤ i → p l[i] = false)
    (hat : ∀ h : 0 < r, p l[r - 1] = true) :
    l.reverse.find? p = if 0 < r then l[r - 1]? else none := by
  have hrev : l.reverse.find? p = l.reverse[l.length - r]? := by
    refine find?_eq_at (fun i hi hlt => ?_) fun hlt => ?_
    · rw [List.length_reverse] at hi
      rw [List.getElem_reverse]
      exact habove _ (by omega) (by omega)
    · have hlen : l.length - r < l.length := by rwa [List.length_reverse] at hlt
      have hlast : l.length - 1 - (l.length - r) = r - 1 := by omega
      rw [List.getElem_reverse]
      simpa only [hlast] using hat (by omega)
  rw [hrev]
  split
  · rw [List.getElem?_reverse (by omega)]
    congr 1
    omega
  · exact List.getElem?_eq_none (by rw [List.length_reverse]; omega)

end

end Ruse.Lib
