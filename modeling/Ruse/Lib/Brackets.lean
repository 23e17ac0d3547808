import Mathlib.Data.List.Basic

/-!
# Nesting brackets

Words over one kind of bracket, an opening `o` and a closing `c`, and any other
letters.

* `Balanced` — every bracket is closed in the word, and the pairs nest;
* `closing` — the search for the bracket that closes the one before the word, by a
  count of the brackets still open; `tally` is what one letter does to the count.

The search finds the place that a balanced word leads to (`closing_eq_some`). A
balanced word read backwards is balanced with the brackets exchanged, so the same
search backwards finds the opening bracket.
-/

namespace Ruse.Lib

variable {α : Type}

/-- The brackets of the word pair up and nest. -/
inductive Balanced (o c : α) : List α → Prop
  | nil : Balanced o c []
  | other {x : α} {w : List α} : x ≠ o → x ≠ c → Balanced o c w → Balanced o c (x :: w)
  | pair {w w' : List α} : Balanced o c w → Balanced o c w' → Balanced o c (o :: (w ++ c :: w'))

namespace Balanced

variable {o c : α} {w w' : List α}

theorem append (h : Balanced o c w) (h' : Balanced o c w') : Balanced o c (w ++ w') := by
  induction h with
  | nil => exact h'
  | other ho hc _ ih => exact .other ho hc ih
  | pair h _ _ ih =>
    rw [List.cons_append, List.append_assoc, List.cons_append]
    exact .pair h ih

theorem of_forall (h : ∀ x ∈ w, x ≠ o ∧ x ≠ c) : Balanced o c w := by
  induction w with
  | nil => exact .nil
  | cons x w ih =>
    obtain ⟨ho, hc⟩ := h x List.mem_cons_self
    exact .other ho hc (ih fun y hy => h y (List.mem_cons_of_mem x hy))

theorem reverse (h : Balanced o c w) : Balanced c o w.reverse := by
  induction h with
  | nil => exact .nil
  | other ho hc _ ih =>
    rw [List.reverse_cons]
    exact ih.append (.other hc ho .nil)
  | pair _ _ ih ih' =>
    rw [List.reverse_cons, List.reverse_append, List.reverse_cons, List.append_assoc, List.append_assoc]
    exact ih'.append (.pair ih .nil)

end Balanced

variable [DecidableEq α]

/-- Where the bracket that closes the word's surroundings is, with `n` more brackets open. -/
def closing (o c : α) : Nat → List α → Option Nat
  | _, [] => none
  | n, x :: w =>
    if x = o then (closing o c (n + 1) w).map (· + 1)
    else if x = c then
      if n = 0 then some 0 else (closing o c (n - 1) w).map (· + 1)
    else (closing o c n w).map (· + 1)

variable {o c : α}

/-- A balanced word is passed over. -/
theorem closing_balanced (hne : c ≠ o) {w : List α} (h : Balanced o c w) (n : Nat) (rest : List α) :
    closing o c n (w ++ rest) = (closing o c n rest).map (· + w.length) := by
  induction h generalizing n rest with
  | nil =>
    rw [List.nil_append]
    cases closing o c n rest <;> rfl
  | other ho hc _ ih =>
    rw [List.cons_append, closing, if_neg ho, if_neg hc, ih]
    cases closing o c n rest <;> rfl
  | @pair w w' _ _ ih ih' =>
    rw [List.cons_append, closing, if_pos rfl, List.append_assoc, ih, List.cons_append, closing,
      if_neg hne, if_pos rfl, if_neg (Nat.succ_ne_zero n), Nat.add_sub_cancel, ih']
    cases closing o c n rest with
    | none => rfl
    | some k =>
      simp only [Option.map_some, List.length_cons, List.length_append]
      congr 1
      omega

/-- A word with `n` closing brackets too many: balanced words between them. -/
def Falls (o c : α) : Nat → List α → Prop
  | 0, w => Balanced o c w
  | n + 1, w => ∃ w₀ w₁, w = w₀ ++ c :: w₁ ∧ Balanced o c w₀ ∧ Falls o c n w₁

omit [DecidableEq α] in
theorem Falls.append {n : Nat} {w w' : List α} (h : Balanced o c w) (h' : Falls o c n w') :
    Falls o c n (w ++ w') := by
  cases n with
  | zero => exact h.append h'
  | succ n =>
    obtain ⟨w₀, w₁, rfl, hw₀, hw₁⟩ := h'
    exact ⟨w ++ w₀, w₁, by rw [List.append_assoc], h.append hw₀, hw₁⟩

/-- The closer found is where the depth first falls. -/
theorem closing_spec {n k : Nat} {w : List α} (h : closing o c n w = some k) :
    w[k]? = some c ∧ Falls o c n (w.take k) := by
  induction w generalizing n k with
  | nil => cases h
  | cons x w ih =>
    have hpass : ∀ {m : Nat}, (closing o c m w).map (· + 1) = some k →
        ∃ j, k = j + 1 ∧ w[j]? = some c ∧ Falls o c m (w.take j) := by
      intro m hm
      obtain ⟨j, hj, rfl⟩ := Option.map_eq_some_iff.mp hm
      exact ⟨j, rfl, ih hj⟩
    rw [closing] at h
    split at h
    · rename_i hx
      obtain ⟨j, rfl, hj, w₀, w₁, hw, hw₀, hw₁⟩ := hpass h
      refine ⟨hj, ?_⟩
      rw [List.take_succ_cons, hw, hx]
      have hpair : Balanced o c (o :: (w₀ ++ [c])) := .pair hw₀ .nil
      have := Falls.append hpair hw₁
      rwa [List.cons_append, List.append_assoc, List.singleton_append] at this
    · rename_i ho
      split at h
      · rename_i hx
        cases n with
        | zero =>
          cases h
          exact ⟨by rw [hx]; rfl, .nil⟩
        | succ n =>
          rw [if_neg (Nat.succ_ne_zero n), Nat.add_sub_cancel] at h
          obtain ⟨j, rfl, hj, hw⟩ := hpass h
          exact ⟨hj, [], w.take j, by rw [List.take_succ_cons, hx]; rfl, .nil, hw⟩
      · rename_i hc
        obtain ⟨j, rfl, hj, hw⟩ := hpass h
        refine ⟨hj, ?_⟩
        have hone : Balanced o c [x] := .other ho hc .nil
        exact Falls.append hone hw

/-- The search finds the closing bracket that a balanced word leads to, and no other. -/
theorem closing_eq_some (hne : c ≠ o) {k : Nat} {w : List α} :
    closing o c 0 w = some k ↔ w[k]? = some c ∧ Balanced o c (w.take k) := by
  constructor
  · exact closing_spec
  · rintro ⟨hk, hw⟩
    obtain ⟨hlt, hget⟩ := List.getElem?_eq_some_iff.mp hk
    have hsplit : w = w.take k ++ c :: w.drop (k + 1) := by
      rw [← hget, ← List.drop_eq_getElem_cons hlt, List.take_append_drop]
    rw [hsplit, closing_balanced hne hw, closing, if_neg hne, if_pos rfl, if_pos rfl,
      Option.map_some, List.length_take]
    congr 1
    omega

/-- The brackets open after a letter, from `n`; `none` when the letter closes the last. -/
def tally (o c : α) (n : Nat) (x : Option α) : Option Nat :=
  if x = some o then some (n + 1)
  else if x = some c then
    if n = 0 then none else some (n - 1)
  else some n

/-- An element is tallied before the search goes on. -/
theorem closing_tally (o c : α) (n : Nat) (x : Option α) (w : List α) :
    closing o c n (x.toList ++ w) =
      match tally o c n x with
      | none => some 0
      | some n => (closing o c n w).map (· + x.toList.length) := by
  unfold tally
  cases x with
  | none =>
    rw [if_neg (by simp), if_neg (by simp)]
    dsimp only [Option.toList_none, List.nil_append, List.length_nil]
    cases closing o c n w <;> rfl
  | some x =>
    simp only [Option.toList_some, List.singleton_append, closing, Option.some.injEq]
    split
    · rfl
    split
    · split <;> rfl
    · rfl

theorem closing_skip (hne : c ≠ o) {w : List α} (h : ∀ x ∈ w, x ≠ o ∧ x ≠ c) (n : Nat)
    (rest : List α) : closing o c n (w ++ rest) = (closing o c n rest).map (· + w.length) :=
  closing_balanced hne (.of_forall h) n rest

end Ruse.Lib
