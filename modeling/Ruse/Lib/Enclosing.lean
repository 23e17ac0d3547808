import Mathlib.Data.Set.Card
import Ruse.Lib.Brackets

/-!
# The pairs around a place

A place in a word is around by the pairs that open before it and close from it on
(`Around`). `openerAt` searches backwards for an open bracket, `closerAt` forwards for the
one that closes it.

* `around_step` — the open bracket found is the innermost pair around the place, if it is
  closed, and the others are those around the bracket; so `n` searches outwards find the
  `n`-th innermost (`outward_nth`, `outward_none`).
-/

namespace Ruse.Lib

variable {α : Type} {o c : α}

/-! ## Suffixes of balanced words -/

theorem Falls.append_close {n : Nat} {u w : List α} (h : Falls o c n u) (h' : Balanced o c w) :
    Falls o c (n + 1) (u ++ c :: w) := by
  induction n generalizing u with
  | zero => exact ⟨u, w, rfl, h, h'⟩
  | succ n ih =>
    obtain ⟨w₀, w₁, rfl, hw₀, hw₁⟩ := h
    exact ⟨w₀, w₁ ++ c :: w, by rw [List.append_assoc, List.cons_append], hw₀, ih hw₁⟩

/-- The rest of a balanced word only falls. -/
theorem Balanced.falls {w : List α} (h : Balanced o c w) (k : Nat) : ∃ n, Falls o c n (w.drop k) := by
  induction h generalizing k with
  | nil => exact ⟨0, by rw [List.drop_nil]; exact .nil⟩
  | @other x w ho hc hw ih =>
    cases k with
    | zero => exact ⟨0, .other ho hc hw⟩
    | succ k => exact ih k
  | @pair w w' hw hw' ih ih' =>
    cases k with
    | zero => exact ⟨0, .pair hw hw'⟩
    | succ k =>
      rw [List.drop_succ_cons]
      rcases Nat.lt_or_ge w.length k with hlt | hle
      · obtain ⟨n, hn⟩ := ih' (k - (w.length + 1))
        refine ⟨n, ?_⟩
        rwa [List.drop_append, List.drop_eq_nil_of_le (Nat.le_of_lt hlt), List.nil_append,
          show k - w.length = k - (w.length + 1) + 1 by omega, List.drop_succ_cons]
      · obtain ⟨n, hn⟩ := ih k
        rw [List.drop_append_of_le_length hle]
        exact ⟨n + 1, hn.append_close hw'⟩

variable [DecidableEq α]

theorem closing_nil_of_balanced (hne : c ≠ o) {w : List α} (h : Balanced o c w) (n : Nat) :
    closing o c n w = none := by
  have hpass := closing_balanced hne h n []
  rwa [List.append_nil] at hpass

theorem Falls.closing (hne : c ≠ o) {n : Nat} {w : List α} (h : Falls o c n w) :
    Balanced o c w ∨ ∃ k, Ruse.Lib.closing o c 0 w = some k := by
  cases n with
  | zero => exact .inl h
  | succ n =>
    obtain ⟨w₀, w₁, rfl, hw₀, -⟩ := h
    refine .inr ⟨w₀.length, (closing_eq_some hne).mpr ⟨?_, ?_⟩⟩
    · rw [List.getElem?_append_right (Nat.le_refl _), Nat.sub_self]
      rfl
    · rwa [List.take_left]

theorem closing_append (hne : c ≠ o) {w rest : List α} {k : Nat} (h : closing o c 0 w = some k) :
    closing o c 0 (w ++ rest) = some k := by
  obtain ⟨hk, hw⟩ := (closing_eq_some hne).mp h
  have hlt := (List.getElem?_eq_some_iff.mp hk).1
  refine (closing_eq_some hne).mpr ⟨?_, ?_⟩
  · rwa [List.getElem?_append_left hlt]
  · rwa [List.take_append_of_le_length (Nat.le_of_lt hlt)]

/-- An open bracket of a balanced word is closed in it. -/
theorem Balanced.closed (hne : c ≠ o) {w : List α} (h : Balanced o c w) {k : Nat} (hk : w[k]? = some o) :
    ∃ q, Ruse.Lib.closing o c 0 (w.drop (k + 1)) = some q := by
  obtain ⟨m, hm⟩ := h.falls (k + 1)
  refine (hm.closing hne).resolve_left fun hbal => ?_
  -- else the bracket would be one too many
  have hsplit : w.drop k = o :: w.drop (k + 1) := by
    obtain ⟨hlt, hget⟩ := List.getElem?_eq_some_iff.mp hk
    rw [List.drop_eq_getElem_cons hlt, hget]
  have hnone : Ruse.Lib.closing o c 0 (w.drop k) = none := by
    rw [hsplit, Ruse.Lib.closing, if_pos rfl, closing_nil_of_balanced hne hbal]
    rfl
  obtain ⟨n, hn⟩ := h.falls k
  rcases hn.closing hne with hall | ⟨q, hq⟩
  · rw [hsplit] at hall
    generalize w.drop (k + 1) = v at hall hbal
    cases hall with
    | other ho _ _ => exact ho rfl
    | @pair u u' hu _ =>
      have hfound : Ruse.Lib.closing o c 0 (u ++ c :: u') = some u.length := by
        refine (closing_eq_some hne).mpr ⟨?_, by rwa [List.take_left]⟩
        rw [List.getElem?_append_right (Nat.le_refl _), Nat.sub_self]
        rfl
      rw [closing_nil_of_balanced hne hbal] at hfound
      cases hfound
  · rw [hnone] at hq
    cases hq

/-! ## Pairs -/

/-- The letters from `i` up to `j`. -/
def between (w : List α) (i j : Nat) : List α := (w.drop i).take (j - i)

omit [DecidableEq α] in
/-- The brackets at `i` and `j` are a pair. -/
structure Pair (o c : α) (w : List α) (i j : Nat) : Prop where
  opens : w[i]? = some o
  closes : w[j]? = some c
  lt : i < j
  balanced : Balanced o c (between w (i + 1) j)

/-- The bracket that closes the one at `i`. -/
def closerAt (o c : α) (w : List α) (i : Nat) : Option Nat :=
  (closing o c 0 (w.drop (i + 1))).map (i + 1 + ·)

/-- The open bracket before `i`. -/
def openerAt (o c : α) (w : List α) (i : Nat) : Option Nat :=
  (closing c o 0 (w.take i).reverse).map (i - 1 - ·)

/-- The open brackets of the pairs around `i`. -/
def Around (o c : α) (w : List α) (i : Nat) : Set Nat := {a | ∃ b, Pair o c w a b ∧ a < i ∧ i ≤ b}

section
variable {w : List α} {i j k a b : Nat}

theorem closerAt_eq_some (hne : c ≠ o) : closerAt o c w i = some j ↔
    i < j ∧ w[j]? = some c ∧ Balanced o c (between w (i + 1) j) := by
  rw [closerAt, Option.map_eq_some_iff]
  constructor
  · rintro ⟨q, hq, rfl⟩
    obtain ⟨hget, hbal⟩ := (closing_eq_some hne).mp hq
    rw [List.getElem?_drop] at hget
    exact ⟨by omega, hget, by rwa [between, Nat.add_sub_cancel_left]⟩
  · rintro ⟨hlt, hget, hbal⟩
    refine ⟨j - (i + 1), (closing_eq_some hne).mpr ⟨?_, hbal⟩, by omega⟩
    rwa [List.getElem?_drop, show i + 1 + (j - (i + 1)) = j by omega]

theorem pair_iff (hne : c ≠ o) : Pair o c w i j ↔ w[i]? = some o ∧ closerAt o c w i = some j := by
  rw [closerAt_eq_some hne]
  exact ⟨fun h => ⟨h.opens, h.lt, h.closes, h.balanced⟩, fun h => ⟨h.1, h.2.2.1, h.2.1, h.2.2.2⟩⟩

/-- The opener around a place is the nearest with a balanced text up to it. -/
theorem openerAt_eq_some (hne : c ≠ o) (hi : i ≤ w.length) : openerAt o c w i = some j ↔
    j < i ∧ w[j]? = some o ∧ Balanced o c (between w (j + 1) i) := by
  have hlen : (w.take i).length = i := by rw [List.length_take, Nat.min_eq_left hi]
  have hget : ∀ q, q < i → ((w.take i).reverse)[q]? = w[i - 1 - q]? := by
    intro q hq
    rw [List.getElem?_reverse (by omega), hlen, List.getElem?_take_of_lt (by omega)]
  have htake : ∀ q, q < i → (((w.take i).reverse).take q).reverse = between w (i - q) i := by
    intro q hq
    rw [List.take_reverse, List.reverse_reverse, hlen, List.drop_take]
    rfl
  rw [openerAt, Option.map_eq_some_iff]
  constructor
  · rintro ⟨q, hq, rfl⟩
    obtain ⟨hat, hbal⟩ := (closing_eq_some (Ne.symm hne)).mp hq
    have hlt := (List.getElem?_eq_some_iff.mp hat).1
    rw [List.length_reverse, hlen] at hlt
    rw [hget q hlt] at hat
    have hbal' := hbal.reverse
    rw [htake q hlt] at hbal'
    exact ⟨by omega, hat, by rwa [show i - 1 - q + 1 = i - q by omega]⟩
  · rintro ⟨hlt, hat, hbal⟩
    refine ⟨i - 1 - j, (closing_eq_some (Ne.symm hne)).mpr ⟨?_, ?_⟩, by omega⟩
    · rwa [hget _ (by omega), show i - 1 - (i - 1 - j) = j by omega]
    · have hbal' := hbal.reverse
      rwa [show j + 1 = i - (i - 1 - j) by omega, ← htake _ (by omega), List.reverse_reverse] at hbal'

/-- An opener inside a balanced text has its closer inside too. -/
theorem pair_of_between (hne : c ≠ o) (h : Balanced o c (between w i j)) (hj : j ≤ w.length)
    (hik : i ≤ k) (hkj : k < j) (hk : w[k]? = some o) : ∃ l, Pair o c w k l ∧ l < j := by
  have hat : (between w i j)[k - i]? = some o := by
    rwa [between, List.getElem?_take_of_lt (by omega), List.getElem?_drop, Nat.add_sub_cancel' hik]
  obtain ⟨q, hq⟩ := h.closed hne hat
  have hrest : (between w i j).drop (k - i + 1) = between w (k + 1) j := by
    rw [between, between, List.drop_take, List.drop_drop]
    congr 1
    · omega
    · congr 1
      omega
  have hsplit : w.drop (k + 1) = between w (k + 1) j ++ w.drop j := by
    have := List.take_append_drop (j - (k + 1)) (w.drop (k + 1))
    rw [List.drop_drop, show k + 1 + (j - (k + 1)) = j by omega] at this
    exact this.symm
  rw [hrest] at hq
  have hlt := (List.getElem?_eq_some_iff.mp ((closing_eq_some hne).mp hq).1).1
  have hlen : (between w (k + 1) j).length = j - (k + 1) := by
    rw [between, List.length_take, List.length_drop]
    omega
  refine ⟨k + 1 + q, (pair_iff hne).mpr ⟨hk, ?_⟩, by omega⟩
  rw [closerAt, hsplit, closing_append hne hq]
  rfl

theorem Pair.unique (hne : c ≠ o) (h : Pair o c w i j) (h' : Pair o c w i k) : j = k := by
  have heq := ((pair_iff hne).mp h).2
  rw [((pair_iff hne).mp h').2] at heq
  exact (Option.some.inj heq).symm

omit [DecidableEq α] in
theorem Pair.lt_length (h : Pair o c w i j) : j < w.length := (List.getElem?_eq_some_iff.mp h.closes).1

/-- With no open bracket before `i` there is no pair around. -/
theorem openerAt_none (hne : c ≠ o) (h : openerAt o c w i = none) : Around o c w i = ∅ := by
  refine Set.eq_empty_iff_forall_notMem.mpr ?_
  rintro a ⟨b, hpair, hai, hib⟩
  have hb := hpair.lt_length
  -- what is read before `a` is the end of a balanced word, backwards
  obtain ⟨n, hn⟩ := hpair.balanced.reverse.falls (b - i)
  have hpart : ((between w (a + 1) b).reverse).drop (b - i) = (between w (a + 1) i).reverse := by
    rw [List.drop_reverse, between, between, List.length_take, List.length_drop, List.take_take]
    congr 2
    omega
  have hsplit : (w.take i).reverse = (between w (a + 1) i).reverse ++ o :: (w.take a).reverse := by
    obtain ⟨hlt, hget⟩ := List.getElem?_eq_some_iff.mp hpair.opens
    have : w.take i = w.take a ++ o :: between w (a + 1) i := by
      have hcut := (List.take_append_drop a (w.take i)).symm
      rw [List.take_take, Nat.min_eq_left (Nat.le_of_lt hai), List.drop_take,
        List.drop_eq_getElem_cons hlt, hget, show i - a = i - (a + 1) + 1 by omega, List.take_succ_cons] at hcut
      exact hcut
    rw [this, List.reverse_append, List.reverse_cons, List.append_assoc, List.singleton_append]
  have hfound : ∃ q, closing c o 0 (w.take i).reverse = some q := by
    rw [hpart] at hn
    rw [hsplit]
    rcases hn.closing (Ne.symm hne) with hbal | ⟨q, hq⟩
    · rw [closing_balanced (Ne.symm hne) hbal, closing, if_neg (Ne.symm hne), if_pos rfl, if_pos rfl]
      exact ⟨_, rfl⟩
    · exact ⟨q, closing_append (Ne.symm hne) hq⟩
  obtain ⟨q, hq⟩ := hfound
  rw [openerAt, hq] at h
  cases h

/-- The open bracket found is closed from `i` on, or not at all. -/
theorem le_closerAt (hne : c ≠ o) (hi : i ≤ w.length) (h : openerAt o c w i = some j)
    (hk : closerAt o c w j = some k) : i ≤ k := by
  obtain ⟨hlt, -, hbal⟩ := (openerAt_eq_some hne hi).mp h
  have hsplit : w.drop (j + 1) = between w (j + 1) i ++ w.drop i := by
    have := List.take_append_drop (i - (j + 1)) (w.drop (j + 1))
    rw [List.drop_drop, show j + 1 + (i - (j + 1)) = i by omega] at this
    exact this.symm
  have hlen : (between w (j + 1) i).length = i - (j + 1) := by
    rw [between, List.length_take, List.length_drop]
    omega
  rw [closerAt, hsplit, closing_balanced hne hbal, Option.map_map, Option.map_eq_some_iff] at hk
  obtain ⟨q, -, rfl⟩ := hk
  simp only [Function.comp_apply, hlen]
  omega

/-- The open bracket before `i` is that of the innermost pair around it, if it is closed; the
others are around the bracket. -/
theorem around_step (hne : c ≠ o) (hi : i ≤ w.length) (h : openerAt o c w i = some j) :
    (∀ a, a ∈ Around o c w i ↔ (a = j ∧ ∃ k, Pair o c w j k) ∨ a ∈ Around o c w j) ∧
    (∀ a ∈ Around o c w j, a < j ∧ ∃ k, Pair o c w j k) := by
  obtain ⟨hlt, hopen, hbal⟩ := (openerAt_eq_some hne hi).mp h
  have hinner : ∀ a ∈ Around o c w j, a < j ∧ ∃ k, Pair o c w j k ∧ i ≤ k ∧
      ∃ b, Pair o c w a b ∧ k < b := by
    rintro a ⟨b, hpair, haj, hjb⟩
    have hjb' : j < b := by
      rcases Nat.eq_or_lt_of_le hjb with heq | hlt'
      · have hclose := hpair.closes
        rw [← heq, hopen] at hclose
        exact absurd (Option.some.inj hclose).symm hne
      · exact hlt'
    obtain ⟨k, hk, hkb⟩ := pair_of_between hne hpair.balanced (Nat.le_of_lt hpair.lt_length)
      (Nat.succ_le_of_lt haj) hjb' hopen
    exact ⟨haj, k, hk, le_closerAt hne hi h ((pair_iff hne).mp hk).2, b, hpair, hkb⟩
  refine ⟨fun a => ⟨?_, ?_⟩, fun a ha => ?_⟩
  · rintro ⟨b, hpair, hai, hib⟩
    rcases Nat.lt_trichotomy a j with haj | rfl | hja
    · exact .inr ⟨b, hpair, haj, by omega⟩
    · exact .inl ⟨rfl, b, hpair⟩
    · -- a bracket after the one found is closed before `i`
      obtain ⟨l, hl, hli⟩ := pair_of_between hne hbal hi hja hai hpair.opens
      have := hpair.unique hne hl
      omega
  · rintro (⟨rfl, k, hk⟩ | ha)
    · exact ⟨k, hk, hlt, le_closerAt hne hi h ((pair_iff hne).mp hk).2⟩
    · obtain ⟨haj, k, -, hik, b, hpair, hkb⟩ := hinner a ha
      exact ⟨b, hpair, by omega, by omega⟩
  · obtain ⟨haj, k, hk, -⟩ := hinner a ha
    exact ⟨haj, k, hk⟩

/-! ## Outwards -/

/-- `a` opens the `n`-th innermost pair around `i`. -/
def NthAround (o c : α) (w : List α) (i n a : Nat) : Prop :=
  a ∈ Around o c w i ∧ {x ∈ Around o c w i | a ≤ x}.ncard = n

/-- The `n`-th open bracket outwards. -/
def outward (o c : α) (w : List α) : (n : Nat) → (i : Nat) → Option Nat
  | 0, i => some i
  | n + 1, i => (openerAt o c w i).bind (outward o c w n)

/-- The `n`-th open bracket ahead, each closing one on the way taking one. -/
def openAhead (o c : α) (w : List α) : (n : Nat) → (i : Nat) → Option Nat
  | 0, i => some i
  | n + 1, i => (closerAt c o w i).bind (openAhead o c w n)

omit [DecidableEq α] in
theorem around_finite (o c : α) (w : List α) (i : Nat) (P : Nat → Prop) :
    {x ∈ Around o c w i | P x}.Finite :=
  (Set.finite_lt_nat i).subset fun _ hx => hx.1.choose_spec.2.1

omit [DecidableEq α] in
/-- A place opens the `n`-th pair for one `n`, and no other does. -/
theorem NthAround.unique {n a a' : Nat} (h : NthAround o c w i n a) (h' : NthAround o c w i n a') : a = a' := by
  have hnot : ∀ {a a'}, NthAround o c w i n a → NthAround o c w i n a' → ¬ a < a' := by
    intro a a' h h' hlt
    have hsub : {x ∈ Around o c w i | a' ≤ x} ⊂ {x ∈ Around o c w i | a ≤ x} := by
      refine ⟨fun x hx => ⟨hx.1, Nat.le_trans (Nat.le_of_lt hlt) hx.2⟩, fun hback => ?_⟩
      exact Nat.not_le.mpr hlt (hback ⟨h.1, Nat.le_refl a⟩).2
    have := Set.ncard_lt_ncard hsub (around_finite o c w i _)
    rw [h.2, h'.2] at this
    exact Nat.lt_irrefl n this
  rcases Nat.lt_trichotomy a a' with hlt | heq | hgt
  · exact absurd hlt (hnot h h')
  · exact heq
  · exact absurd hgt (hnot h' h)

/-- The pairs around a place are the nearest one and those around it. -/
theorem nthAround_step (hne : c ≠ o) (hi : i ≤ w.length) (h : openerAt o c w i = some j)
    (hk : Pair o c w j k) {n : Nat} : NthAround o c w i (n + 1) a ↔
      (n = 0 ∧ a = j) ∨ (0 < n ∧ NthAround o c w j n a) := by
  obtain ⟨hstep, hbelow⟩ := around_step hne hi h
  have hj : j ∈ Around o c w i := (hstep j).mpr (.inl ⟨rfl, k, hk⟩)
  have hself : {x ∈ Around o c w i | j ≤ x} = {j} := by
    refine Set.eq_singleton_iff_unique_mem.mpr ⟨⟨hj, Nat.le_refl j⟩, ?_⟩
    rintro x ⟨hx, hjx⟩
    rcases (hstep x).mp hx with ⟨heq, -⟩ | hx'
    · exact heq
    · have := (hbelow x hx').1
      omega
  have hinsert : ∀ a ∈ Around o c w j, {x ∈ Around o c w i | a ≤ x}.ncard =
      {x ∈ Around o c w j | a ≤ x}.ncard + 1 := by
    intro a ha
    have haj := (hbelow a ha).1
    have hset : {x ∈ Around o c w i | a ≤ x} = insert j {x ∈ Around o c w j | a ≤ x} := by
      ext x
      simp only [Set.mem_ofPred_eq, Set.mem_insert_iff, hstep x]
      constructor
      · rintro ⟨⟨rfl, -⟩ | hx, hax⟩
        · exact .inl rfl
        · exact .inr ⟨hx, hax⟩
      · rintro (rfl | ⟨hx, hax⟩)
        · exact ⟨.inl ⟨rfl, k, hk⟩, Nat.le_of_lt haj⟩
        · exact ⟨.inr hx, hax⟩
    rw [hset, Set.ncard_insert_of_notMem (fun hmem => ?_) (around_finite o c w j _)]
    exact Nat.lt_irrefl j (hbelow j hmem.1).1
  have hpos : ∀ a ∈ Around o c w j, 0 < {x ∈ Around o c w j | a ≤ x}.ncard := fun a ha =>
    (Set.ncard_pos (around_finite o c w j _)).mpr ⟨a, ha, Nat.le_refl a⟩
  constructor
  · rintro ⟨ha, hcard⟩
    rcases (hstep a).mp ha with ⟨rfl, -⟩ | ha'
    · rw [hself, Set.ncard_singleton] at hcard
      exact .inl ⟨by omega, rfl⟩
    · rw [hinsert a ha'] at hcard
      have := hpos a ha'
      exact .inr ⟨by omega, ha', by omega⟩
  · rintro (⟨rfl, rfl⟩ | ⟨-, ha, hcard⟩)
    · exact ⟨hj, by rw [hself, Set.ncard_singleton]⟩
    · exact ⟨(hstep a).mpr (.inr ha), by rw [hinsert a ha, hcard]⟩

/-- An open bracket that is not closed has no pair around it, and there is none around `i`. -/
theorem around_unclosed (hne : c ≠ o) (hi : i ≤ w.length) (h : openerAt o c w i = some j)
    (hk : closerAt o c w j = none) : Around o c w i = ∅ ∧ Around o c w j = ∅ := by
  obtain ⟨hstep, hbelow⟩ := around_step hne hi h
  have hno : ¬ ∃ k, Pair o c w j k := by
    rintro ⟨k, hpair⟩
    rw [((pair_iff hne).mp hpair).2] at hk
    cases hk
  have hj : Around o c w j = ∅ :=
    Set.eq_empty_iff_forall_notMem.mpr fun a ha => hno (hbelow a ha).2
  refine ⟨Set.eq_empty_iff_forall_notMem.mpr fun a ha => ?_, hj⟩
  rcases (hstep a).mp ha with ⟨-, hpair⟩ | ha'
  · exact hno hpair
  · rw [hj] at ha'
    exact ha'

/-- The `n`-th bracket outwards, with the one that closes it, is the `n`-th innermost pair; when
there is no such bracket, or it is not closed, there are fewer pairs. -/
theorem outward_nth (hne : c ≠ o) (n : Nat) (hi : i ≤ w.length) :
    (∃ a b, outward o c w (n + 1) i = some a ∧ closerAt o c w a = some b ∧ NthAround o c w i (n + 1) a ∧
      Pair o c w a b) ∨
    ((outward o c w (n + 1) i).bind (closerAt o c w) = none ∧ ∀ a, ¬ NthAround o c w i (n + 1) a) := by
  induction n generalizing i with
  | zero =>
    cases h : openerAt o c w i with
    | none =>
      refine .inr ⟨by rw [outward, h]; rfl, fun a ha => ?_⟩
      rw [NthAround, openerAt_none hne h] at ha
      exact ha.1
    | some j =>
      obtain ⟨hlt, hopen, -⟩ := (openerAt_eq_some hne hi).mp h
      have hout : outward o c w 1 i = some j := by rw [outward, h]; rfl
      cases hk : closerAt o c w j with
      | none =>
        refine .inr ⟨by rw [hout, Option.bind_some, hk], fun a ha => ?_⟩
        rw [NthAround, (around_unclosed hne hi h hk).1] at ha
        exact ha.1
      | some k =>
        have hpair := (pair_iff hne).mpr ⟨hopen, hk⟩
        exact .inl ⟨j, k, hout, hk, (nthAround_step hne hi h hpair).mpr (.inl ⟨rfl, rfl⟩), hpair⟩
  | succ n ih =>
    cases h : openerAt o c w i with
    | none =>
      refine .inr ⟨by rw [outward, h]; rfl, fun a ha => ?_⟩
      rw [NthAround, openerAt_none hne h] at ha
      exact ha.1
    | some j =>
      obtain ⟨hlt, hopen, -⟩ := (openerAt_eq_some hne hi).mp h
      have hout : outward o c w (n + 1 + 1) i = outward o c w (n + 1) j := by rw [outward, h]; rfl
      have hrest := ih (i := j) (by omega)
      rw [hout]
      cases hk : closerAt o c w j with
      | none =>
        obtain ⟨hempty, hempty'⟩ := around_unclosed hne hi h hk
        rcases hrest with ⟨a, b, -, -, ha, -⟩ | ⟨hnone, -⟩
        · rw [NthAround, hempty'] at ha
          exact absurd ha.1 (Set.notMem_empty a)
        · refine .inr ⟨hnone, fun a ha => ?_⟩
          rw [NthAround, hempty] at ha
          exact ha.1
      | some k =>
        have hpair := (pair_iff hne).mpr ⟨hopen, hk⟩
        rcases hrest with ⟨a, b, ha, hb, hnth, hab⟩ | ⟨hnone, hno⟩
        · exact .inl ⟨a, b, ha, hb, (nthAround_step hne hi h hpair).mpr (.inr ⟨Nat.succ_pos n, hnth⟩), hab⟩
        · refine .inr ⟨hnone, fun a ha => ?_⟩
          rcases (nthAround_step hne hi h hpair).mp ha with ⟨hzero, -⟩ | ⟨-, ha'⟩
          · omega
          · exact hno a ha'

theorem outward_open (hne : c ≠ o) (n : Nat) (hi : i ≤ w.length) (h : outward o c w (n + 1) i = some a) :
    w[a]? = some o := by
  induction n generalizing i with
  | zero =>
    rw [outward, Option.bind_eq_some_iff] at h
    obtain ⟨j, hj, hja⟩ := h
    cases hja
    exact ((openerAt_eq_some hne hi).mp hj).2.1
  | succ n ih =>
    rw [outward, Option.bind_eq_some_iff] at h
    obtain ⟨j, hj, hrest⟩ := h
    have := ((openerAt_eq_some hne hi).mp hj).1
    exact ih (by omega) hrest

theorem ahead_open (hne : c ≠ o) (n : Nat) (h : openAhead o c w (n + 1) i = some a) :
    w[a]? = some o ∧ i < a := by
  induction n generalizing i with
  | zero =>
    rw [openAhead, Option.bind_eq_some_iff] at h
    obtain ⟨j, hj, hja⟩ := h
    cases hja
    obtain ⟨hlt, hopen, -⟩ := (closerAt_eq_some (Ne.symm hne)).mp hj
    exact ⟨hopen, hlt⟩
  | succ n ih =>
    rw [openAhead, Option.bind_eq_some_iff] at h
    obtain ⟨j, hj, hrest⟩ := h
    have := ((closerAt_eq_some (Ne.symm hne)).mp hj).1
    obtain ⟨hopen, hlt⟩ := ih hrest
    exact ⟨hopen, by omega⟩

end

end Ruse.Lib
