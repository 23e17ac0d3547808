import Mathlib.Data.List.Count
import Mathlib.Data.List.Perm.Basic
import Mathlib.Data.List.Dedup
import Mathlib.Data.Finset.Max
import Ruse.Lib.Spans

/-!
# Forests of spans

A list of spans, each with a level, is a forest (`Forest`) when every two are apart or one is
over the other and each level is the depth: one more than the number of spans over it. Of
spans that cover the same numbers the one of the smaller level is over the other. The list
order says nothing (`Forest.perm`).

A span of a forest has spans over it at all the levels above its own (`Forest.exists_level`).
A forest stays one when a span is put around some of its spans, which go a level down
(`Forest.wrap`), when spans are dropped with all that they are over (`Forest.filter`), and
when one is dropped and those it was over go a level up (`Forest.lift`).
-/

namespace Ruse.Lib

structure Ranked extends Span where
  level : Nat
deriving DecidableEq, Repr

namespace Ranked

variable {p q r : Ranked}

/-- `p` holds `q`, and is wider or of a smaller level. -/
def Over (p q : Ranked) : Prop :=
  q.toSpan.Inside p.toSpan ∧ (p.toSpan = q.toSpan → p.level < q.level)

instance (p q : Ranked) : Decidable (p.Over q) := by
  unfold Over
  infer_instance

theorem over_def : p.Over q ↔ (p.start ≤ q.start ∧ q.stop ≤ p.stop) ∧
    (p.start = q.start → p.stop = q.stop → p.level < q.level) := by
  obtain ⟨⟨a, b⟩, l⟩ := p
  obtain ⟨⟨a', b'⟩, l'⟩ := q
  simp [Over, Span.Inside]

theorem Over.trans (h : p.Over q) (h' : q.Over r) : p.Over r := by
  simp only [over_def] at *
  omega

theorem Over.irrefl (p : Ranked) : ¬ p.Over p := by
  simp [over_def]

theorem Over.asymm (h : p.Over q) : ¬ q.Over p := fun h' => Over.irrefl p (h.trans h')

end Ranked

open Ranked

/-- Spans of which every two are apart or one over the other, each with its depth. -/
structure Forest (ps : List Ranked) : Prop where
  ordered : ∀ p ∈ ps, p.start ≤ p.stop
  nests : ps.Pairwise fun p q => p.toSpan.Apart q.toSpan ∨ p.Over q ∨ q.Over p
  depth : ∀ p ∈ ps, p.level = ps.countP (fun q => q.Over p) + 1

namespace Forest

variable {ps qs : List Ranked} {p q t : Ranked}

theorem nil : Forest [] := ⟨by simp, .nil, by simp⟩

theorem perm (h : Forest ps) (hperm : ps.Perm qs) : Forest qs where
  ordered p hp := h.ordered p (hperm.mem_iff.mpr hp)
  nests := by
    refine (hperm.pairwise_iff ?_).mp h.nests
    intro p q hpq
    unfold Span.Apart at *
    rcases hpq with hpq | hpq | hpq
    · exact .inl (Or.symm hpq)
    · exact .inr (.inr hpq)
    · exact .inr (.inl hpq)
  depth p hp := by
    rw [h.depth p (hperm.mem_iff.mpr hp), hperm.countP_eq]

theorem nodup (h : Forest ps) : ps.Nodup := by
  refine (List.pairwise_iff_getElem.mpr ?_ : ps.Pairwise (· ≠ ·))
  intro i j hi hj hij heq
  have hself := List.pairwise_iff_getElem.mp h.nests i j hi hj hij
  rw [← heq] at hself
  have := h.ordered ps[i] (List.getElem_mem hi)
  rcases hself with hself | hself | hself
  · unfold Span.Apart at hself
    omega
  · exact Over.irrefl _ hself
  · exact Over.irrefl _ hself

theorem cases_of_mem (h : Forest ps) (hp : p ∈ ps) (hq : q ∈ ps) :
    p = q ∨ p.toSpan.Apart q.toSpan ∨ p.Over q ∨ q.Over p := by
  by_cases heq : p = q
  · exact .inl heq
  · right
    obtain ⟨i, hi, rfl⟩ := List.mem_iff_getElem.mp hp
    obtain ⟨j, hj, rfl⟩ := List.mem_iff_getElem.mp hq
    rcases Nat.lt_trichotomy i j with hij | rfl | hij
    · exact List.pairwise_iff_getElem.mp h.nests i j hi hj hij
    · exact absurd rfl heq
    · have := List.pairwise_iff_getElem.mp h.nests j i hj hi hij
      rcases this with hap | hov | hov
      · exact .inl (Or.symm hap)
      · exact .inr (.inr hov)
      · exact .inr (.inl hov)

theorem level_pos (h : Forest ps) (hp : p ∈ ps) : 0 < p.level := by
  rw [h.depth p hp]
  omega

/-- The level of an element is the number of those over it, itself counted. -/
theorem level_eq_countP (h : Forest ps) (hp : p ∈ ps) :
    p.level = ps.countP fun q => q = p ∨ q.Over p := by
  have hperm : (ps.filter fun q => q = p ∨ q.Over p).Perm (p :: ps.filter fun q => q.Over p) := by
    refine (List.perm_ext_iff_of_nodup (h.nodup.filter _) ?_).mpr ?_
    · refine List.nodup_cons.mpr ⟨?_, h.nodup.filter _⟩
      simp [Over.irrefl]
    · intro q
      simp only [List.mem_filter, decide_eq_true_eq, List.mem_cons]
      constructor
      · rintro ⟨hq, rfl | hov⟩
        · exact .inl rfl
        · exact .inr ⟨hq, hov⟩
      · rintro (rfl | ⟨hq, hov⟩)
        · exact ⟨hp, .inl rfl⟩
        · exact ⟨hq, .inr hov⟩
  have hlen := hperm.length_eq
  rw [List.length_cons] at hlen
  rw [h.depth p hp, List.countP_eq_length_filter, List.countP_eq_length_filter, hlen]

theorem level_lt (h : Forest ps) (hp : p ∈ ps) (hq : q ∈ ps) (hpq : p.Over q) :
    p.level < q.level := by
  rw [h.level_eq_countP hp, h.depth q hq, Nat.lt_succ_iff]
  refine List.countP_mono_left ?_
  intro r _ hr
  simp only [decide_eq_true_eq] at hr ⊢
  rcases hr with rfl | hov
  · exact hpq
  · exact hov.trans hpq

theorem over_iff (h : Forest ps) (hp : p ∈ ps) (hq : q ∈ ps) :
    p.Over q ↔ q.toSpan.Inside p.toSpan ∧ p.level < q.level :=
  ⟨fun hpq => ⟨hpq.1, h.level_lt hp hq hpq⟩, fun ⟨hin, hlt⟩ => ⟨hin, fun _ => hlt⟩⟩

theorem eq_of_level (h : Forest ps) (hp : p ∈ ps) (hq : q ∈ ps) (hlevel : p.level = q.level)
    (hmeet : ¬ p.toSpan.Apart q.toSpan) : p = q := by
  rcases h.cases_of_mem hp hq with heq | hap | hov | hov
  · exact heq
  · exact absurd hap hmeet
  · have := h.level_lt hp hq hov
    omega
  · have := h.level_lt hq hp hov
    omega

/-- Every element below the top level has one of the level above over it. -/
theorem exists_parent (h : Forest ps) {n : Nat} (hp : p ∈ ps) (hlevel : p.level = n + 2) :
    ∃ q ∈ ps, q.level = n + 1 ∧ q.Over p := by
  have hlen : (ps.filter fun r => r.Over p).length = n + 1 := by
    have := h.depth p hp
    rw [List.countP_eq_length_filter] at this
    omega
  -- of those over `p` take the one of the greatest level
  obtain ⟨q, hq, hmax⟩ : ∃ q ∈ ps.filter (fun r => r.Over p),
      ∀ r ∈ ps.filter (fun r => r.Over p), r.level ≤ q.level := by
    have hne : (ps.filter fun r => r.Over p).toFinset.Nonempty := by
      obtain ⟨a, ha⟩ := List.exists_mem_of_length_pos (by omega : 0 < (ps.filter fun r => r.Over p).length)
      exact ⟨a, List.mem_toFinset.mpr ha⟩
    obtain ⟨q, hq, hmax⟩ := Finset.exists_max_image _ Ranked.level hne
    exact ⟨q, List.mem_toFinset.mp hq, fun r hr => hmax r (List.mem_toFinset.mpr hr)⟩
  obtain ⟨hqs, hqp⟩ := List.mem_filter.mp hq
  have hqp : q.Over p := by simpa using hqp
  refine ⟨q, hqs, ?_, hqp⟩
  rw [h.level_eq_countP hqs]
  have hsame : (ps.countP fun r => r = q ∨ r.Over q) = ps.countP fun r => r.Over p := by
    refine List.countP_congr ?_
    intro r hr
    simp only [decide_eq_true_eq]
    constructor
    · rintro (rfl | hov)
      · exact hqp
      · exact hov.trans hqp
    · intro hrp
      rcases h.cases_of_mem hr hqs with heq | hap | hov | hov
      · exact .inl heq
      · -- both hold the numbers of `p`
        have := h.ordered p hp
        have := hrp.1
        have := hqp.1
        unfold Span.Apart Span.Inside at *
        omega
      · exact .inr hov
      · have := h.level_lt hqs hr hov
        have := hmax r (List.mem_filter.mpr ⟨hr, by simpa using hrp⟩)
        omega
  rw [hsame, List.countP_eq_length_filter, hlen]

/-- A span has one over it at each level above its own. -/
theorem exists_level (h : Forest ps) {n : Nat} (hp : p ∈ ps) (hn : 0 < n) (hle : n ≤ p.level) :
    ∃ q ∈ ps, q.level = n ∧ (q = p ∨ q.Over p) := by
  obtain ⟨k, hk⟩ := Nat.exists_eq_add_of_le hle
  induction k generalizing p with
  | zero => exact ⟨p, hp, hk, .inl rfl⟩
  | succ k ih =>
    obtain ⟨q, hq, hlevel, hqp⟩ := h.exists_parent (n := n + k - 1) hp (by omega)
    obtain ⟨r, hr, hrn, hrq⟩ := ih hq (by omega) (by omega)
    refine ⟨r, hr, hrn, .inr ?_⟩
    rcases hrq with rfl | hrq
    · exact hqp
    · exact hrq.trans hqp

/-! ## What changes levels -/

/-- New levels that keep what is over what keep every two spans apart or one over the
other. -/
theorem nests_map {f : Ranked → Ranked} (hspan : ∀ p, (f p).toSpan = p.toSpan)
    (hover : ∀ p ∈ ps, ∀ q ∈ ps, (f p).Over (f q) ↔ p.Over q)
    (h : ps.Pairwise fun p q => p.toSpan.Apart q.toSpan ∨ p.Over q ∨ q.Over p) :
    (ps.map f).Pairwise fun p q => p.toSpan.Apart q.toSpan ∨ p.Over q ∨ q.Over p := by
  rw [List.pairwise_map]
  refine h.imp_of_mem ?_
  intro p q hp hq hpq
  rw [hspan, hspan, hover p hp q hq, hover q hq p hp]
  exact hpq

theorem countP_map {f : Ranked → Ranked} (hp : p ∈ ps)
    (hover : ∀ p ∈ ps, ∀ q ∈ ps, (f p).Over (f q) ↔ p.Over q) :
    (ps.map f).countP (fun q => q.Over (f p)) = ps.countP fun q => q.Over p := by
  rw [List.countP_map]
  refine List.countP_congr ?_
  intro q hq
  simpa using hover q hq p hp

/-- Some of the spans are dropped, and with each all that it is over. -/
theorem filter (h : Forest ps) {keep : Ranked → Bool}
    (hup : ∀ p ∈ ps, ∀ q ∈ ps, keep q = true → p.Over q → keep p = true) :
    Forest (ps.filter keep) where
  ordered p hp := h.ordered p (List.mem_of_mem_filter hp)
  nests := h.nests.sublist List.filter_sublist
  depth q hq := by
    obtain ⟨hmem, hkeep⟩ := List.mem_filter.mp hq
    rw [h.depth q hmem, List.countP_filter]
    congr 1
    refine List.countP_congr ?_
    intro p hp
    simp only [decide_eq_true_eq, Bool.and_eq_true]
    exact ⟨fun hov => ⟨hov, hup p hp q hmem hkeep hov⟩, fun hov => hov.1⟩

/-- The spans a new one is put around, a level further down. -/
def deepen (within : Ranked → Bool) (p : Ranked) : Ranked :=
  if within p then { p with level := p.level + 1 } else p

/-- A span is put around some of the spans. The others are apart from it or over it, and its
level is its depth. -/
theorem wrap (h : Forest ps) {n : Ranked} {within : Ranked → Bool} (hn : n.start ≤ n.stop)
    (hpart : ∀ p ∈ ps, (within p = false ∧ p.toSpan.Apart n.toSpan) ∨
      (within p = false ∧ p.Over n) ∨
      within p = true ∧ p.toSpan.Inside n.toSpan ∧ n.level ≤ p.level)
    (hlevel : n.level = ps.countP (fun p => p.Over n) + 1) :
    Forest (ps.map (deepen within) ++ [n]) := by
  have hspan (p : Ranked) : (deepen within p).toSpan = p.toSpan := by
    unfold deepen
    split <;> rfl
  have hover : ∀ p ∈ ps, ∀ q ∈ ps, (deepen within p).Over (deepen within q) ↔ p.Over q := by
    intro p hp q hq
    have := h.ordered q hq
    rcases hpart p hp with ⟨wp, hp⟩ | ⟨wp, hp⟩ | ⟨wp, hp⟩ <;>
      rcases hpart q hq with ⟨wq, hq⟩ | ⟨wq, hq⟩ | ⟨wq, hq⟩ <;>
      simp only [deepen, wp, wq, over_def, Span.Apart, Span.Inside, if_true, if_false,
        Bool.false_eq_true] at * <;> omega
  -- what the new span is over, and what is over it, is what the parts say
  have hunder : ∀ p ∈ ps, n.Over (deepen within p) ↔ within p = true := by
    intro p hp
    have := h.ordered p hp
    rcases hpart p hp with ⟨wp, hp⟩ | ⟨wp, hp⟩ | ⟨wp, hp⟩ <;>
      simp only [deepen, wp, over_def, Span.Apart, Span.Inside, if_true, if_false,
        Bool.false_eq_true, iff_false, iff_true] at * <;> omega
  have habove : ∀ p ∈ ps, (deepen within p).Over n ↔ p.Over n := by
    intro p hp
    rcases hpart p hp with ⟨wp, hp⟩ | ⟨wp, hp⟩ | ⟨wp, hp⟩
    · simp only [deepen, wp, Bool.false_eq_true, if_false]
    · simp only [deepen, wp, Bool.false_eq_true, if_false]
    · simp only [deepen, wp, over_def, Span.Inside, if_true] at *
      omega
  refine ⟨?_, ?_, ?_⟩
  · intro p hp
    rcases List.mem_append.mp hp with hp | hp
    · obtain ⟨q, hq, rfl⟩ := List.mem_map.mp hp
      rw [hspan]
      exact h.ordered q hq
    · rw [List.mem_singleton.mp hp]
      exact hn
  · rw [List.pairwise_append]
    refine ⟨nests_map hspan hover h.nests, by simp, ?_⟩
    intro p hp r hr
    rw [List.mem_singleton.mp hr]
    obtain ⟨q, hq, rfl⟩ := List.mem_map.mp hp
    rw [hspan, hunder q hq, habove q hq]
    rcases hpart q hq with ⟨_, hap⟩ | ⟨_, hov⟩ | ⟨hw, _⟩
    · exact .inl hap
    · exact .inr (.inl hov)
    · exact .inr (.inr hw)
  · intro p hp
    rw [List.countP_append, List.countP_singleton]
    rcases List.mem_append.mp hp with hp | hp
    · obtain ⟨q, hq, rfl⟩ := List.mem_map.mp hp
      rw [countP_map hq hover]
      simp only [hunder q hq, decide_eq_true_eq]
      have := h.depth q hq
      cases hw : within q
      · simp only [deepen, hw, Bool.false_eq_true, if_false]
        omega
      · simp only [deepen, hw, if_true]
        omega
    · rw [List.mem_singleton.mp hp]
      have hsame : (ps.map (deepen within)).countP (fun q => q.Over n) =
          ps.countP fun p => p.Over n := by
        rw [List.countP_map]
        refine List.countP_congr ?_
        intro q hq
        simpa using habove q hq
      simp only [Over.irrefl, decide_false, Bool.false_eq_true, if_false, hsame]
      omega

/-- The spans another was over, a level further up. -/
def raise (t p : Ranked) : Ranked := if t.Over p then { p with level := p.level - 1 } else p

/-- A span is dropped, and those it was over go a level up. -/
theorem lift (h : Forest ps) (ht : t ∈ ps) :
    Forest ((ps.filter fun p => p ≠ t).map (raise t)) := by
  have hspan (p : Ranked) : (raise t p).toSpan = p.toSpan := by
    unfold raise
    split <;> rfl
  have hmem (p : Ranked) : p ∈ ps.filter (fun p => p ≠ t) ↔ p ∈ ps ∧ p ≠ t := by
    simp
  -- how each of the others stands to the one dropped
  have hcases : ∀ p ∈ ps, p ≠ t → t.toSpan.Apart p.toSpan ∨ (t.Over p ∧ t.level < p.level) ∨
      (p.Over t ∧ p.level < t.level) := by
    intro p hp hne
    rcases h.cases_of_mem ht hp with heq | hap | hov | hov
    · exact absurd heq.symm hne
    · exact .inl hap
    · exact .inr (.inl ⟨hov, h.level_lt ht hp hov⟩)
    · exact .inr (.inr ⟨hov, h.level_lt hp ht hov⟩)
  have hover : ∀ p ∈ ps.filter (fun p => p ≠ t), ∀ q ∈ ps.filter (fun p => p ≠ t),
      (raise t p).Over (raise t q) ↔ p.Over q := by
    intro p hp q hq
    obtain ⟨hp, hpt⟩ := (hmem p).mp hp
    obtain ⟨hq, hqt⟩ := (hmem q).mp hq
    have := h.ordered q hq
    have hp := hcases p hp hpt
    by_cases hop : t.Over p <;> by_cases hoq : t.Over q <;>
      simp only [raise, hop, hoq, if_true, if_false] <;>
      simp only [over_def, Span.Apart] at * <;> omega
  refine ⟨?_, nests_map hspan hover (h.nests.sublist List.filter_sublist), ?_⟩
  · intro p hp
    obtain ⟨q, hq, rfl⟩ := List.mem_map.mp hp
    rw [hspan]
    exact h.ordered q ((hmem q).mp hq).1
  · intro p hp
    obtain ⟨q, hq, rfl⟩ := List.mem_map.mp hp
    rw [countP_map hq hover]
    obtain ⟨hq, hqt⟩ := (hmem q).mp hq
    have hperm : ps.Perm (t :: ps.filter fun p => p ≠ t) := by
      refine (List.perm_ext_iff_of_nodup h.nodup ?_).mpr ?_
      · exact List.nodup_cons.mpr ⟨by simp, h.nodup.filter _⟩
      · intro p
        by_cases heq : p = t <;> simp [heq, ht]
    have hdepth := h.depth q hq
    rw [hperm.countP_eq, List.countP_cons] at hdepth
    unfold raise
    split <;> simp_all

end Forest

end Ruse.Lib
