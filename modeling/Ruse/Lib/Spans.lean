import Mathlib.Algebra.BigOperators.Group.Finset.Basic
import Mathlib.Data.Finset.Card
import Mathlib.Order.Interval.Finset.Nat

/-!
# Spans

Spans of numbers with both ends in them, and the two facts a set of them is read with: of
spans that nest and share a number one holds all the others (`exists_outermost`), and a sweep
over half-open spans in the order of their first numbers counts the numbers under them once
(`foldl_sweep`).
-/

namespace Ruse.Lib

variable {spans : List (Nat × Nat)}

/-- The numbers from `start` to `stop`, both in it. -/
@[ext]
structure Span where
  start : Nat
  stop : Nat
deriving DecidableEq, Repr

namespace Span

variable {s t u : Span} {n : Nat}

def Holds (s : Span) (n : Nat) : Prop := s.start ≤ n ∧ n ≤ s.stop

instance (s : Span) (n : Nat) : Decidable (s.Holds n) := by
  unfold Holds
  infer_instance

/-- One span lies in another, or is the same. -/
def Inside (s t : Span) : Prop := t.start ≤ s.start ∧ s.stop ≤ t.stop

instance (s t : Span) : Decidable (s.Inside t) := by
  unfold Inside
  infer_instance

/-- Two spans with no number in common. -/
def Apart (s t : Span) : Prop := s.stop < t.start ∨ t.stop < s.start

instance (s t : Span) : Decidable (s.Apart t) := by
  unfold Apart
  infer_instance

/-- Two spans that are apart or one inside the other. -/
def Nests (s t : Span) : Prop := s.Apart t ∨ s.Inside t ∨ t.Inside s

instance (s t : Span) : Decidable (s.Nests t) := by
  unfold Nests
  infer_instance

theorem Inside.refl (s : Span) : s.Inside s := ⟨le_rfl, le_rfl⟩

theorem Inside.trans (h : s.Inside t) (h' : t.Inside u) : s.Inside u :=
  ⟨h'.1.trans h.1, h.2.trans h'.2⟩

theorem Inside.holds (h : s.Inside t) (hn : s.Holds n) : t.Holds n :=
  ⟨h.1.trans hn.1, hn.2.trans h.2⟩

theorem Nests.inside (h : s.Nests t) (hs : s.Holds n) (ht : t.Holds n) :
    s.Inside t ∨ t.Inside s := by
  unfold Nests Apart Inside Holds at *
  omega

/-- Of spans that nest and share a number one holds all the others. -/
theorem exists_outermost (ss : List Span) (hne : ss ≠ []) (hnest : ∀ s ∈ ss, ∀ t ∈ ss, s.Nests t)
    (hn : ∀ s ∈ ss, s.Holds n) : ∃ s ∈ ss, ∀ t ∈ ss, t.Inside s := by
  induction ss with
  | nil => exact absurd rfl hne
  | cons s ss ih =>
    by_cases hss : ss = []
    · subst hss
      refine ⟨s, by simp, ?_⟩
      intro t ht
      rw [List.mem_singleton.mp ht]
      exact Inside.refl s
    · obtain ⟨o, ho, hall⟩ := ih hss
        (fun a ha b hb => hnest a (List.mem_cons_of_mem _ ha) b (List.mem_cons_of_mem _ hb))
        (fun a ha => hn a (List.mem_cons_of_mem _ ha))
      have hos : o.Nests s := hnest o (List.mem_cons_of_mem _ ho) s (by simp)
      -- the new span is inside the outermost of the others, or holds it and them
      rcases hos.inside (hn o (List.mem_cons_of_mem _ ho)) (hn s (by simp)) with h | h
      · refine ⟨s, by simp, ?_⟩
        intro t ht
        rcases List.mem_cons.mp ht with rfl | ht
        · exact Inside.refl t
        · exact (hall t ht).trans h
      · refine ⟨o, List.mem_cons_of_mem _ ho, ?_⟩
        intro t ht
        rcases List.mem_cons.mp ht with rfl | ht
        · exact h
        · exact hall t ht

end Span

/-- One span `[s, e)` of a sweep: the numbers of it not yet swept are counted, and the sweep
reaches its end. -/
def sweep (acc : Nat × Nat) (span : Nat × Nat) : Nat × Nat :=
  if max span.1 acc.2 < span.2 then (acc.1 + (span.2 - max span.1 acc.2), span.2) else acc

/-- The numbers under half-open spans, from `reach` to `b`. -/
def under (spans : List (Nat × Nat)) (reach b : Nat) : Finset Nat :=
  {x ∈ Finset.Ico reach b | ∃ s ∈ spans, s.1 ≤ x ∧ x < s.2}

@[simp] theorem under_nil (reach b : Nat) : under [] reach b = ∅ := by
  simp [under]

/-- A first span that is swept leaves the others to be counted from its end. -/
theorem under_cons_card {span : Nat × Nat} {reach b : Nat} (hsort : ∀ s ∈ spans, span.1 ≤ s.1)
    (hb : span.2 ≤ b) (hlt : max span.1 reach < span.2) :
    (under (span :: spans) reach b).card =
      span.2 - max span.1 reach + (under spans span.2 b).card := by
  have hsplit : under (span :: spans) reach b =
      Finset.Ico (max span.1 reach) span.2 ∪ under spans span.2 b := by
    ext x
    simp only [under, List.mem_cons, exists_eq_or_imp, Finset.mem_filter, Finset.mem_Ico,
      Finset.mem_union]
    constructor
    · rintro ⟨⟨hreach, hxb⟩, hx | ⟨s, hs, hx⟩⟩
      · left
        omega
      · have := hsort s hs
        by_cases hend : x < span.2
        · left
          omega
        · exact .inr ⟨⟨by omega, hxb⟩, s, hs, hx⟩
    · rintro (hx | ⟨hx, s, hs, hxs⟩)
      · exact ⟨by omega, .inl (by omega)⟩
      · exact ⟨by omega, .inr ⟨s, hs, hxs⟩⟩
  have hdisj : Disjoint (Finset.Ico (max span.1 reach) span.2) (under spans span.2 b) := by
    rw [Finset.disjoint_left]
    intro x hx hx'
    simp only [under, Finset.mem_filter, Finset.mem_Ico] at hx hx'
    omega
  rw [hsplit, Finset.card_union_of_disjoint hdisj, Nat.card_Ico]

theorem under_cons_of_le {span : Nat × Nat} {reach : Nat} (b : Nat)
    (hle : ¬ max span.1 reach < span.2) : under (span :: spans) reach b = under spans reach b := by
  ext x
  simp only [under, List.mem_cons, exists_eq_or_imp, Finset.mem_filter, Finset.mem_Ico]
  constructor
  · rintro ⟨hx, hs | hs⟩
    · omega
    · exact ⟨hx, hs⟩
  · rintro ⟨hx, hs⟩
    exact ⟨hx, .inr hs⟩

/-- A sweep over spans in the order of their first numbers counts each number under them
once. -/
theorem foldl_sweep {b : Nat} (n reach : Nat) (hsort : spans.Pairwise fun s t => s.1 ≤ t.1)
    (hb : ∀ s ∈ spans, s.2 ≤ b) :
    (spans.foldl sweep (n, reach)).1 = n + (under spans reach b).card := by
  induction spans generalizing n reach with
  | nil => simp
  | cons span spans ih =>
    obtain ⟨hfirst, hsort⟩ := List.pairwise_cons.mp hsort
    have hrest : ∀ s ∈ spans, s.2 ≤ b := fun s hs => hb s (List.mem_cons_of_mem _ hs)
    rw [List.foldl_cons, sweep]
    split
    · rename_i hlt
      rw [ih _ _ hsort hrest, under_cons_card hfirst (hb span (by simp)) hlt]
      omega
    · rename_i hle
      rw [ih _ _ hsort hrest, under_cons_of_le b hle]

end Ruse.Lib
