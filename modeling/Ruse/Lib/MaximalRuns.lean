import Mathlib.Order.Bounds.Basic
import Mathlib.Order.Nat
import Ruse.Lib.Spans

/-!
# Maximal runs

The spans on which a property of numbers holds and which cannot be made wider
(`MaximalRun`). Of two properties, one weaker than the other, the maximal runs are apart or
the one of the stronger property is inside the other (`MaximalRun.nests`). Where the property
is that a level is at least some depth, a maximal run has a larger least level than every
wider span (`MaximalRun.least_lt`): a number that stops the run lies in the wider span, and
its level is below all the run's.
-/

namespace Ruse.Lib

/-- A span of numbers that have a property, with none that has it next to it. -/
structure MaximalRun (P : Nat → Prop) (s : Span) : Prop where
  ordered : s.start ≤ s.stop
  all : ∀ n, s.Holds n → P n
  before : ∀ n, n + 1 = s.start → ¬ P n
  after : ¬ P (s.stop + 1)

namespace MaximalRun

variable {P Q : Nat → Prop} {s t : Span} {level : Nat → Nat} {d e l m : Nat}

/-- A maximal run holds the runs of a stronger property that it shares a number with. -/
theorem inside (h : MaximalRun P s) (h' : MaximalRun Q t) (hPQ : ∀ n, Q n → P n)
    (hshare : t.start ≤ s.stop ∧ s.start ≤ t.stop) : t.Inside s := by
  constructor
  · by_contra hlt
    have hbefore := h.before (s.start - 1) (by omega)
    exact hbefore (hPQ _ (h'.all _ ⟨by omega, by omega⟩))
  · by_contra hlt
    exact h.after (hPQ _ (h'.all _ ⟨by omega, by omega⟩))

/-- Of a property and a stronger one, two maximal runs are apart or nest. -/
theorem nests (h : MaximalRun P s) (h' : MaximalRun Q t) (hPQ : ∀ n, Q n → P n) :
    s.Apart t ∨ t.Inside s := by
  by_cases hshare : t.start ≤ s.stop ∧ s.start ≤ t.stop
  · exact .inr (h.inside h' hPQ hshare)
  · left
    unfold Span.Apart
    omega

theorem eq_of_share (h : MaximalRun P s) (h' : MaximalRun P t)
    (hshare : t.start ≤ s.stop ∧ s.start ≤ t.stop) : s = t := by
  obtain ⟨hstart, hstop⟩ := h.inside h' (fun _ hn => hn) hshare
  obtain ⟨hstart', hstop'⟩ := h'.inside h (fun _ hn => hn) hshare.symm
  exact Span.ext (hstart'.antisymm hstart).symm (hstop'.antisymm hstop)

/-- A wider span than a maximal run holds a number of a level below all those of the run. -/
theorem exists_lt (h : MaximalRun (fun n => e ≤ level n) t) (hin : t.Inside s) (hne : t ≠ s) :
    ∃ n, s.Holds n ∧ level n < e := by
  have ht := h.ordered
  by_cases hstart : s.start = t.start
  · have hstop : s.stop ≠ t.stop := fun hstop => hne (Span.ext hstart.symm hstop.symm)
    refine ⟨t.stop + 1, ⟨?_, ?_⟩, Nat.lt_of_not_le h.after⟩
    · exact hin.1.trans (ht.trans (Nat.le_succ _))
    · have := hin.2
      omega
  · have := hin.1
    have := hin.2
    refine ⟨t.start - 1, ⟨by omega, by omega⟩, ?_⟩
    exact Nat.lt_of_not_le (h.before _ (by omega))

/-- The least level of a maximal run is larger than that of a wider span. -/
theorem least_lt (h : MaximalRun (fun n => e ≤ level n) t) (hin : t.Inside s) (hne : t ≠ s)
    (hl : IsLeast (level '' {n | s.Holds n}) l) (hm : IsLeast (level '' {n | t.Holds n}) m) :
    l < m := by
  obtain ⟨n, hn, hlt⟩ := h.exists_lt hin hne
  obtain ⟨n', hn', rfl⟩ := hm.1
  calc l ≤ level n := hl.2 ⟨n, hn, rfl⟩
    _ < e := hlt
    _ ≤ level n' := h.all n' hn'

theorem nests_of_levels (h : MaximalRun (fun n => d ≤ level n) s)
    (h' : MaximalRun (fun n => e ≤ level n) t) : s.Nests t := by
  rcases Nat.le_total d e with hde | hed
  · rcases h.nests h' (fun n hn => hde.trans hn) with hapart | hin
    · exact .inl hapart
    · exact .inr (.inr hin)
  · rcases h'.nests h (fun n hn => hed.trans hn) with hapart | hin
    · exact .inl hapart.symm
    · exact .inr (.inl hin)

/-- A number with the property lies in a maximal run, if the property ends somewhere after it. -/
theorem exists_holds {n : Nat} (hn : P n) (hend : ∃ m, n < m ∧ ¬ P m) :
    ∃ s, MaximalRun P s ∧ s.Holds n := by
  classical
  have hfrom : ∃ k, ∀ i, k ≤ i → i ≤ n → P i := by
    refine ⟨n, fun i hk hi => ?_⟩
    rwa [hi.antisymm hk]
  have hstart := Nat.find_min' hfrom fun i hk hi => by rwa [hi.antisymm hk]
  obtain ⟨hstop, hnot⟩ := Nat.find_spec hend
  have hlast : Nat.find hend - 1 + 1 = Nat.find hend := by omega
  refine ⟨⟨Nat.find hfrom, Nat.find hend - 1⟩, ⟨?_, fun i hi => ?_, fun i hi hP => ?_, ?_⟩, ?_⟩
  · show Nat.find hfrom ≤ Nat.find hend - 1
    omega
  · rcases Nat.le_total i n with hle | hge
    · exact Nat.find_spec hfrom i hi.1 hle
    · by_contra hP
      have hle := Nat.find_min' hend (m := i) ⟨hge.lt_of_ne fun h => hP (h ▸ hn), hP⟩
      have hi' : i ≤ Nat.find hend - 1 := hi.2
      omega
  · have hi : i + 1 = Nat.find hfrom := hi
    apply Nat.find_min hfrom (m := i) (by omega)
    intro j hj hjn
    rcases hj.eq_or_lt with rfl | hlt
    · exact hP
    · exact Nat.find_spec hfrom j (by omega) hjn
  · show ¬ P (Nat.find hend - 1 + 1)
    rwa [hlast]
  · exact ⟨hstart, by show n ≤ Nat.find hend - 1; omega⟩

end MaximalRun

end Ruse.Lib
